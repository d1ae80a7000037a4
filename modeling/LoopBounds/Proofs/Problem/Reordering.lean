import LoopBounds.Proofs.Problem.Moves
import Mathlib.Data.List.Perm.Basic

namespace LoopBounds

section

variable {α : Type} [DecidableEq α] {l m : List α}

theorem perm_note (h : l.Perm m) (a : α) : (note l a).Perm (note m a) := by
  by_cases ha : a ∈ l
  · rwa [note_of_mem ha, note_of_mem (h.mem_iff.mp ha)]
  · rw [note_of_not_mem ha, note_of_not_mem (mt h.mem_iff.mpr ha)]
    exact h.append_right [a]

theorem note_perm_insert (l : List α) (a : α) : (note l a).Perm (l.insert a) := by
  by_cases ha : a ∈ l
  · rw [note_of_mem ha, List.insert_of_mem ha]
  · rw [note_of_not_mem ha, List.insert_of_not_mem ha]
    exact List.perm_append_singleton a l

theorem note_comm (l : List α) (a b : α) : (note (note l a) b).Perm (note (note l b) a) := by
  have h (a b : α) : (note (note l a) b).Perm ((l.insert a).insert b) :=
    (note_perm_insert _ b).trans ((note_perm_insert l a).insert b)
  exact ((h a b).trans (List.perm_insert_swap b a l)).trans (h b a).symm

theorem removeAll_note (l m : List α) (a : α) :
    (note l a).removeAll m = if a ∈ m then l.removeAll m else note (l.removeAll m) a := by
  by_cases ha : a ∈ l
  · rw [note_of_mem ha]
    split
    next => rfl
    next hm => rw [note_of_mem (mem_removeAll.mpr ⟨ha, hm⟩)]
  · have hl : (l ++ [a]).removeAll m = l.removeAll m ++ [a].removeAll m := List.filter_append _ _
    have ha' : [a].removeAll m = if a ∈ m then [] else [a] := by
      by_cases hm : a ∈ m <;> simp [List.removeAll, hm]
    rw [note_of_not_mem ha, hl, ha', apply_ite (l.removeAll m ++ ·), List.append_nil,
      note_of_not_mem fun h => ha (mem_removeAll.mp h).1]

end

/-- Neither move notes a constraint that the other settles but would leave pending. -/
def Move.Compatible : Move → Move → Prop
  | .range r taken _, .constraint c => c ∈ r.halves → c ∈ taken
  | .constraint c, .range r taken _ => c ∈ r.halves → c ∈ taken
  | _, _ => True

/-- Both problems hold the same entries, each the same number of times. -/
structure Problem.Same (p q : Problem) : Prop where
  solved : p.solved.Perm q.solved
  pending : p.pending.Perm q.pending

namespace Problem

variable {p q r : Problem} {a b : Move} {ms ns : List Move}

theorem Same.refl (p : Problem) : p.Same p :=
  ⟨.refl _, .refl _⟩

theorem Same.trans (h : p.Same q) (h' : q.Same r) : p.Same r :=
  ⟨h.solved.trans h'.solved, h.pending.trans h'.pending⟩

theorem Same.mem_settled_iff (h : p.Same q) {c : Constraint Value} :
    c ∈ p.settled ↔ c ∈ q.settled := by
  simp only [mem_settled, h.solved.mem_iff]

theorem Same.make (h : p.Same q) (m : Move) : (p.make m).Same (q.make m) := by
  cases m with
  | range r taken => exact ⟨perm_note h.solved r, h.pending.filter _⟩
  | constraint c =>
    by_cases hs : c ∈ p.settled
    · rwa [make_of_settled hs, make_of_settled (h.mem_settled_iff.mp hs)]
    · rw [make_of_not_settled hs, make_of_not_settled (mt h.mem_settled_iff.mpr hs)]
      exact ⟨h.solved, perm_note h.pending c⟩

theorem make_range_constraint {s : Range} {taken : List (Constraint Value)}
    {hs : taken ⊆ s.halves} {c : Constraint Value} (h : c ∈ s.halves → c ∈ taken) (p : Problem) :
    (p.make (.range s taken hs)).make (.constraint c) =
      (p.make (.constraint c)).make (.range s taken hs) := by
  by_cases hp : c ∈ p.settled
  · rw [make_of_settled hp, make_of_settled (mem_settled_make_range.mpr (.inl hp))]
  · rw [make_of_not_settled hp]
    by_cases hc : c ∈ s.halves
    · -- After the range it is not noted, and before the range it is taken out again.
      rw [make_of_settled (mem_settled_make_range.mpr (.inr hc))]
      simp only [make, removeAll_note, if_pos (h hc)]
    · have hn : c ∉ (p.make (.range s taken hs)).settled := by
        rw [mem_settled_make_range]
        exact not_or.mpr ⟨hp, hc⟩
      rw [make_of_not_settled hn]
      simp only [make, removeAll_note, if_neg (mt (@hs c) hc)]

theorem make_comm (h : a.Compatible b) (p : Problem) :
    ((p.make a).make b).Same ((p.make b).make a) := by
  cases a with
  | range r taken =>
    cases b with
    | range s taken' => exact ⟨note_comm _ _ _, .of_eq (List.filter_comm _ _ _)⟩
    | constraint c =>
      rw [make_range_constraint h]
      exact .refl _
  | constraint c =>
    cases b with
    | range s taken =>
      rw [make_range_constraint h]
      exact .refl _
    | constraint d =>
      by_cases hc : c ∈ p.settled
      · have hc' : c ∈ (p.make (.constraint d)).settled := by rwa [settled_make_constraint]
        rw [make_of_settled hc, make_of_settled hc']
        exact .refl _
      · by_cases hd : d ∈ p.settled
        · have hd' : d ∈ (p.make (.constraint c)).settled := by rwa [settled_make_constraint]
          rw [make_of_settled hd, make_of_settled hd']
          exact .refl _
        · have hc' : c ∉ (p.make (.constraint d)).settled := by rwa [settled_make_constraint]
          have hd' : d ∉ (p.make (.constraint c)).settled := by rwa [settled_make_constraint]
          rw [make_of_not_settled hc', make_of_not_settled hd', make_of_not_settled hc,
            make_of_not_settled hd]
          exact ⟨.refl _, note_comm _ _ _⟩

theorem Same.foldl (h : p.Same q) (ms : List Move) :
    (ms.foldl Problem.make p).Same (ms.foldl Problem.make q) := by
  induction ms generalizing p q with
  | nil => exact h
  | cons m ms ih => exact ih (h.make m)

theorem foldl_make_perm (hp : ms.Perm ns) (hc : ∀ a ∈ ms, ∀ b ∈ ms, a.Compatible b) (p : Problem) :
    (ms.foldl make p).Same (ns.foldl make p) := by
  induction hp generalizing p with
  | nil => exact .refl p
  | cons m _ ih =>
    apply ih
    intro a ha b hb
    exact hc a (List.mem_cons_of_mem m ha) b (List.mem_cons_of_mem m hb)
  | swap a b ms =>
    have ha : a ∈ b :: a :: ms := List.mem_cons_of_mem b List.mem_cons_self
    have hb : b.Compatible a := hc b List.mem_cons_self a ha
    exact (make_comm hb p).foldl ms
  | trans h _ ih₁ ih₂ =>
    have hc' := fun a ha b hb => hc a (h.mem_iff.mpr ha) b (h.mem_iff.mpr hb)
    exact (ih₁ hc p).trans (ih₂ hc' p)

end Problem

namespace Problem

/-- No fact states a half of a range as a constraint where another states the range itself. -/
def Undisputed (facts : List Fact) : Prop :=
  ∀ r, .range r ∈ facts → ∀ c ∈ r.halves, .constraint c ∉ facts.flatMap Fact.offers

theorem Undisputed.compatible {facts : List Fact} (h : Undisputed facts) :
    ∀ a ∈ facts.flatMap Fact.moves, ∀ b ∈ facts.flatMap Fact.moves, a.Compatible b := by
  have hc : ∀ r taken hr c, .range r taken hr ∈ facts.flatMap Fact.moves →
      .constraint c ∈ facts.flatMap Fact.moves → c ∈ r.halves → c ∈ taken := by
    intro r taken hr c hm hc hh
    obtain ⟨f, hf, hm⟩ := List.mem_flatMap.mp hm
    obtain ⟨g, hg, hc⟩ := List.mem_flatMap.mp hc
    rcases Fact.range_mem_moves hm with rfl | rfl
    · have ho := List.mem_flatMap.mpr ⟨g, hg, Fact.constraint_mem_moves_iff.mp hc⟩
      exact absurd ho (h r hf c hh)
    · exact hh
  intro a ha b hb
  cases a with
  | range r taken hr =>
    cases b with
    | range => trivial
    | constraint c => exact hc r taken hr c ha hb
  | constraint c =>
    cases b with
    | range r taken hr => exact hc r taken hr c hb ha
    | constraint => trivial

theorem Undisputed.same {facts facts' : List Fact} (h : Undisputed facts) (hp : facts.Perm facts')
    (p : Problem) : (p.addAll facts).problem.Same (p.addAll facts').problem := by
  rw [problem_addAll_eq_foldl, problem_addAll_eq_foldl]
  exact foldl_make_perm (hp.flatMap_right Fact.moves) h.compatible p

/-- The order of the facts decides nothing but that of the entries, unless one is disputed. -/
theorem addAll_perm (p : Problem) {facts facts' : List Fact} (hp : facts.Perm facts') :
    (Undisputed facts →
      (p.addAll facts).problem.solved.Perm (p.addAll facts').problem.solved ∧
        (p.addAll facts).problem.pending.Perm (p.addAll facts').problem.pending) ∧
      ((∀ r, .range r ∉ facts) →
        (p.addAll facts).problem.solved.Perm (p.addAll facts').problem.solved ∧
          (p.addAll facts).problem.pending.Perm (p.addAll facts').problem.pending) := by
  have hs (h : Undisputed facts) := h.same hp p
  refine ⟨fun h => ⟨(hs h).solved, (hs h).pending⟩, ?_⟩
  intro hr
  have h : Undisputed facts := fun r h => absurd h (hr r)
  exact ⟨(hs h).solved, (hs h).pending⟩

theorem addAll_perm_promoted :
    let lower : Constraint Value := ⟨.const 0, .lessOrEqual, .var "i"⟩
    let i : Fact := .between (.const 0) (.var "i") (.param "N")
    let j : Fact := .between (.const 0) (.var "j") (.var "i")
    let k : Fact := .range ⟨"k", .const 0, .var "j"⟩
    let p : Problem := ⟨[], [lower, lower]⟩
    ([.constraint lower, k, j, i].Perm [i, j, .constraint lower, k] ∧
      Undisputed [.constraint lower, k, j, i] ∧
      (p.addAll [.constraint lower, k, j, i]).problem.pending.Perm
        (p.addAll [i, j, .constraint lower, k]).problem.pending) ∧
      [.constraint lower, i].Perm [i, .constraint lower] ∧
      (∀ r, .range r ∉ [.constraint lower, i]) ∧
      (p.addAll [.constraint lower, i]).problem.pending.Perm
        (p.addAll [i, .constraint lower]).problem.pending := by
  intro lower i j k p
  have hp : [.constraint lower, k, j, i].Perm [i, j, .constraint lower, k] := by decide
  have hu : Undisputed [.constraint lower, k, j, i] := by
    intro r hr
    simp only [i, j, k, List.mem_cons, List.not_mem_nil, Fact.range.injEq, reduceCtorEq, or_false,
      false_or] at hr
    subst hr
    decide
  have hp' : [.constraint lower, i].Perm [i, .constraint lower] := by decide
  have hr : ∀ r, .range r ∉ [.constraint lower, i] := by
    intro r
    simp only [i, List.mem_cons, List.not_mem_nil, reduceCtorEq, or_self, not_false_eq_true]
  exact ⟨⟨hp, hu, ((addAll_perm p hp).1 hu).2⟩, hp', hr, ((addAll_perm p hp').2 hr).2⟩

/-- A stated range leaves pending halves alone, and keeps them from becoming so. -/
example :
    let lower : Constraint Value := ⟨.const 0, .lessOrEqual, .var "i"⟩
    let i : Range := ⟨"i", .const 0, .param "N"⟩
    (empty.addAll [.constraint lower, .range i]).problem = ⟨[i], [lower]⟩ ∧
      (empty.addAll [.range i, .constraint lower]).problem = ⟨[i], []⟩ := by
  decide

end Problem

end LoopBounds
