import LoopBounds.Proofs.Problem.Moves

namespace LoopBounds.Problem

/-- The problem knows already what the move would add, and holds nothing that it would take out. -/
def Absorbs (p : Problem) : Move → Prop
  | .range r taken _ => r ∈ p.solved ∧ ∀ c ∈ taken, c ∉ p.pending
  | .constraint c => c ∈ p.settled ∨ c ∈ p.pending

variable {p : Problem} {m n : Move} {ms ns : List Move}

theorem Absorbs.make_eq (h : p.Absorbs m) : p.make m = p := by
  cases m with
  | range r taken =>
    have hr : p.pending.removeAll taken = p.pending := by
      apply List.filter_eq_self.mpr
      intro c hc
      rw [List.elem_eq_mem, decide_eq_false fun ht => h.2 c ht hc]
      rfl
    rw [make, note_of_mem h.1, hr]
  | constraint c =>
    by_cases hs : c ∈ p.settled
    · exact make_of_settled hs
    · rw [make_of_not_settled hs, note_of_mem (h.resolve_left hs)]

theorem absorbs_make (p : Problem) (m : Move) : (p.make m).Absorbs m := by
  cases m with
  | range r taken =>
    refine ⟨mem_note.mpr (.inr rfl), ?_⟩
    intro c ht hc
    exact (mem_pending_make_range.mp hc).2 ht
  | constraint c =>
    by_cases hs : c ∈ p.settled
    · rw [make_of_settled hs]
      exact .inl hs
    · rw [make_of_not_settled hs]
      exact .inr (mem_note.mpr (.inr rfl))

theorem Absorbs.make (h : p.Absorbs m) (n : Move) : (p.make n).Absorbs m := by
  cases m with
  | range r taken hr =>
    cases n with
    | range s taken' =>
      refine ⟨mem_note.mpr (.inl h.1), ?_⟩
      intro c ht hc
      exact h.2 c ht (mem_pending_make_range.mp hc).1
    | constraint d =>
      by_cases hs : d ∈ p.settled
      · rwa [make_of_settled hs]
      · rw [make_of_not_settled hs]
        refine ⟨h.1, ?_⟩
        intro c ht hc
        rcases mem_note.mp hc with hc | rfl
        · exact h.2 c ht hc
        · -- What is settled never becomes pending again.
          exact hs (mem_settled.mpr ⟨r, h.1, hr ht⟩)
  | constraint c =>
    cases n with
    | range s taken hs =>
      rw [Absorbs, mem_settled_make_range, mem_pending_make_range]
      rcases h with h | h
      · exact .inl (.inl h)
      · by_cases ht : c ∈ taken
        · -- The range that takes it out settles it.
          exact .inl (.inr (hs ht))
        · exact .inr ⟨h, ht⟩
    | constraint d =>
      by_cases hs : d ∈ p.settled
      · rwa [make_of_settled hs]
      · rw [make_of_not_settled hs]
        exact h.imp_right fun hc => mem_note.mpr (.inl hc)

theorem Absorbs.foldl (h : p.Absorbs m) (ns : List Move) : (ns.foldl Problem.make p).Absorbs m := by
  induction ns generalizing p with
  | nil => exact h
  | cons n ns ih => exact ih (h.make n)

theorem absorbs_foldl (p : Problem) (h : m ∈ ms) : (ms.foldl make p).Absorbs m := by
  induction ms generalizing p with
  | nil => cases h
  | cons n ms ih =>
    cases h with
    | head => exact (absorbs_make p m).foldl ms
    | tail _ h => exact ih _ h

theorem foldl_of_absorbs (h : ∀ n ∈ ns, p.Absorbs n) : ns.foldl make p = p := by
  induction ns with
  | nil => rfl
  | cons n ns ih =>
    have ⟨hn, hns⟩ := List.forall_mem_cons.mp h
    rw [List.foldl_cons, hn.make_eq]
    exact ih hns

/-- Facts that have been added before are known, in whatever order they are added again. -/
theorem addAll_again (p : Problem) {facts again : List Fact} (h : again ⊆ facts) :
    ((p.addAll facts).problem.addAll again).problem = (p.addAll facts).problem := by
  rw [problem_addAll_eq_foldl, problem_addAll_eq_foldl]
  apply foldl_of_absorbs
  intro n hn
  obtain ⟨f, hf, hn⟩ := List.mem_flatMap.mp hn
  exact absorbs_foldl p (List.mem_flatMap.mpr ⟨f, h hf, hn⟩)

theorem addAll_again_promoted :
    let lower : Constraint Value := ⟨.const 0, .lessOrEqual, .var "i"⟩
    let i : Fact := .between (.const 0) (.var "i") (.param "N")
    let j : Fact := .between (.var "i") (.var "j") (.param "N")
    let p : Problem := ⟨[], [lower, lower]⟩
    let facts : List Fact := [.constraint lower, j, i, .range ⟨"j", .var "i", .param "N"⟩]
    [j, .constraint lower, j] ⊆ facts ∧
      ((p.addAll facts).problem.addAll [j, .constraint lower, j]).problem =
        (p.addAll facts).problem := by
  intro lower i j p facts
  have h : [j, .constraint lower, j] ⊆ facts := by decide
  exact ⟨h, addAll_again p h⟩

end LoopBounds.Problem
