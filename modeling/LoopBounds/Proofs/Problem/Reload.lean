import LoopBounds.Proofs.Problem.Dump
import LoopBounds.Proofs.Problem.History
import LoopBounds.Proofs.Problem.Irredundant
import LoopBounds.Proofs.Text.ConstraintRoundTrip

namespace LoopBounds

section

variable {α : Type} [DecidableEq α] {l m : List α}

theorem foldl_note_nil (l : List α) : l.foldl note [] = l.eraseDups := by
  induction l using List.reverseRecOn with
  | nil => rfl
  | append_singleton l a ih =>
    rw [List.foldl_append, ih, List.foldl_cons, List.foldl_nil, note, eraseDups_append_singleton]
    simp only [List.mem_eraseDups]

theorem foldl_note_of_nodup (h : (l ++ m).Nodup) : m.foldl note l = l ++ m := by
  induction m generalizing l with
  | nil => rw [List.foldl_nil, List.append_nil]
  | cons a m ih =>
    have ha : a ∉ l := fun hl => List.disjoint_of_nodup_append h hl List.mem_cons_self
    rw [List.append_cons] at h ⊢
    rw [List.foldl_cons, note_of_not_mem ha]
    exact ih h

theorem eraseDups_of_nodup (h : l.Nodup) : l.eraseDups = l :=
  (foldl_note_nil l).symm.trans (foldl_note_of_nodup (l := []) h)

end

namespace Problem

def addText (p : Problem) (text : String) : Except ParseError Problem := do
  let c ← Constraint.parse text
  return (p.add (.constraint c)).problem

/-- Builds the problem anew from its ranges and then from the text of its constraints. -/
def reload (p : Problem) : Except ParseError Problem :=
  (p.pending.map Constraint.render).foldlM addText (empty.addAll (p.solved.map .range)).problem

variable {p : Problem} {c : Constraint Value} {cs : List (Constraint Value)}

theorem problem_addAll_ranges (p : Problem) (rs : List Range) :
    (p.addAll (rs.map .range)).problem = ⟨rs.foldl note p.solved, p.pending⟩ := by
  rw [problem_addAll, List.foldl_map]
  induction rs generalizing p with
  | nil => rfl
  | cons r rs ih =>
    have hr : (p.add (.range r)).problem = ⟨note p.solved r, p.pending⟩ :=
      (problem_add_eq_foldl p (.range r)).trans (make_offer_range p r)
    rw [List.foldl_cons, ih, hr, List.foldl_cons]

/-- No constraint changes what is settled, so that all of them are judged by the same ranges. -/
theorem problem_addAll_constraints (p : Problem) (cs : List (Constraint Value)) :
    (p.addAll (cs.map .constraint)).problem =
      ⟨p.solved, (cs.filter (· ∉ p.settled)).foldl note p.pending⟩ := by
  rw [problem_addAll, List.foldl_map]
  induction cs generalizing p with
  | nil => rfl
  | cons c cs ih =>
    have hc : (p.add (.constraint c)).problem = p.make (.constraint c) :=
      problem_add_eq_foldl p (.constraint c)
    rw [List.foldl_cons, ih, hc]
    by_cases hs : c ∈ p.settled
    · rw [make_of_settled hs, List.filter_cons_of_neg (by simpa using hs)]
    · rw [make_of_not_settled hs, List.filter_cons_of_pos (by simpa using hs)]
      rfl

theorem addText_render (h : c.WellNamed) :
    p.addText c.render = .ok (p.add (.constraint c.shown)).problem := by
  rw [addText, h.parse_render]
  rfl

theorem foldlM_addText_render (h : ∀ c ∈ cs, c.WellNamed) :
    (cs.map Constraint.render).foldlM addText p =
      .ok (p.addAll ((cs.map Constraint.shown).map .constraint)).problem := by
  rw [problem_addAll]
  induction cs generalizing p with
  | nil => rfl
  | cons c cs ih =>
    have ⟨hc, hcs⟩ := List.forall_mem_cons.mp h
    rw [List.map_cons, List.foldlM_cons, addText_render hc]
    exact ih hcs

theorem WellNamed.reload_eq (h : p.WellNamed) :
    p.reload = .ok ⟨p.solved.eraseDups,
      ((p.pending.map Constraint.shown).filter (· ∉ p.settled)).eraseDups⟩ := by
  have hs : ∀ c, c ∈ settled ⟨p.solved.eraseDups, []⟩ ↔ c ∈ p.settled := by
    intro c
    simp only [mem_settled, List.mem_eraseDups]
  rw [reload, foldlM_addText_render h.2, problem_addAll_ranges, problem_addAll_constraints, empty,
    foldl_note_nil, foldl_note_nil]
  simp only [hs]

theorem WellNamed.reload_eq_self (h : p.WellNamed) (hs : p.solved.Nodup) (hp : p.pending.Nodup)
    (hu : p.Unsettled) (hop : ∀ c ∈ p.pending, c.op ≠ .greaterThan) : p.reload = .ok p := by
  have hshown : p.pending.map Constraint.shown = p.pending :=
    congrArg Problem.pending (shown_of_no_greaterThan hop)
  have hfilter : p.pending.filter (· ∉ p.settled) = p.pending := by
    apply List.filter_eq_self.mpr
    intro c hc
    exact decide_eq_true (hu c hc)
  rw [h.reload_eq, hshown, hfilter, eraseDups_of_nodup hs, eraseDups_of_nodup hp]

theorem neverOvertakes_of_notMem {actions : List Action} (h : ∀ r, .add (.range r) ∉ actions) :
    p.NeverOvertakes actions := by
  induction actions generalizing p with
  | nil => trivial
  | cons a actions ih =>
    refine ⟨?_, ih fun r hr => h r (List.mem_cons_of_mem a hr)⟩
    intro ha
    cases a with
    | clear => exact ha
    | add f =>
      cases f with
      | range r => exact h r List.mem_cons_self
      | constraint c => exact ha
      | between lower middle upper => exact ha

/-- A problem built anew has lost what was known twice, and means what was shown. -/
theorem reload_eq_shown (h : p.WellNamed) :
    p.reload = .ok ⟨p.solved.eraseDups,
        ((p.pending.map Constraint.shown).filter (· ∉ p.settled)).eraseDups⟩ ∧
      ∀ actions : List Action, (∀ r, .add (.range r) ∉ actions) →
        p = (empty.run actions).problem → (∀ c ∈ p.pending, c.op ≠ .greaterThan) →
          p.reload = .ok p := by
  refine ⟨h.reload_eq, ?_⟩
  intro actions hr he hop
  have hs : p.solved.Nodup := by
    rw [he]
    exact nodup_solved_run List.nodup_nil actions
  have hp : p.pending.Nodup := by
    rw [he]
    exact nodup_pending_run List.nodup_nil actions
  have hempty : empty.Unsettled := fun _ hc => nomatch hc
  have hu : p.Unsettled := by
    rw [he]
    exact hempty.run (neverOvertakes_of_notMem hr)
  exact h.reload_eq_self hs hp hu hop

theorem reload_eq_shown_strict :
    let i : Range := ⟨"i", .const 0, .param "N"⟩
    let above (e f : Expr Value) : Constraint Value := ⟨e, .greaterThan, f⟩
    let below (e f : Expr Value) : Constraint Value := ⟨e, .lessThan, f⟩
    let p : Problem := ⟨[i, i], [above (.var "j") (.const 3), above (.var "i") (.param "N"),
      below (.var "j") (.const 3), i.lower]⟩
    let bounds : Action := .add (.between i.low (.var "i") i.up)
    let actions : List Action :=
      [.add (.constraint i.lower), .add (.constraint (below (.var "j") (.var "i"))), bounds]
    let q : Problem := (empty.run actions).problem
    (p.WellNamed ∧ p.reload = .ok ⟨[i], [below (.var "j") (.const 3)]⟩) ∧
      q.WellNamed ∧ q.reload = .ok q := by
  intro i above below p bounds actions q
  have hp : p.WellNamed := by decide +kernel
  have hq : q.WellNamed := by decide +kernel
  have hr : ∀ r, .add (.range r) ∉ actions := by
    intro r
    simp only [actions, bounds, List.mem_cons, List.not_mem_nil, Action.add.injEq, reduceCtorEq,
      or_self, not_false_eq_true]
  have hpr := (reload_eq_shown hp).1
  exact ⟨⟨hp, hpr⟩, hq, (reload_eq_shown hq).2 actions hr rfl (by decide)⟩

end Problem

end LoopBounds
