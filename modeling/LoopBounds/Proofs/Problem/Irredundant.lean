import LoopBounds.Proofs.Problem.Moves
import Mathlib.Data.List.Nodup

namespace LoopBounds

/-- The action states a range while a constraint that it settles is pending. -/
def Action.Overtakes (p : Problem) : Action → Prop
  | add (.range r) => ∃ c ∈ r.halves, c ∈ p.pending
  -- Bounds that solve a range take such a constraint out.
  | _ => False

instance (p : Problem) : (a : Action) → Decidable (a.Overtakes p)
  | .add (.range r) => inferInstanceAs (Decidable (∃ c ∈ r.halves, c ∈ p.pending))
  | .add (.constraint _) => inferInstanceAs (Decidable False)
  | .add (.between ..) => inferInstanceAs (Decidable False)
  | .clear => inferInstanceAs (Decidable False)

theorem nodup_note {α : Type} [DecidableEq α] {l : List α} (h : l.Nodup) (a : α) :
    (note l a).Nodup := by
  by_cases ha : a ∈ l
  · rwa [note_of_mem ha]
  · rw [note_of_not_mem ha, ← List.concat_eq_append]
    exact h.concat ha

namespace Problem

/-- No solved range settles what is pending. -/
def Unsettled (p : Problem) : Prop :=
  ∀ c ∈ p.pending, c ∉ p.settled

def NeverOvertakes (p : Problem) : List Action → Prop
  | [] => True
  | a :: actions => ¬ a.Overtakes p ∧ (p.perform a).problem.NeverOvertakes actions

instance decidableNeverOvertakes (p : Problem) :
    (actions : List Action) → Decidable (p.NeverOvertakes actions)
  | [] => inferInstanceAs (Decidable True)
  | a :: actions =>
    have := (p.perform a).problem.decidableNeverOvertakes actions
    inferInstanceAs (Decidable (_ ∧ _))

variable {p : Problem} {r : Range}

theorem nodup_solved_make (h : p.solved.Nodup) (m : Move) : (p.make m).solved.Nodup := by
  cases m with
  | range r taken => exact nodup_note h r
  | constraint c => rwa [solved_make_constraint]

theorem nodup_pending_make (h : p.pending.Nodup) (m : Move) : (p.make m).pending.Nodup := by
  cases m with
  | range r taken => exact h.filter _
  | constraint c =>
    by_cases hs : c ∈ p.settled
    · rwa [make_of_settled hs]
    · rw [make_of_not_settled hs]
      exact nodup_note h c

theorem Unsettled.make_constraint (h : p.Unsettled) (c : Constraint Value) :
    (p.make (.constraint c)).Unsettled := by
  by_cases hs : c ∈ p.settled
  · rwa [make_of_settled hs]
  · intro d hd
    rw [settled_make_constraint]
    rw [make_of_not_settled hs] at hd
    rcases mem_note.mp hd with hd | rfl
    · exact h d hd
    · exact hs

/-- A range has to take out all of its halves that are pending. -/
theorem Unsettled.make_range_iff (h : p.Unsettled) {taken : List (Constraint Value)}
    {ht : taken ⊆ r.halves} :
    (p.make (.range r taken ht)).Unsettled ↔ ∀ c ∈ r.halves, c ∈ p.pending → c ∈ taken := by
  simp only [Unsettled, mem_pending_make_range, mem_settled_make_range, not_or, and_imp]
  constructor
  · intro hu c hc hp
    by_contra hn
    exact (hu c hp hn).2 hc
  · intro hh c hp hn
    exact ⟨h c hp, fun hc => hn (hh c hc hp)⟩

theorem Unsettled.add (h : p.Unsettled) {f : Fact} (hf : ∀ r, f ≠ .range r) :
    (p.add f).problem.Unsettled := by
  rw [problem_add_eq_foldl]
  apply List.foldlRecOn f.moves make h
  intro q hq m hm
  cases m with
  | constraint c => exact hq.make_constraint c
  | range r taken ht =>
    have htaken := (Fact.range_mem_moves hm).resolve_left (hf r)
    apply hq.make_range_iff.mpr
    intro c hc _
    rwa [htaken]

theorem Unsettled.perform_iff (h : p.Unsettled) (a : Action) :
    (p.perform a).problem.Unsettled ↔ ¬ a.Overtakes p := by
  cases a with
  | clear =>
    apply iff_of_true _ not_false
    exact fun _ hc => nomatch hc
  | add f =>
    cases f with
    | range r =>
      have hr : (p.add (.range r)).problem = p.make (Offer.range r).move :=
        problem_add_eq_foldl p (.range r)
      rw [perform, hr, Offer.move, h.make_range_iff, Action.Overtakes]
      simp only [List.not_mem_nil, not_exists, not_and]
    | constraint c => exact iff_of_true (h.add fun _ hf => nomatch hf) not_false
    | between lower middle upper => exact iff_of_true (h.add fun _ hf => nomatch hf) not_false

/-- What the empty problem has and every move keeps is kept by every action. -/
theorem perform_of_make {P : Problem → Prop} (he : P empty) (hm : ∀ q m, P q → P (q.make m))
    (h : P p) (a : Action) : P (p.perform a).problem := by
  cases a with
  | clear => exact he
  | add f =>
    rw [perform, problem_add_eq_foldl]
    exact List.foldlRecOn f.moves make h fun q hq m _ => hm q m hq

theorem run_of_perform {P : Problem → Prop} (hp : ∀ q a, P q → P (q.perform a).problem)
    (h : P p) (actions : List Action) : P (p.run actions).problem := by
  rw [problem_run]
  exact List.foldlRecOn actions _ h fun q hq a _ => hp q a hq

theorem nodup_solved_perform (h : p.solved.Nodup) (a : Action) :
    (p.perform a).problem.solved.Nodup :=
  perform_of_make (P := fun q => q.solved.Nodup) List.nodup_nil (fun _ m h => nodup_solved_make h m)
    h a

theorem nodup_pending_perform (h : p.pending.Nodup) (a : Action) :
    (p.perform a).problem.pending.Nodup :=
  perform_of_make (P := fun q => q.pending.Nodup) List.nodup_nil
    (fun _ m h => nodup_pending_make h m) h a

theorem nodup_solved_run (h : p.solved.Nodup) (actions : List Action) :
    (p.run actions).problem.solved.Nodup :=
  run_of_perform (P := fun q => q.solved.Nodup) (fun _ a h => nodup_solved_perform h a) h actions

theorem nodup_pending_run (h : p.pending.Nodup) (actions : List Action) :
    (p.run actions).problem.pending.Nodup :=
  run_of_perform (P := fun q => q.pending.Nodup) (fun _ a h => nodup_pending_perform h a) h actions

theorem Unsettled.run (h : p.Unsettled) {actions : List Action} (hn : p.NeverOvertakes actions) :
    (p.run actions).problem.Unsettled := by
  rw [problem_run]
  induction actions generalizing p with
  | nil => exact h
  | cons a actions ih => exact ih ((h.perform_iff a).mpr hn.1) hn.2

/-- No entry occurs twice, and only a stated range leaves pending what it settles. -/
theorem irredundant_unless_overtakes :
    (∀ (p : Problem) (a : Action),
      (p.solved.Nodup → (p.perform a).problem.solved.Nodup) ∧
        (p.pending.Nodup → (p.perform a).problem.pending.Nodup) ∧
        (p.Unsettled → ((p.perform a).problem.Unsettled ↔ ¬ a.Overtakes p))) ∧
      ∀ actions : List Action,
        (empty.run actions).problem.solved.Nodup ∧ (empty.run actions).problem.pending.Nodup ∧
          (empty.NeverOvertakes actions → (empty.run actions).problem.Unsettled) := by
  constructor
  · intro p a
    exact ⟨(nodup_solved_perform · a), (nodup_pending_perform · a), (·.perform_iff a)⟩
  · intro actions
    have hu : empty.Unsettled := fun _ hc => nomatch hc
    have hs : empty.solved.Nodup := List.nodup_nil
    have hp : empty.pending.Nodup := List.nodup_nil
    exact ⟨nodup_solved_run hs actions, nodup_pending_run hp actions, hu.run⟩

/-- A pending half is overtaken by the range itself and taken out by the bounds that solve it. -/
theorem irredundant_unless_overtakes_bounds :
    let lower : Constraint Value := ⟨.const 0, .lessOrEqual, .var "i"⟩
    let i : Range := ⟨"i", .const 0, .param "N"⟩
    let p : Problem := ⟨[], [lower]⟩
    let bounds : Action := .add (.between i.low (.var "i") i.up)
    let actions : List Action := [.add (.constraint lower), bounds, .add (.range i), .clear,
      .add (.range i), .add (.constraint lower)]
    (p.solved.Nodup ∧ p.pending.Nodup ∧ p.Unsettled ∧ Action.Overtakes p (.add (.range i)) ∧
        ¬ (p.perform (.add (.range i))).problem.Unsettled ∧ ¬ bounds.Overtakes p ∧
        (p.perform bounds).problem.Unsettled ∧ (p.perform bounds).problem.solved.Nodup ∧
        (p.perform bounds).problem.pending.Nodup) ∧
      empty.NeverOvertakes actions ∧ (empty.run actions).problem.Unsettled := by
  intro lower i p bounds actions
  have hs : p.solved.Nodup := by decide
  have hp : p.pending.Nodup := by decide
  have hu : p.Unsettled := fun _ _ => List.not_mem_nil
  have ho : Action.Overtakes p (.add (.range i)) := by decide
  have hb : ¬ bounds.Overtakes p := by decide
  have hn : empty.NeverOvertakes actions := by decide
  have hstated := (irredundant_unless_overtakes.1 p (.add (.range i))).2.2 hu
  have hbounds := irredundant_unless_overtakes.1 p bounds
  exact ⟨⟨hs, hp, hu, ho, fun h => hstated.mp h ho, hb, (hbounds.2.2 hu).mpr hb, hbounds.1 hs,
    hbounds.2.1 hp⟩, hn, (irredundant_unless_overtakes.2 actions).2.2 hn⟩

end Problem

end LoopBounds
