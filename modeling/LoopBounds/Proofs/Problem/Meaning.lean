import LoopBounds.Problem.Meaning
import LoopBounds.Proofs.Problem.Steps

namespace LoopBounds

variable {v : Valuation} {p : Problem} {f : Fact} {r : Range}

def Offer.Holds (v : Valuation) : Offer → Prop
  | range r => r.Holds v
  | constraint c => c.Holds v

theorem Range.holds_iff_halves : r.Holds v ↔ ∀ c ∈ r.halves, c.Holds v := by
  simp only [halves, List.forall_mem_cons]
  exact ⟨fun h => ⟨h.1, h.2, fun _ h => nomatch h⟩, fun h => ⟨h.1, h.2.1⟩⟩

theorem Fact.holds_iff_offers : f.Holds v ↔ ∀ o ∈ f.offers, o.Holds v := by
  cases h : f.promoted? with
  | some r =>
    obtain ⟨hf, -, -⟩ := promoted?_eq_some_iff.mp h
    rw [offers_of_promoted h, List.forall_mem_singleton, hf]
    exact Iff.rfl
  | none =>
    cases f with
    | range r =>
      rw [offers_range, List.forall_mem_singleton]
      exact Iff.rfl
    | constraint c =>
      rw [offers_constraint, List.forall_mem_singleton]
      exact Iff.rfl
    | between lower middle upper =>
      rw [offers_between h]
      simp only [List.forall_mem_cons]
      exact ⟨fun h => ⟨h.1, h.2, fun _ h => nomatch h⟩, fun h => ⟨h.1, h.2.1⟩⟩

namespace Problem

theorem holds_pushRange : (p.pushRange r).Holds v ↔ p.Holds v ∧ r.Holds v := by
  simp only [Holds, pushRange, List.forall_mem_append, List.forall_mem_singleton, and_right_comm]

theorem holds_pushConstraint {c : Constraint Value} :
    (p.pushConstraint c).Holds v ↔ p.Holds v ∧ c.Holds v := by
  simp only [Holds, pushConstraint, List.forall_mem_append, List.forall_mem_singleton, and_assoc]

theorem Holds.settled {c : Constraint Value} (h : p.Holds v) (hc : c ∈ p.settled) : c.Holds v := by
  obtain ⟨r, hr, hc⟩ := mem_settled.mp hc
  exact Range.holds_iff_halves.mp (h.1 r hr) c hc

/-- What is skipped follows from what has been recorded. -/
theorem holds_offer (p : Problem) (o : Offer) (v : Valuation) :
    (p.offer o).problem.Holds v ↔ p.Holds v ∧ o.Holds v := by
  cases o with
  | range r =>
    rw [offer]
    split
    next hr => exact (and_iff_left_of_imp fun h => h.1 r hr).symm
    next => exact holds_pushRange
  | constraint c =>
    rw [offer]
    split
    next hc => exact (and_iff_left_of_imp fun h => h.settled hc).symm
    next =>
      split
      next hc => exact (and_iff_left_of_imp fun h => h.2 c hc).symm
      next => exact holds_pushConstraint

theorem holds_foldl_offer (p : Problem) (offers : List Offer) (v : Valuation) :
    (offers.foldl (fun p o => (p.offer o).problem) p).Holds v ↔
      p.Holds v ∧ ∀ o ∈ offers, o.Holds v := by
  induction offers generalizing p with
  | nil => exact (and_iff_left fun _ h => nomatch h).symm
  | cons o offers ih => rw [List.foldl_cons, ih, holds_offer, List.forall_mem_cons, and_assoc]

/-- What a promotion takes out follows from the range that it puts in. -/
theorem holds_promote (p : Problem) (r : Range) (v : Valuation) :
    (p.promote r).problem.Holds v ∧ r.Holds v ↔ p.Holds v ∧ r.Holds v := by
  simp only [and_congr_left_iff]
  intro hr
  have hp : (∀ c ∈ p.pending.filter (· ∉ r.halves), c.Holds v) ↔ ∀ c ∈ p.pending, c.Holds v := by
    simp only [List.mem_filter, decide_eq_true_eq, and_imp]
    constructor
    · intro h c hc
      by_cases hh : c ∈ r.halves
      · exact Range.holds_iff_halves.mp hr c hh
      · exact h c hc hh
    · intro h c hc _
      exact h c hc
  exact and_congr_right fun _ => hp

theorem holds_add (p : Problem) (f : Fact) (v : Valuation) :
    (p.add f).problem.Holds v ↔ p.Holds v ∧ f.Holds v := by
  rw [Fact.holds_iff_offers]
  cases h : f.promoted? with
  | some r =>
    rw [problem_add_of_promoted h, Fact.offers_of_promoted h, holds_offer,
      List.forall_mem_singleton]
    exact holds_promote p r v
  | none => rw [problem_add_of_not_promoted h, holds_foldl_offer]

/-- Nothing is lost and nothing is made up, whatever is skipped or taken out on the way. -/
theorem holds_addAll (p : Problem) (facts : List Fact) (v : Valuation) :
    (p.addAll facts).problem.Holds v ↔ p.Holds v ∧ ∀ f ∈ facts, f.Holds v := by
  rw [problem_addAll]
  induction facts generalizing p with
  | nil => exact (and_iff_left fun _ h => nomatch h).symm
  | cons f facts ih => rw [List.foldl_cons, ih, holds_add, List.forall_mem_cons, and_assoc]

end Problem

end LoopBounds
