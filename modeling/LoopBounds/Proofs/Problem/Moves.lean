import LoopBounds.Proofs.Problem.Steps

namespace LoopBounds

section

variable {α : Type} [DecidableEq α] {l : List α} {a b : α}

/-- The list with the entry at its end, unless the entry is in it already. -/
def note (l : List α) (a : α) : List α :=
  if a ∈ l then l else l ++ [a]

theorem note_of_mem (h : a ∈ l) : note l a = l :=
  if_pos h

theorem note_of_not_mem (h : a ∉ l) : note l a = l ++ [a] :=
  if_neg h

theorem mem_note : b ∈ note l a ↔ b ∈ l ∨ b = a := by
  by_cases h : a ∈ l
  · rw [note_of_mem h]
    refine (or_iff_left_of_imp ?_).symm
    rintro rfl
    exact h
  · rw [note_of_not_mem h, List.mem_append, List.mem_singleton]

theorem mem_removeAll {m : List α} : a ∈ l.removeAll m ↔ a ∈ l ∧ a ∉ m := by
  rw [List.removeAll, List.mem_filter, Bool.not_eq_true', Bool.eq_false_iff, ne_eq,
    List.elem_iff]

end

/-- A range is noted in place of constraints that it settles, or a constraint is noted. -/
inductive Move where
  | range (r : Range) (taken : List (Constraint Value)) (settled : taken ⊆ r.halves)
  | constraint (c : Constraint Value)

def Offer.move : Offer → Move
  | range r => .range r [] (List.nil_subset _)
  | constraint c => .constraint c

def Fact.moves (f : Fact) : List Move :=
  match f.promoted? with
  | some r => [.range r r.halves (List.Subset.refl _)]
  | none => f.offers.map Offer.move

namespace Problem

def make (p : Problem) : Move → Problem
  | .range r taken _ => ⟨note p.solved r, p.pending.removeAll taken⟩
  | .constraint c => (p.offer (.constraint c)).problem

variable {p : Problem} {r : Range} {c : Constraint Value}

theorem make_of_settled (h : c ∈ p.settled) : p.make (.constraint c) = p :=
  (problem_offer_constraint p c).trans (if_pos (.inl h))

theorem make_of_not_settled (h : c ∉ p.settled) :
    p.make (.constraint c) = ⟨p.solved, note p.pending c⟩ := by
  rw [make, problem_offer_constraint]
  by_cases hc : c ∈ p.pending
  · rw [if_pos (.inr hc), note_of_mem hc]
  · rw [if_neg (not_or.mpr ⟨h, hc⟩), note_of_not_mem hc]
    rfl

theorem make_offer_range (p : Problem) (r : Range) :
    p.make (Offer.range r).move = ⟨note p.solved r, p.pending⟩ :=
  congrArg (Problem.mk _) List.removeAll_nil

theorem problem_offer (p : Problem) (o : Offer) : (p.offer o).problem = p.make o.move := by
  cases o with
  | range r =>
    rw [problem_offer_range, make_offer_range, note]
    split <;> rfl
  | constraint c => rfl

theorem problem_promote (p : Problem) (r : Range) :
    (p.promote r).problem = ⟨p.solved, p.pending.removeAll r.halves⟩ := by
  apply congrArg (Problem.mk _)
  apply List.filter_congr
  intro c _
  rw [List.elem_eq_mem, decide_not]

theorem problem_add_eq_foldl (p : Problem) (f : Fact) :
    (p.add f).problem = f.moves.foldl make p := by
  rw [Fact.moves]
  cases h : f.promoted? with
  | some r =>
    rw [problem_add_of_promoted h, problem_offer, make_offer_range, problem_promote]
    rfl
  | none =>
    rw [problem_add_of_not_promoted h, List.foldl_map]
    simp only [problem_offer]

theorem problem_addAll_eq_foldl (p : Problem) (facts : List Fact) :
    (p.addAll facts).problem = (facts.flatMap Fact.moves).foldl make p := by
  rw [problem_addAll, List.foldl_flatMap]
  simp only [problem_add_eq_foldl]

theorem solved_make_constraint (p : Problem) (c : Constraint Value) :
    (p.make (.constraint c)).solved = p.solved := by
  by_cases h : c ∈ p.settled
  · rw [make_of_settled h]
  · rw [make_of_not_settled h]

theorem settled_make_constraint (p : Problem) (c : Constraint Value) :
    (p.make (.constraint c)).settled = p.settled := by
  rw [settled, settled, solved_make_constraint]

theorem mem_settled_make_range {taken : List (Constraint Value)} {h : taken ⊆ r.halves} :
    c ∈ (p.make (.range r taken h)).settled ↔ c ∈ p.settled ∨ c ∈ r.halves := by
  simp only [mem_settled, make, mem_note, or_and_right, exists_or, exists_eq_left]

theorem mem_pending_make_range {taken : List (Constraint Value)} {h : taken ⊆ r.halves} :
    c ∈ (p.make (.range r taken h)).pending ↔ c ∈ p.pending ∧ c ∉ taken :=
  mem_removeAll

end Problem

namespace Fact

variable {f : Fact} {r : Range} {c : Constraint Value}

theorem constraint_mem_moves_iff : .constraint c ∈ f.moves ↔ .constraint c ∈ f.offers := by
  rw [moves]
  cases h : f.promoted? with
  | some r =>
    simp only [offers_of_promoted h, List.mem_singleton, reduceCtorEq]
  | none =>
    rw [List.mem_map]
    constructor
    · rintro ⟨o, ho, hm⟩
      cases o with
      | range => cases hm
      | constraint => cases hm; exact ho
    · intro ho
      exact ⟨_, ho, rfl⟩

theorem eq_range_of_mem_offers (h : f.promoted? = none) (hr : .range r ∈ f.offers) :
    f = .range r := by
  cases f with
  | range s =>
    rw [offers_range, List.mem_singleton] at hr
    cases hr
    rfl
  | constraint c =>
    rw [offers_constraint, List.mem_singleton] at hr
    cases hr
  | between lower middle upper =>
    simp only [offers_between h, List.mem_cons, List.not_mem_nil, reduceCtorEq, or_self] at hr

theorem range_mem_moves {taken : List (Constraint Value)} {h : taken ⊆ r.halves}
    (hm : .range r taken h ∈ f.moves) : f = .range r ∨ taken = r.halves := by
  rw [moves] at hm
  cases hf : f.promoted? with
  | some s =>
    simp only [hf, List.mem_singleton] at hm
    cases hm
    exact .inr rfl
  | none =>
    simp only [hf] at hm
    obtain ⟨o, ho, hm⟩ := List.mem_map.mp hm
    cases o with
    | range s =>
      cases hm
      exact .inl (eq_range_of_mem_offers hf ho)
    | constraint => cases hm

end Fact

end LoopBounds
