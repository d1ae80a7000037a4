import LoopBounds.Proofs.Order.Precedence
import Mathlib.Data.Finset.Card

namespace LoopBounds

section

variable {α : Type} [Ord α] {l m : List α}

theorem ascending_perm (l : List α) : ((ascending l).map Prod.fst).Perm l := by
  have h := (List.mergeSort_perm l.zipIdx fun a b => (compare a.1 b.1).isLE).map Prod.fst
  rwa [List.zipIdx_map_fst] at h

theorem ascending_pairwise [Std.TransOrd α] (l : List α) :
    ((ascending l).map Prod.fst).Pairwise fun a b => (compare a b).isLE := by
  rw [List.pairwise_map]
  apply List.pairwise_mergeSort
  · intro a b c hab hbc
    exact Std.TransCmp.isLE_trans hab hbc
  · intro a b
    rw [Std.OrientedOrd.eq_swap (a := b.1)]
    cases compare a.1 b.1 <;> rfl

variable [Std.LawfulEqOrd α]

/-- Items that compare equal are equal, so that there is only one way to put them in order. -/
theorem ascending_eq_of_perm [Std.TransOrd α] (h : l.Perm m) :
    (ascending l).map Prod.fst = (ascending m).map Prod.fst := by
  apply List.Perm.eq_of_pairwise ?_ (ascending_pairwise l) (ascending_pairwise m)
  · exact (ascending_perm l).trans (h.trans (ascending_perm m).symm)
  · intro a b _ _ hab hba
    exact Std.LawfulEqOrd.eq_of_compare (Std.OrientedCmp.isLE_antisymm hab hba)

theorem representatives_cons [DecidableEq α] (a : α) (l : List α) :
    representatives (a :: l) = a :: representatives (l.filter (· ≠ a)) := by
  have h (b : α) : ((compare b a == .eq) = false) ↔ b ≠ a := by
    rw [beq_eq_false_iff_ne, ne_eq, Std.compare_eq_iff_eq]
  simp only [representatives, List.eraseDupsBy_cons, h]

theorem length_representatives [DecidableEq α] (l : List α) :
    (representatives l).length = l.toFinset.card := by
  -- The items after the first that differ from it are fewer, but no part of the list.
  induction h : l.length using Nat.strong_induction_on generalizing l with
  | _ n ih =>
    cases l with
    | nil => rfl
    | cons a l =>
      have hl : (l.filter (· ≠ a)).length < n := by
        rw [← h]
        exact Nat.lt_succ_of_le (List.length_filter_le _ l)
      have hs : (a :: l).toFinset = insert a (l.filter (· ≠ a)).toFinset := by
        ext b
        by_cases hb : b = a <;> simp [hb]
      have ha : a ∉ (l.filter (· ≠ a)).toFinset := by simp
      rw [representatives_cons, List.length_cons, ih _ hl _ rfl, hs,
        Finset.card_insert_of_notMem ha]

end

/-- Different items come in the order of `precedes`, and there is one way to sort. -/
structure IsTotalOrder (α : Type) [Ord α] [DecidableEq α] (precedes : α → α → Prop) : Prop where
  lt_iff : ∀ a b : α, compare a b = .lt ↔ precedes a b
  eq_iff : ∀ a b : α, compare a b = .eq ↔ a = b
  swap : ∀ a b : α, compare b a = (compare a b).swap
  lt_trans : ∀ a b c : α, compare a b = .lt → compare b c = .lt → compare a c = .lt
  ascending_perm : ∀ l : List α, ((ascending l).map Prod.fst).Perm l
  ascending_pairwise : ∀ l : List α,
    ((ascending l).map Prod.fst).Pairwise fun a b => (compare a b).isLE
  ascending_eq : ∀ l m : List α, l.Perm m →
    (ascending l).map Prod.fst = (ascending m).map Prod.fst
  length_representatives : ∀ l : List α, (representatives l).length = l.toFinset.card

theorem isTotalOrder_of_lt_iff {α : Type} [Ord α] [Std.TransOrd α] [Std.LawfulEqOrd α]
    [DecidableEq α] {precedes : α → α → Prop} (h : ∀ a b : α, compare a b = .lt ↔ precedes a b) :
    IsTotalOrder α precedes where
  lt_iff := h
  eq_iff _ _ := Std.compare_eq_iff_eq
  swap _ _ := Std.OrientedOrd.eq_swap
  lt_trans _ _ _ := Std.TransCmp.lt_trans
  ascending_perm := ascending_perm
  ascending_pairwise := ascending_pairwise
  ascending_eq _ _ := ascending_eq_of_perm
  length_representatives := length_representatives

/-- No two expressions, constraints or ranges that differ are left without an order. -/
theorem order_isTotal :
    IsTotalOrder (Expr Value) Expr.Precedes ∧ IsTotalOrder (Constraint Value) Constraint.Precedes ∧
      IsTotalOrder Range Range.Precedes :=
  ⟨isTotalOrder_of_lt_iff Expr.compare_eq_lt_iff,
    isTotalOrder_of_lt_iff Constraint.compare_eq_lt_iff,
    isTotalOrder_of_lt_iff Range.compare_eq_lt_iff⟩

end LoopBounds
