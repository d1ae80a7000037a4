import LoopBounds.Range

namespace LoopBounds

namespace Expr

variable {κ : Type}

/-- Compound expressions come first, then variables, parameters and constants. -/
def rank : Expr κ → Nat
  | binary .. => 0
  | var _ => 1
  | param _ => 2
  | const _ => 3

/-- Expressions of one kind compare part by part from the left, all others by their kind. -/
def order [Ord κ] : Expr κ → Expr κ → Ordering
  | binary op l r, binary op' l' r' => (compare op op').then ((l.order l').then (r.order r'))
  | var x, var y => compare x y
  | param x, param y => compare x y
  | const j, const k => compare j k
  | a, b => compare a.rank b.rank

instance [Ord κ] : Ord (Expr κ) := ⟨order⟩

end Expr

instance {κ : Type} [Ord κ] : Ord (Constraint κ) where
  compare := compareLex (compareOn Constraint.left)
    (compareLex (compareOn Constraint.op) (compareOn Constraint.right))

instance : Ord Range where
  compare := compareLex (compareOn Range.name)
    (compareLex (compareOn Range.low) (compareOn Range.up))

variable {α : Type} [Ord α]

/-- The items in ascending order with their places, those that compare equal as they were. -/
def ascending (l : List α) : List (α × Nat) :=
  l.zipIdx.mergeSort fun a b => (compare a.1 b.1).isLE

/-- The first item of each class of items that compare equal. -/
def representatives (l : List α) : List α :=
  l.eraseDupsBy fun a b => compare a b == .eq

end LoopBounds
