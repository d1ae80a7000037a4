import LoopBounds.Name
import LoopBounds.Problem.Basic

namespace LoopBounds

def Expr.WellNamed {κ : Type} : Expr κ → Prop
  | binary _ l r => l.WellNamed ∧ r.WellNamed
  | var x => IsName x
  | param x => IsName x
  | const _ => True

def Constraint.WellNamed {κ : Type} (c : Constraint κ) : Prop :=
  c.left.WellNamed ∧ c.right.WellNamed

def Range.WellNamed (r : Range) : Prop :=
  IsName r.name ∧ r.low.WellNamed ∧ r.up.WellNamed

def Problem.WellNamed (p : Problem) : Prop :=
  (∀ r ∈ p.solved, r.WellNamed) ∧ ∀ c ∈ p.pending, c.WellNamed

instance Expr.decidableWellNamed {κ : Type} : (e : Expr κ) → Decidable e.WellNamed
  | binary _ l r =>
    have := l.decidableWellNamed
    have := r.decidableWellNamed
    inferInstanceAs (Decidable (_ ∧ _))
  | var x => inferInstanceAs (Decidable (IsName x))
  | param x => inferInstanceAs (Decidable (IsName x))
  | const _ => inferInstanceAs (Decidable True)

instance {κ : Type} (c : Constraint κ) : Decidable c.WellNamed :=
  inferInstanceAs (Decidable (_ ∧ _))

instance (r : Range) : Decidable r.WellNamed :=
  inferInstanceAs (Decidable (_ ∧ _))

instance (p : Problem) : Decidable p.WellNamed :=
  inferInstanceAs (Decidable (_ ∧ _))

end LoopBounds
