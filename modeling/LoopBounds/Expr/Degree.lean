import LoopBounds.Expr.Basic

namespace LoopBounds.Expr

variable {κ : Type}

/-- The degree in the loop variables, parameters counting as coefficients. -/
def degree : Expr κ → Nat
  | binary .multiply l r => l.degree + r.degree
  | binary _ l r => max l.degree r.degree
  | var _ => 1
  | param _ => 0
  | const _ => 0

def parts : Expr κ → List (Expr κ)
  | binary op l r => binary op l r :: (l.parts ++ r.parts)
  | e => [e]

/-- The operators from left to right, as infix text shows them. -/
def ops : Expr κ → List ArithOp
  | binary op l r => l.ops ++ op :: r.ops
  | _ => []

end LoopBounds.Expr
