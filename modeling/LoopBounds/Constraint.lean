import LoopBounds.CmpOp
import LoopBounds.Expr.Basic

namespace LoopBounds

/-- The assertion that `op` holds between two expressions. -/
structure Constraint (κ : Type) where
  left : Expr κ
  op : CmpOp
  right : Expr κ
deriving DecidableEq

def Constraint.render (c : Constraint Value) : String :=
  c.left.render ++ " " ++ c.op.symbol ++ " " ++ c.right.render

instance : ToString (Constraint Value) := ⟨Constraint.render⟩

end LoopBounds
