import LoopBounds.Expr.Eval
import LoopBounds.Problem.Update

namespace LoopBounds

def CmpOp.Holds : CmpOp → Int → Int → Prop
  | lessThan, a, b => a < b
  | lessOrEqual, a, b => a ≤ b
  | equal, a, b => a = b
  | greaterOrEqual, a, b => a ≥ b
  | greaterThan, a, b => a > b

def Constraint.Holds (v : Valuation) (c : Constraint Value) : Prop :=
  c.op.Holds (c.left.eval v) (c.right.eval v)

def Range.Holds (v : Valuation) (r : Range) : Prop :=
  r.low.eval v ≤ v.var r.name ∧ v.var r.name < r.up.eval v

def Problem.Holds (v : Valuation) (p : Problem) : Prop :=
  (∀ r ∈ p.solved, r.Holds v) ∧ ∀ c ∈ p.pending, c.Holds v

def Fact.Holds (v : Valuation) : Fact → Prop
  | range r => r.Holds v
  | constraint c => c.Holds v
  | between lower middle upper =>
    lower.eval v ≤ middle.eval v ∧ middle.eval v < upper.eval v

end LoopBounds
