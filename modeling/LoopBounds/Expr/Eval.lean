import LoopBounds.Expr.Basic

namespace LoopBounds

/-- A variable and a parameter of one name are not the same symbol. -/
structure Valuation where
  var : String → Int
  param : String → Int

def ArithOp.apply : ArithOp → Int → Int → Int
  | add, a, b => a + b
  | subtract, a, b => a - b
  | multiply, a, b => a * b

/-- The exact integer value: words stand for natural numbers and nothing wraps around. -/
def Expr.eval (v : Valuation) : Expr Value → Int
  | binary op l r => op.apply (l.eval v) (r.eval v)
  | var x => v.var x
  | param x => v.param x
  | const k => k.toNat

end LoopBounds
