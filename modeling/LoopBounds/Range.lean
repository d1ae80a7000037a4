import LoopBounds.Constraint

namespace LoopBounds

/-- The solved half-open interval `low <= name < up`. The bounds are not meant to mention `name`. -/
structure Range where
  name : String
  low : Expr Value
  up : Expr Value
deriving DecidableEq

namespace Range

def lower (r : Range) : Constraint Value :=
  ⟨r.low, .lessOrEqual, .var r.name⟩

def upper (r : Range) : Constraint Value :=
  ⟨.var r.name, .lessThan, r.up⟩

/-- The two constraints that a range settles. -/
def halves (r : Range) : List (Constraint Value) :=
  [r.lower, r.upper]

def render (r : Range) : String :=
  r.low.render ++ " <= " ++ r.name ++ " < " ++ r.up.render

end Range

instance : ToString Range := ⟨Range.render⟩

end LoopBounds
