namespace LoopBounds

/-- The relation that a constraint asserts between its two sides. -/
inductive CmpOp where
  | lessThan
  | lessOrEqual
  | equal
  | greaterOrEqual
  | greaterThan
deriving DecidableEq, Ord

def CmpOp.all : List CmpOp := [.lessThan, .lessOrEqual, .equal, .greaterOrEqual, .greaterThan]

/-- What a reader of constraints takes for the operator. -/
def CmpOp.spelling : CmpOp → String
  | .lessThan => "<"
  | .lessOrEqual => "<="
  | .equal => "=="
  | .greaterOrEqual => ">="
  | .greaterThan => ">"

/-- What a dump shows for the operator. The two strict orders look alike there. -/
def CmpOp.symbol : CmpOp → String
  | .greaterThan => "<"
  | op => op.spelling

instance : ToString CmpOp := ⟨CmpOp.symbol⟩

end LoopBounds
