namespace LoopBounds

inductive ArithOp where
  | add
  | subtract
  | multiply
deriving DecidableEq, Ord

def ArithOp.all : List ArithOp := [.add, .subtract, .multiply]

def ArithOp.symbol : ArithOp → String
  | .add => "+"
  | .subtract => "-"
  | .multiply => "*"

instance : ToString ArithOp := ⟨ArithOp.symbol⟩

end LoopBounds
