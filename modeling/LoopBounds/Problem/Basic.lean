import LoopBounds.Range

namespace LoopBounds

/-- What is known about the bounds: the solved ranges and the constraints still pending. -/
structure Problem where
  solved : List Range
  pending : List (Constraint Value)
deriving DecidableEq

namespace Problem

def empty : Problem := ⟨[], []⟩

def isEmpty (p : Problem) : Bool :=
  p.solved.isEmpty && p.pending.isEmpty

def clear (_ : Problem) : Problem :=
  empty

def pushRange (p : Problem) (r : Range) : Problem :=
  { p with solved := p.solved ++ [r] }

def pushConstraint (p : Problem) (c : Constraint Value) : Problem :=
  { p with pending := p.pending ++ [c] }

def settled (p : Problem) : List (Constraint Value) :=
  p.solved.flatMap Range.halves

/-- The length of the line of dashes that ends a dump. -/
def ruleWidth : Nat := 60

def lines (p : Problem) : List String :=
  "ranges:" :: p.solved.map Range.render
    ++ "constraints:" :: p.pending.map Constraint.render
    ++ ["".pushn '-' ruleWidth]

/-- The dump: every line of it is ended by a line feed. -/
def render (p : Problem) : String :=
  String.join (p.lines.map fun line => line ++ "\n")

end Problem

instance : ToString Problem := ⟨Problem.render⟩

end LoopBounds
