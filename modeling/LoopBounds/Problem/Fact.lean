import LoopBounds.Range

namespace LoopBounds

/-- What an analysis can tell about the bounds of a loop. -/
inductive Fact where
  | range (r : Range)
  | constraint (c : Constraint Value)
  | between (lower middle upper : Expr Value)
deriving DecidableEq

/-- An entry of one of the two lists of a problem that a fact proposes. -/
inductive Offer where
  | range (r : Range)
  | constraint (c : Constraint Value)
deriving DecidableEq

namespace Fact

/-- Bounds that no loop changes solve the range of a variable between them. -/
def promoted? : Fact → Option Range
  | between lower (.var x) upper =>
    if lower.isInvariant && upper.isInvariant then some ⟨x, lower, upper⟩ else none
  | _ => none

def offers (f : Fact) : List Offer :=
  match f.promoted?, f with
  | some r, _ => [.range r]
  | none, range r => [.range r]
  | none, constraint c => [.constraint c]
  | none, between lower middle upper =>
    [.constraint ⟨lower, .lessOrEqual, middle⟩, .constraint ⟨middle, .lessThan, upper⟩]

end Fact

end LoopBounds
