import LoopBounds.Range

namespace LoopBounds

/-- What is worth a line in the log while facts are added to a problem. -/
inductive Event where
  | solvedFromBounds (r : Range)
  | duplicateRange (r : Range)
  | impliedConstraint (c : Constraint Value)
  | duplicateConstraint (c : Constraint Value)
deriving DecidableEq

/-- How much detail a reader of the log has to ask for. -/
inductive Level where
  | debug
  | trace
deriving DecidableEq

namespace Event

def level : Event → Level
  | solvedFromBounds _ => .debug
  | _ => .trace

def message : Event → String
  | solvedFromBounds _ => "solved range from bounds"
  | duplicateRange _ => "skipping duplicate range"
  | impliedConstraint _ => "constraint implied by a solved range"
  | duplicateConstraint _ => "skipping duplicate constraint"

/-- The name under which the log shows what the event is about. -/
def field : Event → String
  | solvedFromBounds _ => "range"
  | duplicateRange _ => "range"
  | impliedConstraint _ => "constraint"
  | duplicateConstraint _ => "constraint"

def rendered : Event → String
  | solvedFromBounds r => r.render
  | duplicateRange r => r.render
  | impliedConstraint c => c.render
  | duplicateConstraint c => c.render

end Event

end LoopBounds
