import LoopBounds.Problem.Basic
import LoopBounds.Problem.Event
import LoopBounds.Problem.Fact

namespace LoopBounds

/-- A problem and the log of how it came about. -/
structure Update where
  problem : Problem
  events : List Event
deriving DecidableEq

/-- The log goes on with that of the next update. -/
def Update.andThen (u : Update) (next : Problem → Update) : Update :=
  ⟨(next u.problem).problem, u.events ++ (next u.problem).events⟩

namespace Problem

/-- Records an entry at the end of its list unless it is known. -/
def offer (p : Problem) : Offer → Update
  | .range r =>
    if r ∈ p.solved then ⟨p, [.duplicateRange r]⟩
    else ⟨p.pushRange r, []⟩
  | .constraint c =>
    -- That a range settles it is told rather than that it is pending.
    if c ∈ p.settled then ⟨p, [.impliedConstraint c]⟩
    else if c ∈ p.pending then ⟨p, [.duplicateConstraint c]⟩
    else ⟨p.pushConstraint c, []⟩

/-- A range solved from bounds takes the place of its halves. -/
def promote (p : Problem) (r : Range) : Update :=
  ⟨{ p with pending := p.pending.filter (· ∉ r.halves) }, [.solvedFromBounds r]⟩

/-- The state in which the offers of a fact are judged. -/
def prepare (p : Problem) (f : Fact) : Update :=
  match f.promoted? with
  | some r => p.promote r
  | none => ⟨p, []⟩

/-- Judges the offers of a fact, each in the state that the one before has left. -/
def add (p : Problem) (f : Fact) : Update :=
  f.offers.foldl (fun u o => u.andThen (·.offer o)) (p.prepare f)

end Problem

inductive Action where
  | add (f : Fact)
  | clear
deriving DecidableEq

namespace Problem

def perform (p : Problem) : Action → Update
  | .add f => p.add f
  | .clear => ⟨p.clear, []⟩

def run (p : Problem) (actions : List Action) : Update :=
  actions.foldl (fun u a => u.andThen (·.perform a)) ⟨p, []⟩

def addAll (p : Problem) (facts : List Fact) : Update :=
  facts.foldl (fun u f => u.andThen (·.add f)) ⟨p, []⟩

end Problem

end LoopBounds
