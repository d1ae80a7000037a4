import LoopBounds.Text.Reader

namespace LoopBounds.Text

/-- A refusal as it is shown, with line and column counted from one. -/
structure Report where
  line : Nat
  column : Nat
  source : List Char
  expected : List Expectation
deriving DecidableEq

def lastLine (text : List Char) : List Char :=
  (text.reverse.takeWhile (· != '\n')).reverse

def firstLine (text : List Char) : List Char :=
  text.takeWhile (· != '\n')

def withoutReturns (line : List Char) : List Char :=
  line.filter (· != '\r')

/-- Carriage returns count for the column, though the line is shown without them. -/
def Refusal.report (text : List Char) (r : Refusal) : Report :=
  let before := text.take (text.length - r.here.length)
  { line := before.count '\n' + 1
    column := (lastLine before).length + 1
    source := withoutReturns (lastLine before ++ firstLine r.here)
    expected := r.expected }

namespace Report

/-- Leads the eye to the column under the source line, whose tabs it repeats. -/
def pointer (r : Report) : List Char :=
  (r.source.take (r.column - 1)).map (fun c => if c = '\t' then '\t' else ' ') ++ "^---".toList

def message (r : Report) : String :=
  let number := r.line.repr
  let gutter := "".pushn ' ' number.length
  "\n".intercalate
    [ gutter ++ "--> " ++ number ++ ":" ++ r.column.repr,
      gutter ++ " |",
      number ++ " | " ++ .ofList r.source,
      gutter ++ " | " ++ .ofList r.pointer,
      gutter ++ " |",
      gutter ++ " = expected " ++ alternatives (r.expected.map Expectation.label) ]

end Report

end LoopBounds.Text
