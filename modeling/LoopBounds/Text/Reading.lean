import LoopBounds.Text.Report

namespace LoopBounds

open Text

/-- The range of the constants is looked at only once the whole text is well formed. -/
inductive ParseError where
  | unexpected (report : Report)
  | outOfRange (literal : Numeral)
deriving DecidableEq

def ParseError.message : ParseError → String
  | unexpected report => "Syntax error: " ++ report.message
  | outOfRange literal => "Constant out of range: " ++ .ofList literal.digits

instance : ToString ParseError := ⟨ParseError.message⟩

/-- Reads the numerals of an expression. The leftmost that no word can hold is at fault. -/
def Expr.resolve : Expr Numeral → Except Numeral (Expr Value)
  | binary op l r => do
    let left ← l.resolve
    let right ← r.resolve
    return binary op left right
  | var x => .ok (var x)
  | param x => .ok (param x)
  | const n =>
    match n.value? with
    | some k => .ok (const k)
    | none => .error n

def Constraint.resolve (c : Constraint Numeral) : Except Numeral (Constraint Value) := do
  let left ← c.left.resolve
  let right ← c.right.resolve
  return ⟨left, c.op, right⟩

/-- Multiplication binds tighter than the others, and all three group to the left. -/
def Expr.parse (text : String) : Except ParseError (Expr Value) :=
  match readExpr (lexemes text.toList) with
  | .error refusal => .error (.unexpected (refusal.report text.toList))
  | .ok written => written.resolve.mapError .outOfRange

/-- Reads two expressions with one of `<`, `<=`, `==`, `>=` and `>` between them. -/
def Constraint.parse (text : String) : Except ParseError (Constraint Value) :=
  match readConstraint (lexemes text.toList) with
  | .error refusal => .error (.unexpected (refusal.report text.toList))
  | .ok written => written.resolve.mapError .outOfRange

end LoopBounds
