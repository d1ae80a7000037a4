import LoopBounds.ArithOp
import LoopBounds.CmpOp

namespace LoopBounds.Text

/-- What may stand at the place where a text goes wrong. -/
inductive Expectation where
  | expr
  | var
  | param
  | const
  | endOfText
  | arith (op : ArithOp)
  | compare (op : CmpOp)
deriving DecidableEq

namespace Expectation

def operands : List Expectation :=
  [var, param, const]

def arithOps : List Expectation :=
  ArithOp.all.map arith

def comparisons : List Expectation :=
  [CmpOp.lessOrEqual, .greaterOrEqual, .equal, .lessThan, .greaterThan].map compare

def label : Expectation → String
  | expr => "expr"
  | var => "variable"
  | param => "parameter"
  | const => "constant"
  | endOfText => "EOI"
  | arith .add => "add"
  | arith .subtract => "subtract"
  | arith .multiply => "multiply"
  | compare .lessThan => "less"
  | compare .lessOrEqual => "le"
  | compare .equal => "equal"
  | compare .greaterOrEqual => "ge"
  | compare .greaterThan => "greater"

end Expectation

/-- The items as alternatives: `a`, `a or b`, and from three on `a, b, or c`. -/
def alternatives : List String → String
  | [] => ""
  | [a] => a
  | [a, b] => a ++ " or " ++ b
  | a :: b :: c :: rest =>
    let items := a :: b :: c :: rest
    ", ".intercalate items.dropLast ++ ", or " ++ items.getLastD ""

end LoopBounds.Text
