import LoopBounds.Constraint
import LoopBounds.Text.Expectation
import LoopBounds.Text.Lexeme

namespace LoopBounds.Text

/-- What stands left of an operand: a sum or difference, then a product, either without its end. -/
structure Pending where
  sum : Option (Expr Numeral × ArithOp)
  product : Option (Expr Numeral)
deriving DecidableEq

namespace Pending

def empty : Pending := ⟨none, none⟩

def closeProduct (p : Pending) (factor : Expr Numeral) : Expr Numeral :=
  match p.product with
  | none => factor
  | some e => .binary .multiply e factor

/-- The whole expression, which ends with the given operand. -/
def close (p : Pending) (operand : Expr Numeral) : Expr Numeral :=
  match p.sum with
  | none => p.closeProduct operand
  | some (e, op) => .binary op e (p.closeProduct operand)

/-- A sum takes in all that stands before it, so that equal ranks group to the left. -/
def push (p : Pending) (operand : Expr Numeral) : ArithOp → Pending
  | .multiply => ⟨p.sum, some (p.closeProduct operand)⟩
  | op => ⟨some (p.close operand, op), none⟩

end Pending

/-- An expression read in part, and what stands before each open parenthesis, innermost first. -/
inductive Reader where
  | operand (outer : List Pending) (pending : Pending)
  | operator (outer : List Pending) (pending : Pending) (last : Expr Numeral)
deriving DecidableEq

/-- What follows an expression outside all parentheses. -/
inductive Ending where
  | endOfText
  | comparison
deriving DecidableEq

def Ending.expected : Ending → List Expectation
  | endOfText => .endOfText :: Expectation.arithOps
  | comparison => Expectation.arithOps ++ Expectation.comparisons

namespace Reader

def start : Reader :=
  operand [] .empty

/-- Takes in one token, unless it cannot stand here. -/
def step : Reader → Token → Option Reader
  | operand outer p, .numeral n => some (operator outer p (.const n))
  | operand outer p, .param x => some (operator outer p (.param x))
  | operand outer p, .var x => some (operator outer p (.var x))
  | operand outer p, .opening => some (operand (p :: outer) .empty)
  | operator outer p e, .arith op => some (operand outer (p.push e op))
  | operator (q :: outer) p e, .closing => some (operator outer q (p.close e))
  | _, _ => none

/-- Takes in tokens up to the first that cannot stand in its place. -/
def run (r : Reader) : List Lexeme → Reader × List Lexeme
  | [] => (r, [])
  | l :: ls =>
    match r.step l.token with
    | some next => next.run ls
    | none => (r, l :: ls)

/-- The expression that was read, if none of it is missing. -/
def result? : Reader → Option (Expr Numeral)
  | operator [] p e => some (p.close e)
  | _ => none

/-- A missing parenthesis is never expected: only what may stand before it is. -/
def expected (ending : Ending) : Reader → List Expectation
  | operand _ p => if p = .empty then [.expr] else Expectation.operands
  | operator [] _ _ => ending.expected
  | operator (_ :: _) _ _ => Expectation.arithOps

end Reader

/-- The text from the place where it goes wrong, and what could have stood there. -/
structure Refusal where
  here : List Char
  expected : List Expectation
deriving DecidableEq

def Reader.refusal (r : Reader) (rest : List Lexeme) (ending : Ending) : Refusal :=
  ⟨remaining rest, r.expected ending⟩

def readExpr (tokens : List Lexeme) : Except Refusal (Expr Numeral) :=
  let (r, rest) := Reader.start.run tokens
  match rest, r.result? with
  | [], some e => .ok e
  | _, _ => .error (r.refusal rest .endOfText)

/-- The left side ends at a comparison outside all parentheses. -/
def readConstraint (tokens : List Lexeme) : Except Refusal (Constraint Numeral) :=
  let (r, rest) := Reader.start.run tokens
  match rest, r.result? with
  | ⟨.compare op, _⟩ :: right, some left => (readExpr right).map fun e => ⟨left, op, e⟩
  | _, _ => .error (r.refusal rest .comparison)

end LoopBounds.Text
