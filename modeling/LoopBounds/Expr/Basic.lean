import LoopBounds.ArithOp

namespace LoopBounds

/-- Constants are unsigned words. No arithmetic is ever done on the words themselves. -/
abbrev Value := UInt64

/-- Arithmetic over loop variables and parameters, with constants of type `κ`. -/
inductive Expr (κ : Type) where
  | binary (op : ArithOp) (left right : Expr κ)
  | var (name : String)
  | param (name : String)
  | const (value : κ)
deriving DecidableEq

namespace Expr

variable {κ : Type}

def isBinary : Expr κ → Bool
  | binary .. => true
  | _ => false

def isVar : Expr κ → Bool
  | var _ => true
  | _ => false

def isParam : Expr κ → Bool
  | param _ => true
  | _ => false

def isConst : Expr κ → Bool
  | const _ => true
  | _ => false

def isSymbol (e : Expr κ) : Bool :=
  e.isVar || e.isParam

/-- No loop variable occurs, so the value is the same in every iteration. -/
def isInvariant : Expr κ → Bool
  | binary _ l r => l.isInvariant && r.isInvariant
  | var _ => false
  | param _ => true
  | const _ => true

/-- One factor of each product is invariant: the expression is linear in the variables. -/
def isAffine : Expr κ → Bool
  | binary .multiply l r => (l.isAffine && r.isInvariant) || (r.isAffine && l.isInvariant)
  | binary _ l r => l.isAffine && r.isAffine
  | _ => true

/-- A sum or a difference at the root. -/
def isSum : Expr κ → Bool
  | binary .multiply _ _ => false
  | binary _ _ _ => true
  | _ => false

/-- A leaf, or a product of leaves. -/
def isMonomial : Expr κ → Bool
  | binary .multiply l r => l.isMonomial && r.isMonomial
  | binary _ _ _ => false
  | _ => true

end Expr

/-- The leaves of an expression by kind, each kind from left to right and with repetitions. -/
structure Leaves (κ : Type) where
  consts : List κ
  params : List String
  vars : List String
deriving DecidableEq

namespace Leaves

variable {κ : Type}

instance : Append (Leaves κ) where
  append a b :=
    ⟨a.consts ++ b.consts, a.params ++ b.params, a.vars ++ b.vars⟩

@[simp] theorem consts_append (a b : Leaves κ) :
    (a ++ b).consts = a.consts ++ b.consts := rfl

@[simp] theorem params_append (a b : Leaves κ) :
    (a ++ b).params = a.params ++ b.params := rfl

@[simp] theorem vars_append (a b : Leaves κ) :
    (a ++ b).vars = a.vars ++ b.vars := rfl

end Leaves

def Expr.leaves {κ : Type} : Expr κ → Leaves κ
  | binary _ l r => l.leaves ++ r.leaves
  | var x => ⟨[], [], [x]⟩
  | param x => ⟨[], [x], []⟩
  | const k => ⟨[k], [], []⟩

/-- Infix text in which every compound expression has its parentheses. -/
def Expr.render : Expr Value → String
  | binary op l r => "(" ++ l.render ++ op.symbol ++ r.render ++ ")"
  | var x => x
  | param x => "$" ++ x
  | const k => k.toNat.repr

instance : ToString (Expr Value) := ⟨Expr.render⟩

end LoopBounds
