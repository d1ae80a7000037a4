import LoopBounds.Expr.Degree
import LoopBounds.Proofs.Text.Composition

namespace LoopBounds

namespace Leaves

variable {κ μ : Type}

def map (f : κ → μ) (l : Leaves κ) : Leaves μ :=
  ⟨l.consts.map f, l.params, l.vars⟩

def size (l : Leaves κ) : Nat :=
  l.consts.length + l.params.length + l.vars.length

theorem map_append (f : κ → μ) (a b : Leaves κ) : (a ++ b).map f = a.map f ++ b.map f :=
  congrArg (Leaves.mk · _ _) List.map_append

theorem append_nil (a : Leaves κ) : a ++ ⟨[], [], []⟩ = a := by
  cases a with
  | mk consts params vars =>
    change mk (consts ++ []) (params ++ []) (vars ++ []) = _
    simp only [List.append_nil]

theorem size_append (a b : Leaves κ) : (a ++ b).size = a.size + b.size := by
  simp only [size, consts_append, params_append, vars_append, List.length_append]
  omega

end Leaves

namespace Expr

variable {κ μ : Type}

theorem leaves_map (f : κ → μ) (e : Expr κ) : (e.map f).leaves = e.leaves.map f := by
  induction e with
  | binary op l r ihl ihr => rw [map, leaves, leaves, ihl, ihr, Leaves.map_append]
  | var | param | const => rfl

theorem ops_map (f : κ → μ) (e : Expr κ) : (e.map f).ops = e.ops := by
  induction e with
  | binary op l r ihl ihr => rw [map, ops, ops, ihl, ihr]
  | var | param | const => rfl

theorem size_leaves (e : Expr κ) : e.leaves.size = e.ops.length + 1 := by
  induction e with
  | binary op l r ihl ihr =>
    rw [leaves, Leaves.size_append, ihl, ihr, ops, List.length_append, List.length_cons]
    omega
  | var | param | const => rfl

end Expr

namespace Text

namespace Token

def numeral? : Token → Option Numeral
  | numeral n => some n
  | _ => none

def param? : Token → Option String
  | param x => some x
  | _ => none

def var? : Token → Option String
  | var x => some x
  | _ => none

def arith? : Token → Option ArithOp
  | arith op => some op
  | _ => none

end Token

/-- The operands among the tokens by kind, each kind from left to right and with repetitions. -/
def operands (ts : List Token) : Leaves Numeral :=
  ⟨ts.filterMap Token.numeral?, ts.filterMap Token.param?, ts.filterMap Token.var?⟩

def operators (ts : List Token) : List ArithOp :=
  ts.filterMap Token.arith?

variable {ts us : List Token} {a b w : Expr Numeral}

theorem operands_append (ts us : List Token) :
    operands (ts ++ us) = operands ts ++ operands us := by
  simp only [operands, List.filterMap_append]
  rfl

theorem operators_append (ts us : List Token) :
    operators (ts ++ us) = operators ts ++ operators us :=
  List.filterMap_append

/-- The tokens spell out the leaves and the operators of the expression in their order. -/
structure Spells (ts : List Token) (w : Expr Numeral) : Prop where
  leaves : operands ts = w.leaves
  ops : operators ts = w.ops

theorem Spells.binary (ha : Spells ts a) (hb : Spells us b) (op : ArithOp) :
    Spells (ts ++ .arith op :: us) (.binary op a b) where
  leaves := by
    have hu : operands (.arith op :: us) = operands us := rfl
    rw [operands_append, hu, ha.leaves, hb.leaves, Expr.leaves]
  ops := by
    have hu : operators (.arith op :: us) = op :: operators us := rfl
    rw [operators_append, hu, ha.ops, hb.ops, Expr.ops]

theorem Spells.parens (h : Spells ts w) : Spells (.opening :: ts ++ [.closing]) w where
  leaves := by
    have ht : operands (.opening :: ts) = operands ts := rfl
    have hc : operands [.closing] = ⟨[], [], []⟩ := rfl
    rw [operands_append, ht, hc, Leaves.append_nil, h.leaves]
  ops := by
    have ht : operators (.opening :: ts) = operators ts := rfl
    have hc : operators [.closing] = [] := rfl
    rw [operators_append, ht, hc, List.append_nil, h.ops]

-- By induction on the derivation: however it groups the tokens, an operator stands between its two
-- operands, and parentheses add neither.
mutual

theorem IsSum.spells {ts : List Token} {w : Expr Numeral} : IsSum ts w → Spells ts w
  | .product h => IsProduct.spells h
  | .add ha hb => (IsSum.spells ha).binary (IsProduct.spells hb) .add
  | .subtract ha hb => (IsSum.spells ha).binary (IsProduct.spells hb) .subtract

theorem IsProduct.spells {ts : List Token} {w : Expr Numeral} : IsProduct ts w → Spells ts w
  | .factor h => IsFactor.spells h
  | .multiply ha hb => (IsProduct.spells ha).binary (IsFactor.spells hb) .multiply

theorem IsFactor.spells {ts : List Token} {w : Expr Numeral} : IsFactor ts w → Spells ts w
  | .numeral _ => ⟨rfl, rfl⟩
  | .param _ => ⟨rfl, rfl⟩
  | .var _ => ⟨rfl, rfl⟩
  | .parens h => (IsSum.spells h).parens

end

theorem IsConstraint.operands_eq {ts : List Token} {c : Constraint Numeral}
    (h : IsConstraint ts c) : operands ts = c.left.leaves ++ c.right.leaves := by
  cases h with | @compare ts us a b op ha hb
  have hu : operands (.compare op :: us) = operands us := rfl
  rw [operands_append, hu, ha.spells.leaves, hb.spells.leaves]

end Text

open Text

variable {text : String}

/-- The tokens show the leaves and operators of the expression, numerals by their numbers. -/
structure Expr.IsSpelledBy (e : Expr Value) (ts : List Token) : Prop where
  leaves : (operands ts).map Numeral.toNat = e.leaves.map UInt64.toNat
  ops : operators ts = e.ops
  size : (operands ts).size = (operators ts).length + 1

theorem Expr.isSpelledBy_of_parse {e : Expr Value} (h : parse text = .ok e) :
    e.IsSpelledBy (tokens text.toList) := by
  obtain ⟨w, hw, he⟩ := parse_eq_ok_iff.mp h
  have hs := (isSum_tokens_iff.mpr hw).spells
  have hleaves := congrArg Expr.leaves he
  have hops := congrArg Expr.ops he
  rw [leaves_map, leaves_map] at hleaves
  rw [ops_map, ops_map] at hops
  exact ⟨hs.leaves ▸ hleaves, hs.ops ▸ hops, by rw [hs.leaves, hs.ops, size_leaves]⟩

theorem Expr.layout_tokens_of_parse {e : Expr Value} (h : parse text = .ok e) :
    Layout text.toList (tokens text.toList) := by
  obtain ⟨w, hw⟩ := valid_expr_iff.mp (.of_eq_ok h)
  exact layout_tokens hw.stray_notMem

theorem Constraint.exists_isConstraint_of_parse {c : Constraint Value} (h : parse text = .ok c) :
    ∃ w, IsConstraint (tokens text.toList) w := by
  obtain ⟨w, hw, -⟩ := parse_eq_ok_iff.mp h
  exact ⟨w, isConstraint_tokens_iff.mpr hw⟩

theorem Constraint.tokens_of_parse {c : Constraint Value} {l r : String}
    (h : parse text = .ok c) (ht : text = l ++ c.op.spelling ++ r)
    (hl : Expr.parse l = .ok c.left) (hr : Expr.parse r = .ok c.right) :
    tokens text.toList = tokens l.toList ++ .compare c.op :: tokens r.toList := by
  obtain ⟨w, hw⟩ := exists_isConstraint_of_parse h
  obtain ⟨a, ha⟩ := valid_expr_iff.mp (.of_eq_ok hl)
  obtain ⟨b, hb⟩ := valid_expr_iff.mp (.of_eq_ok hr)
  rw [ht, toList_sides] at hw ⊢
  obtain ⟨ls, hm, hls⟩ := hw.exists_lexemes ha hb
  rw [tokens, hls, List.map_append, hm]
  rfl

/-- Reading keeps every operand and every operator in its place. -/
theorem parse_keeps_operands :
    (∀ text e, Expr.parse text = .ok e →
      Layout text.toList (tokens text.toList) ∧ e.IsSpelledBy (tokens text.toList)) ∧
      ∀ text c, Constraint.parse text = .ok c →
        Layout text.toList (tokens text.toList) ∧ ∃ l r, text = l ++ c.op.spelling ++ r ∧
          tokens text.toList = tokens l.toList ++ .compare c.op :: tokens r.toList ∧
          Expr.parse l = .ok c.left ∧ c.left.IsSpelledBy (tokens l.toList) ∧
          Expr.parse r = .ok c.right ∧ c.right.IsSpelledBy (tokens r.toList) := by
  constructor
  · intro text e h
    exact ⟨Expr.layout_tokens_of_parse h, Expr.isSpelledBy_of_parse h⟩
  · intro text c h
    obtain ⟨w, hw⟩ := Constraint.exists_isConstraint_of_parse h
    obtain ⟨l, r, ht, hl, hr⟩ := Constraint.exists_parse_sides h
    exact ⟨layout_tokens hw.stray_notMem, l, r, ht, Constraint.tokens_of_parse h ht hl hr, hl,
      Expr.isSpelledBy_of_parse hl, hr, Expr.isSpelledBy_of_parse hr⟩

theorem parse_keeps_operands_commented :
    let text := "007 * (i # - j\n - $N) - i"
    let e : Expr Value := .binary .subtract
      (.binary .multiply (.const 7) (.binary .subtract (.var "i") (.param "N"))) (.var "i")
    let bound := "2 * (i) # <\n>= $N"
    Expr.parse text = .ok e ∧ e.IsSpelledBy (tokens text.toList) ∧
      operators (tokens text.toList) = [.multiply, .subtract, .subtract] ∧
      ∃ l r, bound = l ++ ">=" ++ r ∧
        (Expr.binary .multiply (.const 2) (.var "i")).IsSpelledBy (tokens l.toList) ∧
        (Expr.param "N").IsSpelledBy (tokens r.toList) := by
  intro text e bound
  have h : Expr.parse text = .ok e := by decide +kernel
  have hb : Constraint.parse bound = .ok
      ⟨.binary .multiply (.const 2) (.var "i"), .greaterOrEqual, .param "N"⟩ := by
    decide +kernel
  have hs := (parse_keeps_operands.1 text e h).2
  obtain ⟨-, l, r, ht, -, -, hl, -, hr⟩ := parse_keeps_operands.2 bound _ hb
  exact ⟨h, hs, hs.ops, l, r, ht, hl, hr⟩

end LoopBounds
