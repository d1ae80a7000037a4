import LoopBounds.Order
import Mathlib.Order.Compare

namespace LoopBounds

theorem ArithOp.compare_eq_idxOf (a b : ArithOp) :
    compare a b = compare (all.idxOf a) (all.idxOf b) := by
  cases a <;> cases b <;> rfl

theorem CmpOp.compare_eq_idxOf (a b : CmpOp) :
    compare a b = compare (all.idxOf a) (all.idxOf b) := by
  cases a <;> cases b <;> rfl

section

variable {α β γ : Type} [Ord α] [Ord β] [Ord γ] [Std.LawfulEqOrd α] [Std.LawfulEqOrd β]
  {a a' : α} {b b' : β} {c c' : γ}

theorem then_then_eq_eq_iff [Std.LawfulEqOrd γ] :
    (compare a a').then ((compare b b').then (compare c c')) = .eq ↔
      a = a' ∧ b = b' ∧ c = c' := by
  rw [Ordering.then_eq_eq, Ordering.then_eq_eq, Std.compare_eq_iff_eq, Std.compare_eq_iff_eq,
    Std.compare_eq_iff_eq]

theorem then_then_eq_lt_iff :
    (compare a a').then ((compare b b').then (compare c c')) = .lt ↔
      compare a a' = .lt ∨ a = a' ∧ (compare b b' = .lt ∨ b = b' ∧ compare c c' = .lt) := by
  rw [Ordering.then_eq_lt, Ordering.then_eq_lt, Std.compare_eq_iff_eq, Std.compare_eq_iff_eq]

end

theorem transCmp_of_lt_trans {α : Type} {cmp : α → α → Ordering} [Std.OrientedCmp cmp]
    [Std.LawfulEqCmp cmp]
    (h : ∀ {a b c}, cmp a b = .lt → cmp b c = .lt → cmp a c = .lt) : Std.TransCmp cmp where
  isLE_trans {a b c} hab hbc := by
    rcases Ordering.isLE_iff_eq_lt_or_eq_eq.mp hab with hab | hab
    · rcases Ordering.isLE_iff_eq_lt_or_eq_eq.mp hbc with hbc | hbc
      · rw [h hab hbc]
        rfl
      · rw [← Std.LawfulEqCmp.eq_of_compare hbc, hab]
        rfl
    · rwa [Std.LawfulEqCmp.eq_of_compare hab]

theorem transOrd_of_compare_eq {α : Type} [Ord α] {place : α → Nat}
    (h : ∀ a b : α, compare a b = compare (place a) (place b)) : Std.TransOrd α := by
  have hc : (compare : α → α → Ordering) = compareOn place := by
    funext a b
    exact h a b
  rw [Std.TransOrd, hc]
  infer_instance

instance : Std.TransOrd ArithOp :=
  transOrd_of_compare_eq ArithOp.compare_eq_idxOf

instance : Std.LawfulEqOrd ArithOp where
  compare_self {a} := by cases a <;> rfl
  eq_of_compare {a b} h := by cases a <;> cases b <;> trivial

instance : Std.TransOrd CmpOp :=
  transOrd_of_compare_eq CmpOp.compare_eq_idxOf

instance : Std.LawfulEqOrd CmpOp where
  compare_self {a} := by cases a <;> rfl
  eq_of_compare {a b} h := by cases a <;> cases b <;> trivial

namespace Expr

variable {a b c : Expr Value}

/-- Of two expressions of one kind the first part in which they differ decides. -/
inductive Precedes : Expr Value → Expr Value → Prop
  | kind {a b : Expr Value} (h : a.rank < b.rank) : Precedes a b
  | op {op op' : ArithOp} {l r l' r' : Expr Value}
      (h : ArithOp.all.idxOf op < ArithOp.all.idxOf op') :
      Precedes (binary op l r) (binary op' l' r')
  | left {op : ArithOp} {l r l' r' : Expr Value} (h : Precedes l l') :
      Precedes (binary op l r) (binary op l' r')
  | right {op : ArithOp} {l r r' : Expr Value} (h : Precedes r r') :
      Precedes (binary op l r) (binary op l r')
  | var {x y : String} (h : x < y) : Precedes (var x) (var y)
  | param {x y : String} (h : x < y) : Precedes (param x) (param y)
  | const {j k : Value} (h : j < k) : Precedes (const j) (const k)

theorem Precedes.rank_le (h : a.Precedes b) : a.rank ≤ b.rank := by
  cases h with
  | kind h => exact Nat.le_of_lt h
  | op | left | right | var | param | const => exact Nat.le_refl _

theorem Precedes.trans (hab : a.Precedes b) (hbc : b.Precedes c) : a.Precedes c := by
  induction hab generalizing c with
  | kind h => exact .kind (Nat.lt_of_lt_of_le h hbc.rank_le)
  | op h =>
    cases hbc with
    | kind h' => exact .kind h'
    | op h' => exact .op (Nat.lt_trans h h')
    | left => exact .op h
    | right => exact .op h
  | left h ih =>
    cases hbc with
    | kind h' => exact .kind h'
    | op h' => exact .op h'
    | left h' => exact .left (ih h')
    | right => exact .left h
  | right h ih =>
    cases hbc with
    | kind h' => exact .kind h'
    | op h' => exact .op h'
    | left h' => exact .left h'
    | right h' => exact .right (ih h')
  | var h =>
    cases hbc with
    | kind h' => exact .kind h'
    | var h' => exact .var (String.lt_trans h h')
  | param h =>
    cases hbc with
    | kind h' => exact .kind h'
    | param h' => exact .param (String.lt_trans h h')
  | const h =>
    cases hbc with
    | kind h' => exact .kind h'
    | const h' => exact .const (UInt64.lt_trans h h')

theorem precedes_binary_iff {op op' : ArithOp} {l r l' r' : Expr Value} :
    (binary op l r).Precedes (binary op' l' r') ↔
      ArithOp.all.idxOf op < ArithOp.all.idxOf op' ∨
        op = op' ∧ (l.Precedes l' ∨ l = l' ∧ r.Precedes r') := by
  constructor
  · intro h
    cases h with
    | kind h => exact absurd h (Nat.lt_irrefl _)
    | op h => exact .inl h
    | left h => exact .inr ⟨rfl, .inl h⟩
    | right h => exact .inr ⟨rfl, .inr ⟨rfl, h⟩⟩
  · rintro (h | ⟨rfl, h | ⟨rfl, h⟩⟩)
    · exact .op h
    · exact .left h
    · exact .right h

theorem precedes_var_iff {x y : String} : (var x).Precedes (var y) ↔ x < y := by
  constructor
  · intro h
    cases h with
    | kind h => exact absurd h (Nat.lt_irrefl _)
    | var h => exact h
  · exact .var

theorem precedes_param_iff {x y : String} : (param x).Precedes (param y) ↔ x < y := by
  constructor
  · intro h
    cases h with
    | kind h => exact absurd h (Nat.lt_irrefl _)
    | param h => exact h
  · exact .param

theorem precedes_const_iff {j k : Value} : (const j).Precedes (const k) ↔ j < k := by
  constructor
  · intro h
    cases h with
    | kind h => exact absurd h (Nat.lt_irrefl _)
    | const h => exact h
  · exact .const

theorem precedes_iff_of_rank_ne (h : a.rank ≠ b.rank) : a.Precedes b ↔ a.rank < b.rank := by
  constructor
  · intro hp
    exact Nat.lt_of_le_of_ne hp.rank_le h
  · exact .kind

/-- Two expressions are of different kinds, or their parts can be compared. -/
@[elab_as_elim]
theorem pair_induction {motive : Expr Value → Expr Value → Prop}
    (binary : ∀ op l r op' l' r', motive l l' → motive r r' →
      motive (.binary op l r) (.binary op' l' r'))
    (var : ∀ x y, motive (.var x) (.var y))
    (param : ∀ x y, motive (.param x) (.param y))
    (const : ∀ j k, motive (.const j) (.const k))
    (kind : ∀ a b, a.rank ≠ b.rank → motive a b) (a b : Expr Value) : motive a b := by
  induction a generalizing b with
  | binary op l r ihl ihr =>
    cases b with
    | binary op' l' r' => exact binary op l r op' l' r' (ihl l') (ihr r')
    | var | param | const => exact kind _ _ (by simp [rank])
  | var x =>
    cases b with
    | var y => exact var x y
    | binary | param | const => exact kind _ _ (by simp [rank])
  | param x =>
    cases b with
    | param y => exact param x y
    | binary | var | const => exact kind _ _ (by simp [rank])
  | const j =>
    cases b with
    | const k => exact const j k
    | binary | var | param => exact kind _ _ (by simp [rank])

theorem compare_binary {op op' : ArithOp} {l r l' r' : Expr Value} :
    compare (binary op l r) (binary op' l' r') =
      (compare op op').then ((compare l l').then (compare r r')) := rfl

theorem compare_var {x y : String} : compare (α := Expr Value) (var x) (var y) = compare x y := rfl

theorem compare_param {x y : String} :
    compare (α := Expr Value) (param x) (param y) = compare x y := rfl

theorem compare_const {j k : Value} :
    compare (α := Expr Value) (const j) (const k) = compare j k := rfl

theorem compare_of_rank_ne (h : a.rank ≠ b.rank) : compare a b = compare a.rank b.rank := by
  change a.order b = _
  rw [order.eq_def]
  split
  next => exact absurd rfl h
  next => exact absurd rfl h
  next => exact absurd rfl h
  next => exact absurd rfl h
  next => rfl

theorem compare_eq_iff (a b : Expr Value) : compare a b = .eq ↔ a = b := by
  induction a, b using pair_induction with
  | binary op l r op' l' r' ihl ihr =>
    rw [compare_binary, Ordering.then_eq_eq, Ordering.then_eq_eq, Std.compare_eq_iff_eq, ihl, ihr,
      binary.injEq]
  | var x y => rw [compare_var, Std.compare_eq_iff_eq, var.injEq]
  | param x y => rw [compare_param, Std.compare_eq_iff_eq, param.injEq]
  | const j k => rw [compare_const, Std.compare_eq_iff_eq, const.injEq]
  | kind a b h =>
    rw [compare_of_rank_ne h, Nat.compare_eq_eq]
    exact iff_of_false h fun he => h (congrArg rank he)

theorem compare_eq_swap (a b : Expr Value) : compare a b = (compare b a).swap := by
  induction a, b using pair_induction with
  | binary op l r op' l' r' ihl ihr =>
    rw [compare_binary, compare_binary, Ordering.swap_then, Ordering.swap_then, ← ihl, ← ihr,
      ← Std.OrientedOrd.eq_swap]
  | var x y => exact Std.OrientedOrd.eq_swap (α := String)
  | param x y => exact Std.OrientedOrd.eq_swap (α := String)
  | const j k => exact Std.OrientedOrd.eq_swap (α := Value)
  | kind a b h =>
    rw [compare_of_rank_ne h, compare_of_rank_ne (Ne.symm h)]
    exact Std.OrientedOrd.eq_swap

instance : Std.LawfulEqOrd (Expr Value) where
  compare_self {a} := (compare_eq_iff a a).mpr rfl
  eq_of_compare {a b} := (compare_eq_iff a b).mp

instance : Std.OrientedOrd (Expr Value) where
  eq_swap {a b} := compare_eq_swap a b

theorem compare_eq_lt_iff (a b : Expr Value) : compare a b = .lt ↔ a.Precedes b := by
  induction a, b using pair_induction with
  | binary op l r op' l' r' ihl ihr =>
    rw [compare_binary, then_then_eq_lt_iff, ihl, ihr, ArithOp.compare_eq_idxOf,
      Nat.compare_eq_lt, precedes_binary_iff]
  | var x y => exact compareOfLessAndEq_eq_lt.trans precedes_var_iff.symm
  | param x y => exact compareOfLessAndEq_eq_lt.trans precedes_param_iff.symm
  | const j k => exact compareOfLessAndEq_eq_lt.trans precedes_const_iff.symm
  | kind a b h => rw [compare_of_rank_ne h, Nat.compare_eq_lt, precedes_iff_of_rank_ne h]

instance : Std.TransOrd (Expr Value) := by
  apply transCmp_of_lt_trans
  intro a b c hab hbc
  rw [compare_eq_lt_iff] at hab hbc ⊢
  exact hab.trans hbc

end Expr

/-- The left sides decide, then the operators in their order, and the right sides last. -/
inductive Constraint.Precedes : Constraint Value → Constraint Value → Prop
  | left {l r l' r' : Expr Value} {op op' : CmpOp} (h : l.Precedes l') :
      Precedes ⟨l, op, r⟩ ⟨l', op', r'⟩
  | op {l r r' : Expr Value} {op op' : CmpOp} (h : CmpOp.all.idxOf op < CmpOp.all.idxOf op') :
      Precedes ⟨l, op, r⟩ ⟨l, op', r'⟩
  | right {l r r' : Expr Value} {op : CmpOp} (h : r.Precedes r') :
      Precedes ⟨l, op, r⟩ ⟨l, op, r'⟩

/-- The names decide, then the lower bounds, and the upper bounds last. -/
inductive Range.Precedes : Range → Range → Prop
  | name {x y : String} {low up low' up' : Expr Value} (h : x < y) :
      Precedes ⟨x, low, up⟩ ⟨y, low', up'⟩
  | low {x : String} {low up low' up' : Expr Value} (h : low.Precedes low') :
      Precedes ⟨x, low, up⟩ ⟨x, low', up'⟩
  | up {x : String} {low up up' : Expr Value} (h : up.Precedes up') :
      Precedes ⟨x, low, up⟩ ⟨x, low, up'⟩

namespace Constraint

theorem compare_eq_then (c d : Constraint Value) :
    compare c d =
      (compare c.left d.left).then ((compare c.op d.op).then (compare c.right d.right)) := rfl

instance : Std.LawfulEqOrd (Constraint Value) where
  compare_self {c} := then_then_eq_eq_iff.mpr ⟨rfl, rfl, rfl⟩
  eq_of_compare {c d} h := by
    rw [compare_eq_then, then_then_eq_eq_iff, ← mk.injEq] at h
    exact h

instance : Std.TransOrd (Constraint Value) :=
  inferInstanceAs (Std.TransCmp (compareLex (compareOn Constraint.left)
    (compareLex (compareOn Constraint.op) (compareOn Constraint.right))))

theorem compare_eq_lt_iff (c d : Constraint Value) : compare c d = .lt ↔ c.Precedes d := by
  rw [compare_eq_then, then_then_eq_lt_iff, Expr.compare_eq_lt_iff, Expr.compare_eq_lt_iff,
    CmpOp.compare_eq_idxOf, Nat.compare_eq_lt]
  obtain ⟨l, op, r⟩ := c
  obtain ⟨l', op', r'⟩ := d
  constructor
  · rintro (h | ⟨rfl, h | ⟨rfl, h⟩⟩)
    · exact .left h
    · exact .op h
    · exact .right h
  · intro h
    cases h with
    | left h => exact .inl h
    | op h => exact .inr ⟨rfl, .inl h⟩
    | right h => exact .inr ⟨rfl, .inr ⟨rfl, h⟩⟩

end Constraint

namespace Range

theorem compare_eq_then (r s : Range) :
    compare r s = (compare r.name s.name).then ((compare r.low s.low).then (compare r.up s.up)) :=
  rfl

instance : Std.LawfulEqOrd Range where
  compare_self {r} := then_then_eq_eq_iff.mpr ⟨rfl, rfl, rfl⟩
  eq_of_compare {r s} h := by
    rw [compare_eq_then, then_then_eq_eq_iff, ← mk.injEq] at h
    exact h

instance : Std.TransOrd Range :=
  inferInstanceAs (Std.TransCmp (compareLex (compareOn Range.name)
    (compareLex (compareOn Range.low) (compareOn Range.up))))

theorem compare_eq_lt_iff (r s : Range) : compare r s = .lt ↔ r.Precedes s := by
  have hname : compare r.name s.name = .lt ↔ r.name < s.name := compareOfLessAndEq_eq_lt
  rw [compare_eq_then, then_then_eq_lt_iff, Expr.compare_eq_lt_iff, Expr.compare_eq_lt_iff, hname]
  obtain ⟨x, low, up⟩ := r
  obtain ⟨y, low', up'⟩ := s
  constructor
  · rintro (h | ⟨rfl, h | ⟨rfl, h⟩⟩)
    · exact .name h
    · exact .low h
    · exact .up h
  · intro h
    cases h with
    | name h => exact .inl h
    | low h => exact .inr ⟨rfl, .inl h⟩
    | up h => exact .inr ⟨rfl, .inr ⟨rfl, h⟩⟩

end Range

end LoopBounds
