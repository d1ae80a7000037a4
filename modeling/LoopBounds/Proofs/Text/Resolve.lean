import LoopBounds.Text.Reading
import LoopBounds.WellNamed

namespace LoopBounds

def Expr.map {κ μ : Type} (f : κ → μ) : Expr κ → Expr μ
  | binary op l r => binary op (l.map f) (r.map f)
  | var x => var x
  | param x => param x
  | const k => const (f k)

def Constraint.map {κ μ : Type} (f : κ → μ) (c : Constraint κ) : Constraint μ :=
  ⟨c.left.map f, c.op, c.right.map f⟩

open Text

variable {κ μ : Type} {w : Expr Numeral} {e : Expr Value}

theorem Expr.map_map {ν : Type} (f : κ → μ) (g : μ → ν) (e : Expr κ) :
    (e.map f).map g = e.map (g ∘ f) := by
  induction e with
  | binary op l r ihl ihr => simp only [map, ihl, ihr]
  | var | param | const => rfl

theorem Expr.wellNamed_map (f : κ → μ) (e : Expr κ) : (e.map f).WellNamed ↔ e.WellNamed := by
  induction e with
  | binary op l r ihl ihr => exact and_congr ihl ihr
  | var | param | const => exact Iff.rfl

/-- A numeral has a value if its number fits, and then it is that number. -/
theorem Text.Numeral.value?_eq_some_iff {n : Numeral} {k : Value} :
    n.value? = some k ↔ n.toNat = k.toNat := by
  rw [value?]
  split
  next h =>
    rw [Option.some.injEq, ← UInt64.toNat_inj, UInt64.toNat_ofNat_of_lt' h]
  next h =>
    refine iff_of_false (fun h => nomatch h) ?_
    intro he
    exact h (he ▸ k.toNat_lt)

theorem bind_eq_ok_iff {ε α β : Type} {x : Except ε α} {f : α → Except ε β} {b : β} :
    x >>= f = .ok b ↔ ∃ a, x = .ok a ∧ f a = .ok b := by
  cases x with
  | error => exact iff_of_false (fun h => nomatch h) (fun ⟨_, h, _⟩ => nomatch h)
  | ok a =>
    constructor
    · intro h
      exact ⟨a, rfl, h⟩
    · rintro ⟨_, ⟨⟩, h⟩
      exact h

theorem Expr.resolve_binary_eq_ok_iff {op : ArithOp} {l r : Expr Numeral} :
    (binary op l r).resolve = .ok e ↔
      ∃ l', l.resolve = .ok l' ∧ ∃ r', r.resolve = .ok r' ∧ binary op l' r' = e := by
  simp only [resolve, bind_eq_ok_iff, pure, Except.pure, Except.ok.injEq]

theorem Expr.resolve_const_eq_ok_iff {n : Numeral} :
    (const n).resolve = .ok e ↔ ∃ k : Value, n.toNat = k.toNat ∧ const k = e := by
  simp only [← Numeral.value?_eq_some_iff, resolve]
  split
  next k h => simp only [h, Option.some.injEq, exists_eq_left', Except.ok.injEq]
  next h => simp only [h, reduceCtorEq, false_and, exists_false]

/-- Resolving keeps the tree and the numbers that its constants stand for. -/
theorem Expr.resolve_eq_ok_iff :
    w.resolve = .ok e ↔ w.map Numeral.toNat = e.map UInt64.toNat := by
  induction w generalizing e with
  | binary op l r ihl ihr =>
    simp only [resolve_binary_eq_ok_iff, ihl, ihr]
    constructor
    · rintro ⟨l', hl, r', hr, rfl⟩
      simp only [map, hl, hr]
    · intro h
      cases e with
      | binary op' l' r' =>
        obtain ⟨rfl, hl, hr⟩ := binary.inj h
        exact ⟨l', hl, r', hr, rfl⟩
      | var | param | const => cases h
  | var x => cases e <;> simp only [resolve, map, Except.ok.injEq, var.injEq, reduceCtorEq]
  | param x => cases e <;> simp only [resolve, map, Except.ok.injEq, param.injEq, reduceCtorEq]
  | const n =>
    rw [resolve_const_eq_ok_iff]
    cases e <;> simp only [map, const.injEq, exists_eq_right, reduceCtorEq, and_false, exists_false]

theorem Constraint.resolve_eq_ok_iff {w : Constraint Numeral} {c : Constraint Value} :
    w.resolve = .ok c ↔ w.map Numeral.toNat = c.map UInt64.toNat := by
  obtain ⟨l, op, r⟩ := w
  obtain ⟨l', op', r'⟩ := c
  simp only [resolve, bind_eq_ok_iff, Expr.resolve_eq_ok_iff, pure, Except.pure, Except.ok.injEq,
    map, mk.injEq]
  constructor
  · rintro ⟨_, hl, _, hr, rfl, rfl, rfl⟩
    exact ⟨hl, rfl, hr⟩
  · rintro ⟨hl, rfl, hr⟩
    exact ⟨l', hl, r', hr, rfl, rfl, rfl⟩

end LoopBounds
