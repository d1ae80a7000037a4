import LoopBounds.Proofs.Text.Operands
import Mathlib.Algebra.Ring.Nat

namespace LoopBounds

open Text

def failure? {ε α : Type} : Except ε α → Option ε
  | .error x => some x
  | .ok _ => none

section

variable {ε α β γ : Type} {x : Except ε α} {y : Except ε β} {e : ε}

theorem failure?_eq_some_iff : failure? x = some e ↔ x = .error e := by
  cases x with
  | error => simp only [failure?, Option.some.injEq, Except.error.injEq]
  | ok => simp only [failure?, reduceCtorEq]

theorem failure?_eq_none_iff : failure? x = none ↔ ∃ a, x = .ok a := by
  cases x with
  | error => simp only [failure?, reduceCtorEq, exists_false]
  | ok => simp only [failure?, Except.ok.injEq, exists_eq']

theorem failure?_seq (x : Except ε α) (y : Except ε β) (f : α → β → γ) :
    failure? (do
      let a ← x
      let b ← y
      return f a b) = (failure? x).or (failure? y) := by
  cases x with
  | error => rfl
  | ok =>
    cases y with
    | error | ok => rfl

end

variable {w : Expr Numeral} {text : String} {n : Numeral}

namespace Text

theorem Numeral.value?_eq_none_iff : n.value? = none ↔ 2 ^ 64 ≤ n.toNat := by
  rw [value?]
  split
  next h => exact iff_of_false (Option.some_ne_none _) (Nat.not_le.mpr h)
  next h => exact iff_of_true rfl (Nat.not_lt.mp h)

def firstTooLarge? (ns : List Numeral) : Option Numeral :=
  ns.find? (2 ^ 64 ≤ ·.toNat)

theorem firstTooLarge?_append (ns ms : List Numeral) :
    firstTooLarge? (ns ++ ms) = (firstTooLarge? ns).or (firstTooLarge? ms) :=
  List.find?_append

theorem firstTooLarge?_singleton (n : Numeral) :
    firstTooLarge? [n] = if n.value? = none then some n else none := by
  rw [firstTooLarge?, List.find?_singleton]
  simp only [decide_eq_true_eq, Numeral.value?_eq_none_iff]

theorem firstTooLarge?_eq_none_iff {ns : List Numeral} :
    firstTooLarge? ns = none ↔ ∀ n ∈ ns, n.toNat < 2 ^ 64 := by
  simp only [firstTooLarge?, List.find?_eq_none, decide_eq_true_eq, Nat.not_le]

end Text

theorem Expr.failure?_resolve (w : Expr Numeral) :
    failure? w.resolve = firstTooLarge? w.leaves.consts := by
  induction w with
  | binary op l r ihl ihr =>
    rw [resolve, failure?_seq, ihl, ihr, leaves, Leaves.consts_append, firstTooLarge?_append]
  | var | param => rfl
  | const n =>
    rw [resolve, leaves, firstTooLarge?_singleton]
    cases n.value? with
    | none | some => rfl

namespace Text

variable {ts : List Token}

theorem IsSum.failure?_resolve {w : Expr Numeral} (h : IsSum ts w) :
    failure? w.resolve = firstTooLarge? (operands ts).consts := by
  rw [Expr.failure?_resolve, h.spells.leaves]

theorem IsConstraint.failure?_resolve {w : Constraint Numeral} (h : IsConstraint ts w) :
    failure? w.resolve = firstTooLarge? (operands ts).consts := by
  rw [Constraint.resolve, failure?_seq, Expr.failure?_resolve, Expr.failure?_resolve,
    h.operands_eq, Leaves.consts_append, firstTooLarge?_append]

section

variable {α β : Type} {text : List Char} {read : Except Refusal α} {resolve : α → Except Numeral β}
  {Derives : List Token → α → Prop}

theorem outcome_eq_outOfRange_iff :
    outcome text read resolve = .error (.outOfRange n) ↔
      ∃ a, read = .ok a ∧ failure? (resolve a) = some n := by
  simp only [failure?_eq_some_iff]
  cases read with
  | error => simp only [outcome, reduceCtorEq, Except.error.injEq, false_and, exists_false]
  | ok a =>
    simp only [outcome, Except.ok.injEq, exists_eq_left']
    cases resolve a with
    | error => simp only [Except.mapError, Except.error.injEq, ParseError.outOfRange.injEq]
    | ok => simp only [Except.mapError, reduceCtorEq]

theorem exists_outcome_eq_ok_iff :
    (∃ b, outcome text read resolve = .ok b) ↔ ∃ a, read = .ok a ∧ failure? (resolve a) = none := by
  simp only [outcome_eq_ok_iff, failure?_eq_none_iff]
  rw [exists_comm]
  simp only [exists_and_left]

theorem exists_derives_iff (o : Option Numeral)
    (h : ∀ {ts a}, Derives ts a → failure? (resolve a) = firstTooLarge? (operands ts).consts) :
    (∃ a, (∃ ts, Layout text ts ∧ Derives ts a) ∧ failure? (resolve a) = o) ↔
      ∃ ts a, Layout text ts ∧ Derives ts a ∧ firstTooLarge? (operands ts).consts = o := by
  constructor
  · intro ⟨a, ⟨ts, hl, hd⟩, ho⟩
    exact ⟨ts, a, hl, hd, (h hd).symm.trans ho⟩
  · intro ⟨ts, a, hl, hd, ho⟩
    exact ⟨a, ⟨ts, hl, hd⟩, (h hd).trans ho⟩

end

end Text

theorem Expr.parse_eq_outOfRange :
    parse text = .error (.outOfRange n) ↔ ∃ ts w, Layout text.toList ts ∧ IsSum ts w ∧
      firstTooLarge? (operands ts).consts = some n := by
  simp only [parse_eq_outcome, outcome_eq_outOfRange_iff, readExpr_lexemes_iff]
  exact exists_derives_iff (some n) IsSum.failure?_resolve

theorem Expr.exists_parse_eq_ok :
    (∃ e, parse text = .ok e) ↔ ∃ ts w, Layout text.toList ts ∧ IsSum ts w ∧
      firstTooLarge? (operands ts).consts = none := by
  simp only [parse_eq_outcome, exists_outcome_eq_ok_iff, readExpr_lexemes_iff]
  exact exists_derives_iff none IsSum.failure?_resolve

theorem Constraint.parse_eq_outOfRange :
    parse text = .error (.outOfRange n) ↔ ∃ ts w, Layout text.toList ts ∧ IsConstraint ts w ∧
      firstTooLarge? (operands ts).consts = some n := by
  simp only [parse_eq_outcome, outcome_eq_outOfRange_iff, readConstraint_lexemes_iff]
  exact exists_derives_iff (some n) IsConstraint.failure?_resolve

theorem Constraint.exists_parse_eq_ok :
    (∃ c, parse text = .ok c) ↔ ∃ ts w, Layout text.toList ts ∧ IsConstraint ts w ∧
      firstTooLarge? (operands ts).consts = none := by
  simp only [parse_eq_outcome, exists_outcome_eq_ok_iff, readConstraint_lexemes_iff]
  exact exists_derives_iff none IsConstraint.failure?_resolve

/-- Of a well formed text the leftmost numeral that no word can hold is at fault. -/
theorem parse_eq_outOfRange_iff (text : String) :
    (∀ n, Expr.parse text = .error (.outOfRange n) ↔
        ∃ ts w, Layout text.toList ts ∧ IsSum ts w ∧
          firstTooLarge? (operands ts).consts = some n) ∧
      ((∃ e, Expr.parse text = .ok e) ↔
        ∃ ts w, Layout text.toList ts ∧ IsSum ts w ∧
          ∀ n ∈ (operands ts).consts, n.toNat < 2 ^ 64) ∧
      (∀ n, Constraint.parse text = .error (.outOfRange n) ↔
        ∃ ts w, Layout text.toList ts ∧ IsConstraint ts w ∧
          firstTooLarge? (operands ts).consts = some n) ∧
      ((∃ c, Constraint.parse text = .ok c) ↔
        ∃ ts w, Layout text.toList ts ∧ IsConstraint ts w ∧
          ∀ n ∈ (operands ts).consts, n.toNat < 2 ^ 64) := by
  simp only [← firstTooLarge?_eq_none_iff]
  exact ⟨fun _ => Expr.parse_eq_outOfRange, Expr.exists_parse_eq_ok,
    fun _ => Constraint.parse_eq_outOfRange, Constraint.exists_parse_eq_ok⟩

/-- Leading zeros do not make a numeral too large, and one in a comment is never at fault. -/
theorem parse_eq_outOfRange_iff_leftmost :
    let text := "0018446744073709551615 + 018446744073709551616 # 99999999999999999999
      < 18446744073709551617"
    let large : Numeral := ⟨"018446744073709551616".toList⟩
    Constraint.parse text = .error (.outOfRange large) ∧
      ∃ e, Expr.parse "0018446744073709551615 * i" = .ok e := by
  intro text large
  let largest : Numeral := ⟨"0018446744073709551615".toList⟩
  let bound : Constraint Numeral :=
    ⟨.binary .add (.const largest) (.const large), .lessThan,
      .const ⟨"18446744073709551617".toList⟩⟩
  let product : Expr Numeral := .binary .multiply (.const largest) (.var "i")
  obtain ⟨ts, hl, hs⟩ : bound.IsReadingOf text := readConstraint_lexemes_iff.mp (by decide +kernel)
  have hn : firstTooLarge? (operands ts).consts = some large := by
    rw [hs.operands_eq]
    decide
  obtain ⟨us, hk, hp⟩ : product.IsReadingOf "0018446744073709551615 * i" :=
    readExpr_lexemes_iff.mp (by decide +kernel)
  have hu : ∀ n ∈ (operands us).consts, n.toNat < 2 ^ 64 := by
    rw [hp.spells.leaves]
    decide
  exact ⟨((parse_eq_outOfRange_iff text).2.2.1 large).mpr ⟨ts, bound, hl, hs, hn⟩,
    (parse_eq_outOfRange_iff _).2.1.mpr ⟨us, product, hk, hp, hu⟩⟩

end LoopBounds
