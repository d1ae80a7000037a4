import LoopBounds.Proofs.Text.Acceptance
import LoopBounds.Proofs.Text.Splitting

namespace LoopBounds.Text

/-- A way to take in tokens one by one, and to tell what has been read and what may follow. -/
structure Machine (σ α : Type) where
  start : σ
  step : σ → Token → Option σ
  result? : σ → Option α
  expected : σ → List Expectation

namespace Machine

variable {σ α : Type} {m : Machine σ α} {s s' : σ} {ts us : List Token} {t : Token}
  {ls : List Lexeme} {x : Refusal}

def Accepts (m : Machine σ α) (s : σ) (ts : List Token) : Prop :=
  ∃ s', feed m.step s ts = some s' ∧ (m.result? s').isSome

/-- The machine takes in all lexemes up to the place of the refusal and no more. -/
def Stops (m : Machine σ α) (ls : List Lexeme) (x : Refusal) : Prop :=
  ∃ read left s, ls = read ++ left ∧ feed m.step m.start (read.map Lexeme.token) = some s ∧
    (∀ l ∈ left.head?, m.step s l.token = none) ∧ (left = [] → m.result? s = none) ∧
    x = ⟨remaining left, m.expected s⟩

/-- Every state can be completed, and expects exactly what can be taken in. -/
structure IsExact (m : Machine σ α) : Prop where
  stray : ∀ s c, m.step s (.stray c) = none
  kind : ∀ s t u, t.SameKind u → m.step s t = none → m.step s u = none
  completes : ∀ s, ∃ ts, (∀ t ∈ ts, t.IsProper) ∧ m.Accepts s ts
  endOfText : ∀ s, .endOfText ∈ m.expected s ↔ (m.result? s).isSome
  arith : ∀ s op, .arith op ∈ m.expected s ↔ (m.step s (.arith op)).isSome
  compare : ∀ s op, .compare op ∈ m.expected s ↔ (m.step s (.compare op)).isSome
  operand : ∀ s x, .expr ∈ m.expected s ∨
    .var ∈ m.expected s ∧ .param ∈ m.expected s ∧ .const ∈ m.expected s ↔
      (m.step s (.var x)).isSome

theorem accepts_nil_iff : m.Accepts s [] ↔ (m.result? s).isSome := by
  constructor
  · rintro ⟨_, ⟨⟩, h⟩
    exact h
  · intro h
    exact ⟨s, rfl, h⟩

theorem accepts_append_iff (h : feed m.step s ts = some s') :
    m.Accepts s (ts ++ us) ↔ m.Accepts s' us := by
  rw [Accepts, feed_append, h, Option.bind_some, Accepts]

theorem accepts_cons_iff (h : m.step s t = some s') : m.Accepts s (t :: us) ↔ m.Accepts s' us := by
  rw [Accepts, feed_cons, h, Option.bind_some, Accepts]

theorem not_accepts_cons (h : m.step s t = none) : ¬ m.Accepts s (t :: us) := by
  rw [Accepts, feed_cons, h]
  rintro ⟨s', hs', -⟩
  cases hs'

theorem Stops.not_accepts (h : m.Stops ls x) : ¬ m.Accepts m.start (ls.map Lexeme.token) := by
  obtain ⟨read, left, s, rfl, hf, hstop, hend, -⟩ := h
  rw [List.map_append, accepts_append_iff hf]
  cases left with
  | nil =>
    intro hr
    have hr := accepts_nil_iff.mp hr
    rw [hend rfl] at hr
    cases hr
  | cons l left => exact not_accepts_cons (hstop l rfl)

theorem IsExact.stray_notMem (hm : m.IsExact) (h : feed m.step s ts = some s') (c : Char) :
    .stray c ∉ ts :=
  notMem_of_feed (hm.stray · c) h

end Machine

namespace Expectation

variable {x : Expectation}

theorem mem_arithOps : x ∈ arithOps ↔ ∃ op, x = .arith op := by
  constructor
  · intro h
    obtain ⟨op, -, rfl⟩ := List.mem_map.mp h
    exact ⟨op, rfl⟩
  · rintro ⟨op, rfl⟩
    cases op <;> decide

theorem mem_comparisons : x ∈ comparisons ↔ ∃ op, x = .compare op := by
  constructor
  · intro h
    obtain ⟨op, -, rfl⟩ := List.mem_map.mp h
    exact ⟨op, rfl⟩
  · rintro ⟨op, rfl⟩
    cases op <;> decide

end Expectation

namespace Reader

open Expectation

variable {r r' : Reader} {t u : Token} {x : Expectation} {outer : List Pending} {p : Pending}
  {e : Expr Numeral}

theorem notMem_expected_operand (ending : Ending) (hx : x ∉ Expectation.expr :: operands) :
    x ∉ (operand outer p).expected ending := by
  intro h
  apply hx
  rw [expected] at h
  split at h
  next => exact List.mem_cons.mpr (.inl (List.mem_singleton.mp h))
  next => exact List.mem_cons_of_mem _ h

theorem mem_expected_operator (ending : Ending) :
    x ∈ (operator outer p e).expected ending ↔ (∃ op, x = .arith op) ∨
      outer = [] ∧ (ending = .endOfText ∧ x = .endOfText ∨
        ending = .comparison ∧ ∃ op, x = .compare op) := by
  cases outer with
  | nil =>
    cases ending <;> simp [expected, Ending.expected, mem_arithOps, mem_comparisons, or_comm]
  | cons q outer => simp [expected, mem_arithOps]

theorem step_eq_none_of_sameKind (r : Reader) (h : t.SameKind u) (ht : r.step t = none) :
    r.step u = none := by
  cases h with
  | refl => exact ht
  | compare => exact step_compare r _
  | numeral | param | var =>
    cases r with
    | operand => cases ht
    | operator outer => cases outer <;> rfl

theorem arith_mem_expected (r : Reader) (ending : Ending) (op : ArithOp) :
    .arith op ∈ r.expected ending ↔ (r.step (.arith op)).isSome := by
  cases r with
  | operand outer p =>
    refine iff_of_false (notMem_expected_operand ending ?_) Bool.false_ne_true
    simp [operands]
  | operator outer p e =>
    exact iff_of_true ((mem_expected_operator ending).mpr (.inl ⟨op, rfl⟩)) rfl

theorem endOfText_mem_expected (r : Reader) (ending : Ending) :
    .endOfText ∈ r.expected ending ↔ ending = .endOfText ∧ r.result?.isSome := by
  cases r with
  | operand outer p =>
    refine iff_of_false (notMem_expected_operand ending ?_) fun h => Bool.false_ne_true h.2
    simp [operands]
  | operator outer p e =>
    rw [mem_expected_operator]
    cases outer <;> simp [result?]

theorem compare_mem_expected (r : Reader) (ending : Ending) (op : CmpOp) :
    .compare op ∈ r.expected ending ↔ ending = .comparison ∧ r.result?.isSome := by
  cases r with
  | operand outer p =>
    refine iff_of_false (notMem_expected_operand ending ?_) fun h => Bool.false_ne_true h.2
    simp [operands]
  | operator outer p e =>
    rw [mem_expected_operator]
    cases outer <;> simp [result?]

theorem operand_mem_expected (r : Reader) (ending : Ending) (x : String) :
    .expr ∈ r.expected ending ∨
      .var ∈ r.expected ending ∧ .param ∈ r.expected ending ∧ .const ∈ r.expected ending ↔
        (r.step (.var x)).isSome := by
  cases r with
  | operand outer p =>
    apply iff_of_true _ rfl
    rw [expected]
    split
    · decide
    · decide
  | operator outer p e =>
    simp only [mem_expected_operator]
    cases outer <;> simp [step]

theorem feed_closing (outer : List Pending) (p : Pending) (e : Expr Numeral) :
    ∃ q f, feed step (operator outer p e) (List.replicate outer.length .closing) =
      some (operator [] q f) := by
  induction outer generalizing p e with
  | nil => exact ⟨p, e, rfl⟩
  | cons q outer ih => exact ih q (p.close e)

theorem completes (r : Reader) :
    ∃ ts r', (∀ t ∈ ts, t.IsProper) ∧ feed step r ts = some r' ∧ r'.result?.isSome := by
  have hc (n : Nat) : ∀ t ∈ List.replicate n Token.closing, t.IsProper := by
    intro t ht
    rw [(List.mem_replicate.mp ht).2]
    trivial
  have hi : IsName "i" := by decide
  cases r with
  | operand outer p =>
    obtain ⟨q, f, hf⟩ := feed_closing outer p (.var "i")
    exact ⟨.var "i" :: List.replicate outer.length .closing, _,
      List.forall_mem_cons.mpr ⟨hi, hc _⟩, hf, rfl⟩
  | operator outer p e =>
    obtain ⟨q, f, hf⟩ := feed_closing outer p e
    exact ⟨List.replicate outer.length .closing, _, hc _, hf, rfl⟩

end Reader

def exprMachine : Machine Reader (Expr Numeral) :=
  ⟨.start, Reader.step, Reader.result?, Reader.expected .endOfText⟩

theorem exprMachine_isExact : exprMachine.IsExact where
  stray := Reader.step_stray
  kind r _ _ := r.step_eq_none_of_sameKind
  completes r :=
    have ⟨ts, r', ht, hf, hr⟩ := r.completes
    ⟨ts, ht, r', hf, hr⟩
  endOfText r := (r.endOfText_mem_expected .endOfText).trans (and_iff_right rfl)
  arith r op := r.arith_mem_expected .endOfText op
  compare r op := by
    rw [show exprMachine.step r (.compare op) = none from r.step_compare op]
    refine (r.compare_mem_expected .endOfText op).trans ?_
    exact iff_of_false (fun h => nomatch h.1) (fun h => nomatch h)
  operand r x := r.operand_mem_expected .endOfText x

theorem readExpr_accepts {ls : List Lexeme} {e : Expr Numeral} (h : readExpr ls = .ok e) :
    exprMachine.Accepts .start (ls.map Lexeme.token) := by
  obtain ⟨r, hf, hr⟩ := isSum_iff_feed.mp (readExpr_eq_ok_iff.mp h)
  exact ⟨r, hf, Option.isSome_iff_exists.mpr ⟨e, hr⟩⟩

theorem exists_run_of_readExpr_error {ls : List Lexeme} {x : Refusal} (h : readExpr ls = .error x) :
    ∃ r rest, Reader.start.run ls = (r, rest) ∧ (rest = [] → r.result? = none) ∧
      x = r.refusal rest .endOfText := by
  cases hr : Reader.start.run ls with | mk r rest
  rw [readExpr, hr] at h
  dsimp only at h
  split at h
  next => cases h
  next hne =>
    cases h
    refine ⟨r, _, rfl, ?_, rfl⟩
    intro hl
    cases he : r.result? with
    | none => rfl
    | some e => exact absurd he (hne e hl)

theorem readExpr_stops {ls : List Lexeme} {x : Refusal} (h : readExpr ls = .error x) :
    exprMachine.Stops ls x := by
  obtain ⟨r, left, hr, hend, hx⟩ := exists_run_of_readExpr_error h
  obtain ⟨read, hl, hf, hstop⟩ := Reader.run_eq_iff.mp hr
  exact ⟨read, left, r, hl, hf, hstop, hend, hx⟩

end LoopBounds.Text
