import LoopBounds.Proofs.Text.Grammar
import LoopBounds.Proofs.Text.Lexing
import LoopBounds.Proofs.Text.Resolve

namespace LoopBounds

open Text

/-- The text is laid out from tokens whose derivation has this tree. -/
def Expr.IsReadingOf (w : Expr Numeral) (text : String) : Prop :=
  ∃ ts, Layout text.toList ts ∧ IsSum ts w

def Constraint.IsReadingOf (w : Constraint Numeral) (text : String) : Prop :=
  ∃ ts, Layout text.toList ts ∧ IsConstraint ts w

namespace Text

variable {ts : List Token} {t u : Token} {r r₁ r₂ : Reader} {e : Expr Numeral}
  {c : Constraint Numeral}

namespace Reader

theorem step_stray (r : Reader) (c : Char) : r.step (.stray c) = none := by
  cases r with
  | operand => rfl
  | operator outer => cases outer <;> rfl

theorem not_isComparison_of_step (h : r.step t = some r₁) : ¬ t.IsComparison := by
  intro ht
  cases t with
  | compare op =>
    rw [step_compare] at h
    cases h
  | _ => exact ht

/-- No operand can stand behind an operand. -/
theorem separate_of_step (h : r.step t = some r₁) (h' : r₁.step u = some r₂) : t.Separate u := by
  refine ⟨?_, fun hc => not_isComparison_of_step h hc.1⟩
  rintro ⟨ht, hu⟩
  fun_cases Reader.step r t with
  | case1 | case2 | case3 =>
    cases h
    cases u with
    | numeral | param | var => cases h'
    | _ => exact hu
  | case4 | case5 | case6 => exact ht
  | case7 => simp only [Reader.step, reduceCtorEq] at h

theorem isChain_of_feed (h : feed step r ts = some r₁) : ts.IsChain Token.Separate := by
  induction ts generalizing r with
  | nil => exact .nil
  | cons t ts ih =>
    obtain ⟨next, hn, hf⟩ := feed_cons_eq_some_iff.mp h
    refine List.isChain_cons.mpr ⟨?_, ih hf⟩
    intro u hu
    obtain ⟨us, rfl⟩ := List.head?_eq_some_iff.mp hu
    obtain ⟨_, hn', _⟩ := feed_cons_eq_some_iff.mp hf
    exact separate_of_step hn hn'

end Reader

open Reader

theorem IsSum.isChain (h : IsSum ts e) : ts.IsChain Token.Separate := by
  obtain ⟨r, hf, _⟩ := isSum_iff_feed.mp h
  exact isChain_of_feed hf

theorem IsSum.not_isComparison (h : IsSum ts e) (ht : t ∈ ts) : ¬ t.IsComparison := by
  obtain ⟨r, hf, _⟩ := isSum_iff_feed.mp h
  obtain ⟨_, _, hs⟩ := exists_step_of_feed hf ht
  exact not_isComparison_of_step hs

theorem IsSum.stray_notMem (h : IsSum ts e) (d : Char) : Token.stray d ∉ ts := by
  obtain ⟨r, hf, _⟩ := isSum_iff_feed.mp h
  exact notMem_of_feed (step_stray · d) hf

theorem IsConstraint.isChain (h : IsConstraint ts c) : ts.IsChain Token.Separate := by
  cases h with | @compare ts us a b op ha hb
  have hu : (Token.compare op :: us).IsChain Token.Separate := by
    refine List.isChain_cons.mpr ⟨?_, hb.isChain⟩
    intro u hu
    exact ⟨fun h => h.1, fun h => hb.not_isComparison (List.mem_of_mem_head? hu) h.2⟩
  refine ha.isChain.append hu ?_
  rintro t ht _ ⟨⟩
  exact ⟨fun h => h.2, fun h => ha.not_isComparison (List.mem_of_mem_getLast? ht) h.1⟩

theorem IsConstraint.stray_notMem (h : IsConstraint ts c) (d : Char) : Token.stray d ∉ ts := by
  cases h with | compare op ha hb
  simp only [List.mem_append, List.mem_cons, reduceCtorEq, false_or, not_or]
  exact ⟨ha.stray_notMem d, hb.stray_notMem d⟩

theorem isSum_tokens_iff {text : String} : IsSum (tokens text.toList) e ↔ e.IsReadingOf text := by
  constructor
  · intro h
    exact ⟨_, layout_tokens h.stray_notMem, h⟩
  · intro ⟨ts, hl, h⟩
    rwa [hl.tokens_eq h.isChain]

theorem isConstraint_tokens_iff {text : String} :
    IsConstraint (tokens text.toList) c ↔ c.IsReadingOf text := by
  constructor
  · intro h
    exact ⟨_, layout_tokens h.stray_notMem, h⟩
  · intro ⟨ts, hl, h⟩
    rwa [hl.tokens_eq h.isChain]

theorem readExpr_lexemes_iff {text : String} :
    readExpr (lexemes text.toList) = .ok e ↔ e.IsReadingOf text :=
  readExpr_eq_ok_iff.trans isSum_tokens_iff

theorem readConstraint_lexemes_iff {text : String} :
    readConstraint (lexemes text.toList) = .ok c ↔ c.IsReadingOf text :=
  readConstraint_eq_ok_iff.trans isConstraint_tokens_iff

/-- The report of a refusal, or what the numerals make of the tree. -/
def outcome {α β : Type} (text : List Char) (read : Except Refusal α)
    (resolve : α → Except Numeral β) : Except ParseError β :=
  match read with
  | .error refusal => .error (.unexpected (refusal.report text))
  | .ok written => (resolve written).mapError .outOfRange

section

variable {α β : Type} {text : List Char} {read : Except Refusal α}
  {resolve : α → Except Numeral β} {b : β}

theorem outcome_eq_unexpected_iff {report : Report} :
    outcome text read resolve = .error (.unexpected report) ↔
      ∃ x, read = .error x ∧ report = x.report text := by
  cases read with
  | error x =>
    simp only [outcome, Except.error.injEq, ParseError.unexpected.injEq, exists_eq_left']
    exact eq_comm
  | ok a =>
    refine iff_of_false ?_ fun ⟨_, h, _⟩ => nomatch h
    intro h
    rw [outcome] at h
    cases hr : resolve a with
    | error | ok => rw [hr] at h; cases h

theorem outcome_ne_unexpected_iff :
    (∀ report, outcome text read resolve ≠ .error (.unexpected report)) ↔ ∃ a, read = .ok a := by
  simp only [ne_eq, outcome_eq_unexpected_iff, not_exists, not_and]
  cases read with
  | error x => exact iff_of_false (fun h => h _ x rfl rfl) (fun ⟨_, h⟩ => nomatch h)
  | ok a => exact iff_of_true (fun _ _ h => nomatch h) ⟨a, rfl⟩

theorem outcome_eq_ok_iff :
    outcome text read resolve = .ok b ↔ ∃ a, read = .ok a ∧ resolve a = .ok b := by
  cases read with
  | error refusal => exact iff_of_false (fun h => nomatch h) (fun ⟨_, h, _⟩ => nomatch h)
  | ok a =>
    simp only [outcome, Except.ok.injEq, exists_eq_left']
    cases resolve a with
    | error => exact iff_of_false (fun h => nomatch h) (fun h => nomatch h)
    | ok => simp only [Except.mapError, Except.ok.injEq]

end

end Text

theorem Expr.parse_eq_outcome (text : String) :
    parse text = outcome text.toList (readExpr (lexemes text.toList)) resolve := by
  unfold parse outcome
  cases readExpr (lexemes text.toList) with
  | error | ok => rfl

theorem Constraint.parse_eq_outcome (text : String) :
    parse text = outcome text.toList (readConstraint (lexemes text.toList)) resolve := by
  unfold parse outcome
  cases readConstraint (lexemes text.toList) with
  | error | ok => rfl

theorem Expr.parse_eq_ok_iff {text : String} {e : Expr Value} :
    parse text = .ok e ↔
      ∃ w : Expr Numeral, w.IsReadingOf text ∧ w.map Numeral.toNat = e.map UInt64.toNat := by
  simp only [parse_eq_outcome, outcome_eq_ok_iff, readExpr_lexemes_iff, resolve_eq_ok_iff]

theorem Constraint.parse_eq_ok_iff {text : String} {c : Constraint Value} :
    parse text = .ok c ↔
      ∃ w : Constraint Numeral, w.IsReadingOf text ∧ w.map Numeral.toNat = c.map UInt64.toNat := by
  simp only [parse_eq_outcome, outcome_eq_ok_iff, readConstraint_lexemes_iff, resolve_eq_ok_iff]

theorem Expr.IsReadingOf.unique {w w' : Expr Numeral} {text : String} (h : w.IsReadingOf text)
    (h' : w'.IsReadingOf text) : w = w' :=
  Except.ok.inj ((readExpr_lexemes_iff.mpr h).symm.trans (readExpr_lexemes_iff.mpr h'))

theorem Constraint.IsReadingOf.unique {w w' : Constraint Numeral} {text : String}
    (h : w.IsReadingOf text) (h' : w'.IsReadingOf text) : w = w' :=
  Except.ok.inj ((readConstraint_lexemes_iff.mpr h).symm.trans (readConstraint_lexemes_iff.mpr h'))

/-- The texts that are read are those that the grammar derives, each in one way only. -/
theorem parse_iff_isReadingOf (text : String) :
    ((∀ report, Expr.parse text ≠ .error (.unexpected report)) ↔
        ∃ w : Expr Numeral, w.IsReadingOf text) ∧
      (∀ w w' : Expr Numeral, w.IsReadingOf text → w'.IsReadingOf text → w = w') ∧
      (∀ e, Expr.parse text = .ok e ↔
        ∃ w : Expr Numeral, w.IsReadingOf text ∧ w.map Numeral.toNat = e.map UInt64.toNat) ∧
      ((∀ report, Constraint.parse text ≠ .error (.unexpected report)) ↔
        ∃ w : Constraint Numeral, w.IsReadingOf text) ∧
      (∀ w w' : Constraint Numeral, w.IsReadingOf text → w'.IsReadingOf text → w = w') ∧
      ∀ c, Constraint.parse text = .ok c ↔
        ∃ w : Constraint Numeral, w.IsReadingOf text ∧
          w.map Numeral.toNat = c.map UInt64.toNat := by
  have he : (∀ report, Expr.parse text ≠ .error (.unexpected report)) ↔
      ∃ w : Expr Numeral, w.IsReadingOf text := by
    simp only [Expr.parse_eq_outcome, outcome_ne_unexpected_iff, readExpr_lexemes_iff]
  have hc : (∀ report, Constraint.parse text ≠ .error (.unexpected report)) ↔
      ∃ w : Constraint Numeral, w.IsReadingOf text := by
    simp only [Constraint.parse_eq_outcome, outcome_ne_unexpected_iff, readConstraint_lexemes_iff]
  exact ⟨he, fun _ _ h h' => h.unique h', fun _ => Expr.parse_eq_ok_iff, hc,
    fun _ _ h h' => h.unique h', fun _ => Constraint.parse_eq_ok_iff⟩

theorem parse_iff_isReadingOf_sum :
    let i : Expr Numeral := .var "i"
    let sum : Expr Numeral := .binary .add (.const ⟨['0', '1']⟩) (.binary .multiply i (.param "N"))
    let product : Expr Numeral :=
      .binary .multiply (.binary .add (.const ⟨['0', '1']⟩) i) (.param "N")
    sum.IsReadingOf "01 +i*$N # sum" ∧ ¬ product.IsReadingOf "01 +i*$N # sum" ∧
      Expr.parse "01 +i*$N # sum" =
        .ok (.binary .add (.const 1) (.binary .multiply (.var "i") (.param "N"))) := by
  intro i sum product
  have hs : sum.IsReadingOf "01 +i*$N # sum" := readExpr_lexemes_iff.mp (by decide +kernel)
  obtain ⟨-, hu, hp, -⟩ := parse_iff_isReadingOf "01 +i*$N # sum"
  have hn : ¬ product.IsReadingOf "01 +i*$N # sum" := by
    intro h
    exact absurd (hu _ _ hs h) (by decide)
  exact ⟨hs, hn, (hp _).mpr ⟨sum, hs, by decide⟩⟩

end LoopBounds
