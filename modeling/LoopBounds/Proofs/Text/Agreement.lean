import LoopBounds.Proofs.Text.Composition

namespace LoopBounds

open Text

namespace Text

variable {r : Reader} {ls rest : List Lexeme} {l : Lexeme} {e : Expr Numeral} {x : Refusal}
  {text : List Char}

/-- Of the ends of an expression the reader tells only behind a complete one. -/
theorem Reader.expected_of_incomplete (h : r.result? = none) (ending ending' : Ending) :
    r.expected ending = r.expected ending' := by
  cases r with
  | operand => rfl
  | operator outer p e =>
    cases outer with
    | nil => cases h
    | cons => rfl

theorem Reader.expected_of_complete (h : r.result? = some e) (ending : Ending) :
    r.expected ending = ending.expected := by
  cases r with
  | operand => cases h
  | operator outer p e =>
    cases outer with
    | nil => rfl
    | cons => cases h

theorem readConstraint_eq_error (hr : Reader.start.run ls = (r, rest))
    (hn : r.result? = none ∨ ∀ l ∈ rest.head?, ¬ l.token.IsComparison) :
    readConstraint ls = .error (r.refusal rest .comparison) := by
  rcases readConstraint_cases hr with ⟨op, here, right, a, rfl, ha, -⟩ | ⟨-, hc⟩
  · rcases hn with hn | hn
    · rw [hn] at ha
      cases ha
    · exact absurd trivial (hn ⟨.compare op, here⟩ rfl)
  · exact hc

theorem readConstraint_of_isSum (h : IsSum (ls.map Lexeme.token) e) :
    readConstraint ls = .error ⟨[], Ending.comparison.expected⟩ := by
  obtain ⟨r, hf, he⟩ := isSum_iff_feed.mp h
  have hr : Reader.start.run ls = (r, []) :=
    Reader.run_eq_iff.mpr ⟨ls, (List.append_nil ls).symm, hf, fun _ h => nomatch h⟩
  rw [readConstraint_eq_error hr (.inr fun _ h => nomatch h), Reader.refusal,
    Reader.expected_of_complete he]
  rfl

theorem readConstraint_of_incomplete (h : readExpr ls = .error x) (hx : .endOfText ∉ x.expected) :
    readConstraint ls = .error x := by
  obtain ⟨r, rest, hr, -, rfl⟩ := exists_run_of_readExpr_error h
  have hnone : r.result? = none := by
    rw [Reader.refusal, Reader.endOfText_mem_expected, eq_self_iff_true, true_and,
      Bool.not_eq_true, Option.isSome_eq_false_iff, Option.isNone_iff_eq_none] at hx
    exact hx
  rw [readConstraint_eq_error hr (.inl hnone), Reader.refusal, Reader.refusal,
    Reader.expected_of_incomplete hnone]

theorem readConstraint_of_complete (h : readExpr ls = .error x) (hx : .endOfText ∈ x.expected)
    (hn : ∀ l ∈ ls, l.here = x.here → ¬ l.token.IsComparison) :
    readConstraint ls = .error { x with expected := Ending.comparison.expected } := by
  obtain ⟨r, rest, hr, -, rfl⟩ := exists_run_of_readExpr_error h
  rw [Reader.refusal, Reader.endOfText_mem_expected] at hx
  obtain ⟨e, he⟩ := Option.isSome_iff_exists.mp hx.2
  have hhead : ∀ l ∈ rest.head?, ¬ l.token.IsComparison := by
    intro l hl
    obtain ⟨read, rfl, -, -⟩ := Reader.run_eq_iff.mp hr
    obtain ⟨tail, rfl⟩ := List.head?_eq_some_iff.mp hl
    exact hn l (List.mem_append_right _ List.mem_cons_self) rfl
  rw [readConstraint_eq_error hr (.inr hhead), Reader.refusal, Reader.expected_of_complete he]
  rfl

theorem spelling_prefix_of_mem_lexemes (h : l ∈ lexemes text) : l.token.spelling <+: l.here := by
  obtain ⟨c, rest, rfl, -⟩ := exists_first_of_mem_lexemes h
  exact ⟨_, Token.spelling_append_after c rest⟩

/-- Only three texts have to be looked for where a comparison could begin. -/
theorem not_isComparison_of_not_prefix
    (hn : ∀ s ∈ ["<", ">", "=="], ¬ s.toList <+: l.here) (h : l ∈ lexemes text) :
    ¬ l.token.IsComparison := by
  have hs : ∀ op : CmpOp, ∃ s ∈ ["<", ">", "=="], s.toList <+: op.spelling.toList := by
    intro op
    cases op <;> decide
  intro hc
  have hp := spelling_prefix_of_mem_lexemes h
  cases ht : l.token with
  | compare op =>
    rw [ht] at hp
    obtain ⟨s, hmem, hpre⟩ := hs op
    exact hn s hmem (hpre.trans hp)
  | _ =>
    rw [ht] at hc
    exact hc

theorem here_suffix_of_readExpr_error (h : readExpr (lexemes text) = .error x) :
    x.here <:+ text := by
  obtain ⟨r, rest, hr, -, rfl⟩ := exists_run_of_readExpr_error h
  obtain ⟨read, hl, -, -⟩ := Reader.run_eq_iff.mp hr
  cases rest with
  | nil => exact List.nil_suffix
  | cons l rest =>
    apply here_suffix_of_mem_lexemes (l := l)
    rw [hl]
    exact List.mem_append_right _ List.mem_cons_self

theorem not_continues_of_head (op : CmpOp) {r : List Char}
    (h : op = .lessThan ∨ op = .greaterThan → r.head? ≠ some '=') :
    ∀ d ∈ r.head?, ¬ (Token.compare op).Continues d := by
  intro d hd hc
  cases op with
  | lessThan | greaterThan =>
    subst hc
    exact h (by decide) hd
  | lessOrEqual | equal | greaterOrEqual => exact hc

end Text

variable {text l r : String} {report : Report}

theorem Constraint.parse_of_valid_expr (h : Valid Expr.parse text) :
    ∃ report, parse text = .error (.unexpected report) ∧ report.offset text = text.length ∧
      report.expected = Ending.comparison.expected := by
  obtain ⟨e, he⟩ := valid_expr_iff.mp h
  let x : Refusal := ⟨[], Ending.comparison.expected⟩
  refine ⟨x.report text.toList, ?_, ?_, rfl⟩
  · rw [parse_eq_outcome, readConstraint_of_isSum he]
    rfl
  · rw [Refusal.offset_report (List.append_nil _).symm, String.length_toList]

theorem Constraint.parse_of_incomplete (h : Expr.parse text = .error (.unexpected report))
    (hx : .endOfText ∉ report.expected) : parse text = .error (.unexpected report) := by
  rw [Expr.parse_eq_outcome, outcome_eq_unexpected_iff] at h
  obtain ⟨x, hr, rfl⟩ := h
  rw [parse_eq_outcome, readConstraint_of_incomplete hr hx]
  rfl

theorem Constraint.parse_of_complete (h : Expr.parse text = .error (.unexpected report))
    (hx : .endOfText ∈ report.expected)
    (hn : ∀ s ∈ ["<", ">", "=="], ¬ s.toList <+: (report.after text).toList) :
    parse text = .error (.unexpected { report with expected := Ending.comparison.expected }) := by
  rw [Expr.parse_eq_outcome, outcome_eq_unexpected_iff] at h
  obtain ⟨x, hr, rfl⟩ := h
  obtain ⟨before, ht⟩ := here_suffix_of_readExpr_error hr
  rw [Refusal.after_report ht.symm, String.toList_ofList] at hn
  have hcmp : ∀ l ∈ lexemes text.toList, l.here = x.here → ¬ l.token.IsComparison := by
    intro l hl he
    exact not_isComparison_of_not_prefix (he ▸ hn) hl
  rw [parse_eq_outcome, readConstraint_of_complete hr hx hcmp]
  rfl

theorem Constraint.parse_newline_refused {op : CmpOp} (hl : Valid Expr.parse l)
    (hop : op = .lessThan ∨ op = .greaterThan → r.toList.head? ≠ some '=')
    (h : Expr.parse r = .error (.unexpected report)) :
    ∃ report', parse (l ++ "\n" ++ op.spelling ++ r) = .error (.unexpected report') ∧
      report'.offset (l ++ "\n" ++ op.spelling ++ r) =
        l.length + 1 + op.spelling.length + report.offset r ∧
      report'.expected = report.expected := by
  obtain ⟨a, ha⟩ := valid_expr_iff.mp hl
  rw [Expr.parse_eq_outcome, outcome_eq_unexpected_iff] at h
  obtain ⟨x, hr, rfl⟩ := h
  obtain ⟨before, ht⟩ := here_suffix_of_readExpr_error hr
  refine ⟨x.report (l ++ "\n" ++ op.spelling ++ r).toList, ?_, ?_, rfl⟩
  · rw [parse_eq_outcome, readConstraint_newline ha (not_continues_of_head op hop), hr]
    rfl
  · have htext : (l ++ "\n" ++ op.spelling ++ r).toList =
        (l.toList ++ '\n' :: (op.spelling.toList ++ before)) ++ x.here := by
      rw [toList_newline, ← ht]
      simp only [List.append_assoc, List.cons_append]
    rw [Refusal.offset_report htext, Refusal.offset_report ht.symm]
    simp only [List.length_append, List.length_cons, String.length_toList]
    omega

/-- A constraint lacks what its left side lacks, and else a comparison. -/
theorem unexpected_constraint_of_expr :
    (∀ text, Valid Expr.parse text →
      ∃ report, Constraint.parse text = .error (.unexpected report) ∧
        report.offset text = text.length ∧ report.expected = Ending.comparison.expected) ∧
      alternatives (Ending.comparison.expected.map Expectation.label) =
        "add, subtract, multiply, le, ge, equal, less, or greater" ∧
      (∀ text report, Expr.parse text = .error (.unexpected report) →
        (.endOfText ∉ report.expected → Constraint.parse text = .error (.unexpected report)) ∧
          (.endOfText ∈ report.expected →
            (∀ s ∈ ["<", ">", "=="], ¬ s.toList <+: (report.after text).toList) →
            Constraint.parse text =
              .error (.unexpected { report with expected := Ending.comparison.expected }))) ∧
      ∀ (l r : String) (op : CmpOp) (report : Report), Valid Expr.parse l →
        (op = .lessThan ∨ op = .greaterThan → r.toList.head? ≠ some '=') →
        Expr.parse r = .error (.unexpected report) →
        ∃ report', Constraint.parse (l ++ "\n" ++ op.spelling ++ r) =
            .error (.unexpected report') ∧
          report'.offset (l ++ "\n" ++ op.spelling ++ r) =
            l.length + 1 + op.spelling.length + report.offset r ∧
          report'.expected = report.expected := by
  refine ⟨fun _ => Constraint.parse_of_valid_expr, by decide, ?_, ?_⟩
  · intro text report h
    exact ⟨Constraint.parse_of_incomplete h, Constraint.parse_of_complete h⟩
  · intro l r op report hl hop h
    exact Constraint.parse_newline_refused hl hop h

theorem unexpected_constraint_of_expr_open :
    let unclosed : Report := ⟨1, 7, "(i + j".toList, Expectation.arithOps⟩
    let half : Report := ⟨1, 3, "i = j".toList, Ending.endOfText.expected⟩
    let dangling : Report := ⟨2, 2, " )".toList, Expectation.operands⟩
    (Valid Expr.parse "i # < j" ∧ ∃ report, Constraint.parse "i # < j" =
        .error (.unexpected report) ∧ report.offset "i # < j" = 7) ∧
      (Expr.parse "(i + j" = .error (.unexpected unclosed) ∧
        Constraint.parse "(i + j" = .error (.unexpected unclosed)) ∧
      (Expr.parse "i = j" = .error (.unexpected half) ∧ Constraint.parse "i = j" =
        .error (.unexpected { half with expected := Ending.comparison.expected })) ∧
      Expr.parse "j + # <\n )" = .error (.unexpected dangling) ∧
      ∃ report, Constraint.parse ("i # < j" ++ "\n" ++ "<" ++ "j + # <\n )") =
          .error (.unexpected report) ∧
        report.offset ("i # < j" ++ "\n" ++ "<" ++ "j + # <\n )") = 18 ∧
        report.expected = Expectation.operands := by
  intro unclosed half dangling
  have hi : Expr.parse "i # < j" = .ok (.var "i") := by decide +kernel
  have hv : Valid Expr.parse "i # < j" := .of_eq_ok hi
  have hu : Expr.parse "(i + j" = .error (.unexpected unclosed) := by decide +kernel
  have hh : Expr.parse "i = j" = .error (.unexpected half) := by decide +kernel
  have hd : Expr.parse "j + # <\n )" = .error (.unexpected dangling) := by decide +kernel
  obtain ⟨hends, -, hone, hright⟩ := unexpected_constraint_of_expr
  obtain ⟨report, hp, ho, -⟩ := hends _ hv
  obtain ⟨report', hp', ho', he'⟩ :=
    hright _ _ .lessThan dangling hv (fun _ => by decide +kernel) hd
  refine ⟨⟨hv, report, hp, ho⟩, ⟨hu, (hone _ unclosed hu).1 (by decide)⟩,
    ⟨hh, (hone _ half hh).2 (by decide) (by decide +kernel)⟩, hd, report', hp', ?_, he'⟩
  exact ho'.trans (by decide +kernel)

end LoopBounds
