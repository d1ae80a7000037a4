import LoopBounds.Proofs.Text.Diagnosis
import LoopBounds.Proofs.Text.Joining

namespace LoopBounds

open Text

variable {text l r : String} {op : CmpOp} {a b : Expr Numeral}

namespace Text

theorem valid_expr_iff : Valid Expr.parse text ↔ ∃ a, IsSum (tokens text.toList) a := by
  simp only [Valid, Expr.parse_eq_outcome, outcome_ne_unexpected_iff, readExpr_eq_ok_iff, tokens]

theorem toList_sides (l r : String) (op : CmpOp) :
    (l ++ op.spelling ++ r).toList = l.toList ++ (op.spelling.toList ++ r.toList) := by
  rw [String.toList_append, String.toList_append, List.append_assoc]

theorem toList_newline (l r : String) (op : CmpOp) :
    (l ++ "\n" ++ op.spelling ++ r).toList =
      l.toList ++ '\n' :: (op.spelling.toList ++ r.toList) := by
  rw [toList_sides, String.toList_append, List.append_assoc]
  rfl

/-- Behind a left side on lines of its own, the right side is read as an expression. -/
theorem readConstraint_newline (ha : IsSum (tokens l.toList) a)
    (hr : ∀ d ∈ r.toList.head?, ¬ (Token.compare op).Continues d) :
    readConstraint (lexemes (l ++ "\n" ++ op.spelling ++ r).toList) =
      (readExpr (lexemes r.toList)).map fun b => ⟨a, op, b⟩ := by
  obtain ⟨ls, hm, hl⟩ := exists_lexemes_newline ha.isProper (op.spelling.toList ++ r.toList)
  have hop : (Token.compare op).IsProper := trivial
  have hs : lexemes (op.spelling.toList ++ r.toList) = _ := hop.lexemes_append hr
  rw [toList_newline, hl, hs]
  exact readConstraint_append (hm ▸ ha)

end Text

theorem Constraint.mapError_resolve {ε : Type} (w : Constraint Numeral) (f : Numeral → ε) :
    w.resolve.mapError f = do
      let left ← w.left.resolve.mapError f
      let right ← w.right.resolve.mapError f
      return ⟨left, w.op, right⟩ := by
  rw [resolve]
  cases w.left.resolve with
  | error => rfl
  | ok left =>
    cases w.right.resolve with
    | error | ok => rfl

theorem Constraint.parse_eq_of_sides
    (h : readConstraint (lexemes text.toList) = .ok ⟨a, op, b⟩) (ha : IsSum (tokens l.toList) a)
    (hb : IsSum (tokens r.toList) b) :
    parse text = do
      let left ← Expr.parse l
      let right ← Expr.parse r
      return ⟨left, op, right⟩ := by
  rw [parse_eq_outcome, h, Expr.parse_eq_outcome, Expr.parse_eq_outcome, readExpr_eq_ok_iff.mpr ha,
    readExpr_eq_ok_iff.mpr hb]
  exact mapError_resolve ⟨a, op, b⟩ ParseError.outOfRange

theorem Constraint.parse_newline (ha : Valid Expr.parse l) (hb : Valid Expr.parse r) (op : CmpOp) :
    parse (l ++ "\n" ++ op.spelling ++ r) = do
      let left ← Expr.parse l
      let right ← Expr.parse r
      return ⟨left, op, right⟩ := by
  obtain ⟨a, ha⟩ := valid_expr_iff.mp ha
  obtain ⟨b, hb⟩ := valid_expr_iff.mp hb
  apply parse_eq_of_sides _ ha hb
  rw [readConstraint_newline ha (hb.not_continues op), readExpr_eq_ok_iff.mpr hb]
  rfl

theorem Constraint.exists_parse_sides {c : Constraint Value} (h : parse text = .ok c) :
    ∃ l r, text = l ++ c.op.spelling ++ r ∧ Expr.parse l = .ok c.left ∧
      Expr.parse r = .ok c.right := by
  rw [parse_eq_outcome] at h
  obtain ⟨w, hw, -⟩ := outcome_eq_ok_iff.mp h
  obtain ⟨l, r, ht, ha, hb⟩ := Text.exists_sides hw
  rw [← String.toList_ofList (l := l)] at ha
  rw [← String.toList_ofList (l := r)] at hb
  rw [← parse_eq_outcome, parse_eq_of_sides hw ha hb] at h
  simp only [bind_eq_ok_iff, pure, Except.pure, Except.ok.injEq] at h
  obtain ⟨left, hl, right, hr, rfl⟩ := h
  refine ⟨.ofList l, .ofList r, ?_, hl, hr⟩
  rw [← String.toList_inj, ht, toList_sides, String.toList_ofList, String.toList_ofList]

theorem Constraint.parse_sides_unique {c : Constraint Value} {l' r' : String} {op' : CmpOp}
    (h : parse text = .ok c) (ht : text = l ++ op.spelling ++ r) (ha : Valid Expr.parse l)
    (hb : Valid Expr.parse r) (ht' : text = l' ++ op'.spelling ++ r') (ha' : Valid Expr.parse l')
    (hb' : Valid Expr.parse r') : l' = l ∧ op' = op ∧ r' = r := by
  rw [parse_eq_outcome] at h
  obtain ⟨w, hw, -⟩ := outcome_eq_ok_iff.mp h
  have hc := readConstraint_eq_ok_iff.mp hw
  obtain ⟨a, ha⟩ := valid_expr_iff.mp ha
  obtain ⟨b, hb⟩ := valid_expr_iff.mp hb
  obtain ⟨a', ha'⟩ := valid_expr_iff.mp ha'
  obtain ⟨b', hb'⟩ := valid_expr_iff.mp hb'
  have he := congrArg String.toList (ht.symm.trans ht')
  rw [toList_sides, toList_sides] at he
  rw [ht, toList_sides] at hc
  obtain ⟨hl, hop, hr⟩ := IsConstraint.sides_unique hc ha hb ha' hb' he
  exact ⟨String.toList_inj.mp hl, hop, String.toList_inj.mp hr⟩

/-- A constraint is read as its two sides are, and comes apart in one way only. -/
theorem parse_constraint_iff_sides :
    (∀ l r op, Valid Expr.parse l → Valid Expr.parse r →
      Constraint.parse (l ++ "\n" ++ op.spelling ++ r) = do
        let left ← Expr.parse l
        let right ← Expr.parse r
        return ⟨left, op, right⟩) ∧
      ∀ text c, Constraint.parse text = .ok c →
        ∃ l r, text = l ++ c.op.spelling ++ r ∧ Expr.parse l = .ok c.left ∧
          Expr.parse r = .ok c.right ∧
          ∀ l' op' r', text = l' ++ op'.spelling ++ r' → Valid Expr.parse l' →
            Valid Expr.parse r' → l' = l ∧ op' = c.op ∧ r' = r := by
  refine ⟨fun l r op ha hb => Constraint.parse_newline ha hb op, ?_⟩
  intro text c h
  obtain ⟨l, r, ht, hl, hr⟩ := Constraint.exists_parse_sides h
  refine ⟨l, r, ht, hl, hr, ?_⟩
  intro l' op' r' ht' hl' hr'
  exact Constraint.parse_sides_unique h ht (.of_eq_ok hl) (.of_eq_ok hr) ht' hl' hr'

theorem parse_constraint_iff_sides_commented :
    let large : Numeral := ⟨"18446744073709551616".toList⟩
    let text := "i # < 3\n <= $N"
    (Valid Expr.parse "18446744073709551616 # <" ∧ Valid Expr.parse "99999999999999999999" ∧
        Constraint.parse ("18446744073709551616 # <" ++ "\n" ++ CmpOp.equal.spelling ++
          "99999999999999999999") = .error (.outOfRange large)) ∧
      Constraint.parse text = .ok ⟨.var "i", .lessOrEqual, .param "N"⟩ ∧
      ∃ l r, text = l ++ "<=" ++ r ∧ Expr.parse l = .ok (.var "i") ∧
        Expr.parse r = .ok (.param "N") := by
  intro large text
  have hl : Expr.parse "18446744073709551616 # <" = .error (.outOfRange large) := by
    decide +kernel
  have hr : Expr.parse "99999999999999999999" =
      .error (.outOfRange ⟨"99999999999999999999".toList⟩) := by
    decide +kernel
  have hvl : Valid Expr.parse "18446744073709551616 # <" := by
    intro report h
    rw [hl] at h
    cases h
  have hvr : Valid Expr.parse "99999999999999999999" := by
    intro report h
    rw [hr] at h
    cases h
  have hj := parse_constraint_iff_sides.1 _ _ .equal hvl hvr
  rw [hl] at hj
  have ht : Constraint.parse text = .ok ⟨.var "i", .lessOrEqual, .param "N"⟩ := by decide +kernel
  obtain ⟨l, r, hs, ha, hb, -⟩ := parse_constraint_iff_sides.2 text _ ht
  exact ⟨⟨hvl, hvr, hj⟩, ht, l, r, hs, ha, hb⟩

end LoopBounds
