import LoopBounds.Proofs.Text.Rendering

namespace LoopBounds

open Text

namespace Constraint

variable {c : Constraint Value} {text : String}

theorem WellNamed.layout_render (h : c.WellNamed) :
    Layout c.render.toList
      (c.left.renderedTokens ++ .compare c.op.shown :: c.right.renderedTokens) := by
  rw [render_toList, CmpOp.symbol_eq_spelling_shown, Expr.render_toList, Expr.render_toList]
  apply Layout.spelling_append h.1.isProper
  apply Layout.of_gap (.blank rfl (.none _))
  apply Layout.token (.compare c.op.shown) trivial (.none _)
  apply Layout.of_gap (.blank rfl (.none _))
  exact layout_flatMap_spelling h.2.isProper

theorem WellNamed.isReadingOf_render (h : c.WellNamed) :
    (c.shown.map Expr.numeralOf).IsReadingOf c.render :=
  ⟨_, h.layout_render, .compare c.op.shown (.product (.factor c.left.isFactor_renderedTokens))
    (.product (.factor c.right.isFactor_renderedTokens))⟩

theorem map_numeralOf (c : Constraint Value) :
    (c.map Expr.numeralOf).map Numeral.toNat = c.map UInt64.toNat := by
  simp only [map, Expr.map_numeralOf]

theorem WellNamed.parse_render (h : c.WellNamed) : parse c.render = .ok c.shown :=
  parse_eq_ok_iff.mpr ⟨_, h.isReadingOf_render, map_numeralOf c.shown⟩

theorem wellNamed_of_parse (h : parse text = .ok c) : c.WellNamed := by
  obtain ⟨w, ⟨ts, hl, hs⟩, hc⟩ := parse_eq_ok_iff.mp h
  have hproper := hl.isProper
  cases hs with | compare op ha hb
  obtain ⟨hleft, -, hright⟩ := mk.inj hc
  have ⟨hl, hr⟩ := List.forall_mem_append.mp hproper
  have hwl := ha.wellNamed hl
  have hwr := hb.wellNamed (List.forall_mem_cons.mp hr).2
  rw [← Expr.wellNamed_map Numeral.toNat, hleft, Expr.wellNamed_map] at hwl
  rw [← Expr.wellNamed_map Numeral.toNat, hright, Expr.wellNamed_map] at hwr
  exact ⟨hwl, hwr⟩

end Constraint

/-- A rendered constraint is read back with the operator that the text shows. -/
theorem parse_render_constraint (c : Constraint Value) :
    (c.WellNamed → Constraint.parse c.render = .ok ⟨c.left, c.op.shown, c.right⟩) ∧
      (Constraint.parse c.render = .ok c ↔ c.WellNamed ∧ c.op ≠ .greaterThan) := by
  refine ⟨Constraint.WellNamed.parse_render, ?_⟩
  constructor
  · intro h
    have hw := Constraint.wellNamed_of_parse h
    rw [hw.parse_render, Except.ok.injEq] at h
    exact ⟨hw, Constraint.shown_eq_self_iff.mp h⟩
  · intro ⟨hw, hop⟩
    rw [hw.parse_render, Constraint.shown_eq_self_iff.mpr hop]

theorem parse_render_constraint_strict :
    let above : Constraint Value :=
      ⟨.binary .add (.var "i") (.param "K"), .greaterThan, .const 7⟩
    let odd : Constraint Value := ⟨.var "i < j #", .lessThan, .const 7⟩
    above.WellNamed ∧
      Constraint.parse above.render =
        .ok ⟨.binary .add (.var "i") (.param "K"), .lessThan, .const 7⟩ ∧
      Constraint.parse above.render ≠ .ok above ∧ Constraint.parse odd.render ≠ .ok odd := by
  intro above odd
  have ha : above.WellNamed := by decide +kernel
  have ho : ¬ odd.WellNamed := by decide +kernel
  refine ⟨ha, (parse_render_constraint above).1 ha, ?_, ?_⟩
  · intro h
    exact ((parse_render_constraint above).2.mp h).2 rfl
  · intro h
    exact ho ((parse_render_constraint odd).2.mp h).1

end LoopBounds
