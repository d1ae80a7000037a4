import LoopBounds.Proofs.Text.Acceptance

namespace LoopBounds

open Text

variable {e : Expr Value} {text : String}

namespace Expr

/-- The numeral that shows a word, without leading zeros. -/
def numeralOf (k : Value) : Numeral :=
  ⟨k.toNat.repr.toList⟩

theorem isProper_numeralOf (k : Value) : (Token.numeral (numeralOf k)).IsProper := by
  have hd : ∀ d ∈ k.toNat.repr.toList, d.isDigit := by
    intro d h
    rw [Nat.toList_repr] at h
    exact Nat.isDigit_of_mem_toDigits (by decide) (by decide) h
  have hne : k.toNat.repr.toList ≠ [] := by
    intro h
    exact Nat.repr_ne_empty (String.toList_eq_nil_iff.mp h)
  exact ⟨hne, hd⟩

theorem toNat_numeralOf (k : Value) : (numeralOf k).toNat = k.toNat := by
  rw [numeralOf, Numeral.toNat, Nat.toList_repr, Nat.ofDigitChars_ten_toDigits]

theorem map_numeralOf (e : Expr Value) :
    (e.map numeralOf).map Numeral.toNat = e.map UInt64.toNat := by
  rw [map_map]
  exact congrArg (map · e) (funext toNat_numeralOf)

def renderedTokens : Expr Value → List Token
  | binary op l r => .opening :: (l.renderedTokens ++ .arith op :: r.renderedTokens) ++ [.closing]
  | var x => [.var x]
  | param x => [.param x]
  | const k => [.numeral (numeralOf k)]

theorem render_toList (e : Expr Value) :
    e.render.toList = e.renderedTokens.flatMap Token.spelling := by
  induction e with
  | binary op l r ihl ihr =>
    simp only [render, renderedTokens, String.toList_append, ihl, ihr, List.flatMap_append,
      List.flatMap_cons, List.flatMap_nil, Token.spelling, List.append_assoc]
    rfl
  | var x => exact (List.append_nil _).symm
  | param x => simp only [render, renderedTokens, String.toList_append, List.flatMap_singleton]; rfl
  | const k => exact (List.append_nil _).symm

theorem isFactor_renderedTokens (e : Expr Value) : IsFactor e.renderedTokens (e.map numeralOf) := by
  induction e with
  | binary op l r ihl ihr =>
    apply IsFactor.parens
    cases op with
    | add => exact .add (.product (.factor ihl)) (.factor ihr)
    | subtract => exact .subtract (.product (.factor ihl)) (.factor ihr)
    | multiply => exact .product (.multiply (.factor ihl) ihr)
  | var x => exact .var x
  | param x => exact .param x
  | const k => exact .numeral (numeralOf k)

theorem WellNamed.isProper (h : e.WellNamed) : ∀ t ∈ e.renderedTokens, t.IsProper := by
  induction e with
  | binary op l r ihl ihr =>
    intro t ht
    simp only [renderedTokens, List.cons_append, List.append_assoc, List.mem_append, List.mem_cons,
      List.not_mem_nil, or_false] at ht
    rcases ht with rfl | ht | rfl | ht | rfl
    · trivial
    · exact ihl h.1 t ht
    · trivial
    · exact ihr h.2 t ht
    · trivial
  | var x => exact List.forall_mem_singleton.mpr h
  | param x => exact List.forall_mem_singleton.mpr h
  | const k => exact List.forall_mem_singleton.mpr (isProper_numeralOf k)

end Expr

namespace Text

mutual

theorem IsSum.wellNamed {ts : List Token} {w : Expr Numeral} :
    IsSum ts w → (∀ t ∈ ts, t.IsProper) → w.WellNamed
  | .product h, hp => IsProduct.wellNamed h hp
  | .add ha hb, hp =>
    have ⟨hl, hr⟩ := List.forall_mem_append.mp hp
    ⟨IsSum.wellNamed ha hl, IsProduct.wellNamed hb (List.forall_mem_cons.mp hr).2⟩
  | .subtract ha hb, hp =>
    have ⟨hl, hr⟩ := List.forall_mem_append.mp hp
    ⟨IsSum.wellNamed ha hl, IsProduct.wellNamed hb (List.forall_mem_cons.mp hr).2⟩

theorem IsProduct.wellNamed {ts : List Token} {w : Expr Numeral} :
    IsProduct ts w → (∀ t ∈ ts, t.IsProper) → w.WellNamed
  | .factor h, hp => IsFactor.wellNamed h hp
  | .multiply ha hb, hp =>
    have ⟨hl, hr⟩ := List.forall_mem_append.mp hp
    ⟨IsProduct.wellNamed ha hl, IsFactor.wellNamed hb (List.forall_mem_cons.mp hr).2⟩

theorem IsFactor.wellNamed {ts : List Token} {w : Expr Numeral} :
    IsFactor ts w → (∀ t ∈ ts, t.IsProper) → w.WellNamed
  | .numeral _, _ => trivial
  | .param x, hp => hp (.param x) List.mem_cons_self
  | .var x, hp => hp (.var x) List.mem_cons_self
  | .parens h, hp =>
    have ⟨hl, _⟩ := List.forall_mem_append.mp hp
    IsSum.wellNamed h (List.forall_mem_cons.mp hl).2

end

end Text

theorem Expr.WellNamed.isReadingOf_render (h : e.WellNamed) :
    (e.map numeralOf).IsReadingOf e.render := by
  have hl := layout_flatMap_spelling h.isProper
  rw [← render_toList] at hl
  exact ⟨e.renderedTokens, hl, .product (.factor e.isFactor_renderedTokens)⟩

theorem Expr.WellNamed.parse_render (h : e.WellNamed) : parse e.render = .ok e :=
  parse_eq_ok_iff.mpr ⟨_, h.isReadingOf_render, map_numeralOf e⟩

theorem Expr.wellNamed_of_parse (h : parse text = .ok e) : e.WellNamed := by
  obtain ⟨w, ⟨ts, hl, hs⟩, he⟩ := parse_eq_ok_iff.mp h
  have hw := hs.wellNamed hl.isProper
  rwa [← wellNamed_map Numeral.toNat, he, wellNamed_map] at hw

/-- Rendered text is read back as the same expression exactly if its names can be written. -/
theorem parse_render_iff :
    (∀ e : Expr Value, Expr.parse e.render = .ok e ↔ e.WellNamed) ∧
      ∀ text e, Expr.parse text = .ok e → Expr.parse e.render = .ok e := by
  have hr (e : Expr Value) : Expr.parse e.render = .ok e ↔ e.WellNamed :=
    ⟨Expr.wellNamed_of_parse, Expr.WellNamed.parse_render⟩
  exact ⟨hr, fun _ e h => (hr e).mpr (Expr.wellNamed_of_parse h)⟩

theorem parse_render_iff_commented :
    let e : Expr Value := .binary .multiply (.binary .subtract (.param "N") (.const 1)) (.var "i")
    Expr.parse "# size\n( $N -01)* i" = .ok e ∧ Expr.parse e.render = .ok e := by
  intro e
  have h : Expr.parse "# size\n( $N -01)* i" = .ok e := by decide +kernel
  exact ⟨h, parse_render_iff.2 _ e h⟩

end LoopBounds
