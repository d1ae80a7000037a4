import LoopBounds.Proofs.Text.RoundTrip
import Mathlib.Data.List.Nodup

namespace LoopBounds

open Text

/-- The operator that a dump makes of it: the two strict orders look alike there. -/
def CmpOp.shown : CmpOp → CmpOp
  | .greaterThan => .lessThan
  | op => op

def Constraint.shown {κ : Type} (c : Constraint κ) : Constraint κ :=
  { c with op := c.op.shown }

/-- No character begins a blank or a comment. -/
def NoGap (text : List Char) : Prop :=
  ∀ c ∈ text, ¬ startsGap c

instance (text : List Char) : Decidable (NoGap text) :=
  List.decidableBAll _ text

theorem NoGap.space_notMem {text : List Char} (h : NoGap text) : ' ' ∉ text :=
  fun hc => h ' ' hc (by decide)

theorem NoGap.newline_notMem {text : List Char} (h : NoGap text) : '\n' ∉ text :=
  fun hc => h '\n' hc (by decide)

theorem append_cons_inj_of {α : Type} {P : α → Prop} {a b : α} {x y s t : List α}
    (hx : ∀ d ∈ x, ¬ P d) (hy : ∀ d ∈ y, ¬ P d) (ha : P a) (hb : P b) :
    x ++ a :: s = y ++ b :: t ↔ x = y ∧ a = b ∧ s = t := by
  induction x generalizing y with
  | nil =>
    cases y with
    | nil => simp only [List.nil_append, List.cons.injEq, true_and]
    | cons d y =>
      simp only [List.nil_append, List.cons_append, List.cons.injEq, reduceCtorEq, false_and,
        iff_false, not_and]
      rintro rfl
      exact absurd ha (hy a List.mem_cons_self)
  | cons d x ih =>
    have ⟨hd, hx⟩ := List.forall_mem_cons.mp hx
    cases y with
    | nil =>
      simp only [List.nil_append, List.cons_append, List.cons.injEq, reduceCtorEq, false_and,
        iff_false, not_and]
      rintro rfl
      exact absurd hb hd
    | cons c y =>
      have ⟨hc, hy⟩ := List.forall_mem_cons.mp hy
      simp only [List.cons_append, List.cons.injEq, ih hx hy, and_assoc]

theorem append_cons_inj {α : Type} {a : α} {x y s t : List α} (hx : a ∉ x) (hy : a ∉ y) :
    x ++ a :: s = y ++ a :: t ↔ x = y ∧ s = t := by
  have h := append_cons_inj_of (P := (· = a)) (s := s) (t := t) (fun _ hd he => hx (he ▸ hd))
    (fun _ hd he => hy (he ▸ hd)) rfl rfl
  rwa [eq_self_iff_true, true_and] at h

theorem IsName.noGap {x : String} (h : IsName x) : NoGap x.toList := by
  intro c hc
  exact not_startsGap_of_isNameChar (List.all_eq_true.mp h.2 c hc)

theorem Text.Token.IsProper.noGap {t : Token} (h : t.IsProper) : NoGap t.spelling := by
  cases t with
  | numeral n =>
    intro c hc
    exact not_startsGap_of_isNameChar (isNameChar_of_isDigit (h.2 c hc))
  | param x => exact List.forall_mem_cons.mpr ⟨by decide, IsName.noGap h⟩
  | var x => exact IsName.noGap h
  | arith op => cases op <;> decide
  | compare op => cases op <;> decide
  | opening | closing => decide
  | stray => exact h.elim

theorem Expr.WellNamed.noGap {e : Expr Value} (h : e.WellNamed) : NoGap e.render.toList := by
  intro c hc
  rw [render_toList] at hc
  obtain ⟨t, ht, hc⟩ := List.mem_flatMap.mp hc
  exact (h.isProper t ht).noGap c hc

theorem Expr.WellNamed.render_inj {e f : Expr Value} (he : e.WellNamed) (hf : f.WellNamed) :
    e.render = f.render ↔ e = f := by
  constructor
  · intro h
    have hp := he.parse_render
    rw [h, hf.parse_render] at hp
    exact (Except.ok.inj hp).symm
  · rintro rfl
    rfl

namespace CmpOp

variable {op op' : CmpOp}

theorem mem_all (op : CmpOp) : op ∈ all := by
  cases op <;> decide

theorem spelling_inj : op.spelling = op'.spelling ↔ op = op' := by
  constructor
  · have hn : (all.map spelling).Nodup := by decide
    exact List.inj_on_of_nodup_map hn (mem_all op) (mem_all op')
  · rintro rfl
    rfl

theorem symbol_eq_spelling_shown (op : CmpOp) : op.symbol = op.shown.spelling := by
  cases op <;> rfl

theorem shown_eq_self_iff : op.shown = op ↔ op ≠ .greaterThan := by
  cases op <;> decide

theorem symbol_eq_iff : op.symbol = op'.symbol ↔ op.shown = op'.shown := by
  rw [symbol_eq_spelling_shown, symbol_eq_spelling_shown, spelling_inj]

theorem noGap_symbol (op : CmpOp) : NoGap op.symbol.toList := by
  cases op <;> decide

end CmpOp

namespace Constraint

variable {c d : Constraint Value}

theorem shown_eq_self_iff : c.shown = c ↔ c.op ≠ .greaterThan := by
  rw [← CmpOp.shown_eq_self_iff]
  exact ⟨congrArg Constraint.op, congrArg (Constraint.mk c.left · c.right)⟩

theorem render_toList (c : Constraint Value) :
    c.render.toList = c.left.render.toList ++ ' ' :: (c.op.symbol.toList ++
      ' ' :: c.right.render.toList) := by
  simp only [render, String.toList_append, List.append_assoc]
  rfl

theorem WellNamed.render_eq_iff (hc : c.WellNamed) (hd : d.WellNamed) :
    c.render = d.render ↔ c.shown = d.shown := by
  rw [← String.toList_inj, render_toList, render_toList,
    append_cons_inj hc.1.noGap.space_notMem hd.1.noGap.space_notMem,
    append_cons_inj c.op.noGap_symbol.space_notMem d.op.noGap_symbol.space_notMem,
    String.toList_inj, String.toList_inj, String.toList_inj, hc.1.render_inj hd.1,
    hc.2.render_inj hd.2, CmpOp.symbol_eq_iff]
  simp only [shown, mk.injEq]

theorem WellNamed.newline_notMem (h : c.WellNamed) : '\n' ∉ c.render.toList := by
  simp only [render_toList, List.mem_append, List.mem_cons, not_or]
  exact ⟨h.1.noGap.newline_notMem, by decide, c.op.noGap_symbol.newline_notMem, by decide,
    h.2.noGap.newline_notMem⟩

end Constraint

namespace Range

variable {r s : Range}

theorem render_toList (r : Range) :
    r.render.toList = r.low.render.toList ++ ' ' :: (['<', '='] ++ ' ' :: (r.name.toList ++
      ' ' :: (['<'] ++ ' ' :: r.up.render.toList))) := by
  simp only [render, String.toList_append, List.append_assoc]
  rfl

theorem WellNamed.render_inj (hr : r.WellNamed) (hs : s.WellNamed) :
    r.render = s.render ↔ r = s := by
  obtain ⟨hx, hl, hu⟩ := hr
  obtain ⟨hx', hl', hu'⟩ := hs
  rw [← String.toList_inj, render_toList, render_toList,
    append_cons_inj hl.noGap.space_notMem hl'.noGap.space_notMem,
    append_cons_inj (by decide) (by decide),
    append_cons_inj hx.noGap.space_notMem hx'.noGap.space_notMem,
    append_cons_inj (by decide) (by decide),
    String.toList_inj, String.toList_inj, String.toList_inj, hl.render_inj hl', hu.render_inj hu']
  cases r
  cases s
  simp only [mk.injEq, true_and, and_left_comm]

theorem WellNamed.newline_notMem (h : r.WellNamed) : '\n' ∉ r.render.toList := by
  obtain ⟨hx, hl, hu⟩ := h
  simp only [render_toList, List.mem_append, List.mem_cons, List.not_mem_nil, not_or, or_false]
  exact ⟨hl.noGap.newline_notMem, by decide, by decide, by decide, hx.noGap.newline_notMem,
    by decide, by decide, by decide, hu.noGap.newline_notMem⟩

theorem space_mem_render (r : Range) : ' ' ∈ r.render.toList := by
  rw [render_toList]
  exact List.mem_append_right _ List.mem_cons_self

end Range

end LoopBounds
