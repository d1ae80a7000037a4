import LoopBounds.Proofs.Text.Rendering

namespace LoopBounds

open Text

theorem map_eq_map_iff_of_iff {α β γ : Type} {f : α → β} {g : α → γ} {l m : List α}
    (h : ∀ a ∈ l, ∀ b ∈ m, f a = f b ↔ g a = g b) : l.map f = m.map f ↔ l.map g = m.map g := by
  induction l generalizing m with
  | nil => cases m <;> simp only [List.map_nil, List.map_cons, reduceCtorEq]
  | cons a l ih =>
    cases m with
    | nil => simp only [List.map_nil, List.map_cons, reduceCtorEq]
    | cons b m =>
      have ha := h a List.mem_cons_self b List.mem_cons_self
      have hl := ih fun a ha b hb => h a (List.mem_cons_of_mem _ ha) b (List.mem_cons_of_mem _ hb)
      simp only [List.map_cons, List.cons.injEq, ha, hl]

theorem flatMap_line_inj {ls ms : List String} (hl : ∀ s ∈ ls, '\n' ∉ s.toList)
    (hm : ∀ s ∈ ms, '\n' ∉ s.toList) :
    ls.flatMap (fun s => s.toList ++ ['\n']) = ms.flatMap (fun s => s.toList ++ ['\n']) ↔
      ls = ms := by
  induction ls generalizing ms with
  | nil =>
    cases ms with
    | nil => simp only
    | cons t ms =>
      simp only [List.flatMap_cons, List.flatMap_nil, List.append_assoc, List.singleton_append,
        List.nil_eq, List.append_eq_nil_iff, reduceCtorEq, and_false]
  | cons s ls ih =>
    cases ms with
    | nil =>
      simp only [List.flatMap_cons, List.flatMap_nil, List.append_assoc, List.singleton_append,
        List.append_eq_nil_iff, reduceCtorEq, and_false]
    | cons t ms =>
      rw [List.forall_mem_cons] at hl hm
      simp only [List.flatMap_cons, List.append_assoc, List.singleton_append]
      rw [append_cons_inj hl.1 hm.1, String.toList_inj, ih hl.2 hm.2, List.cons.injEq]

namespace Problem

variable {p q : Problem}

def shown (p : Problem) : Problem :=
  { p with pending := p.pending.map Constraint.shown }

theorem shown_of_no_greaterThan (h : ∀ c ∈ p.pending, c.op ≠ .greaterThan) : p.shown = p := by
  have hc : ∀ c ∈ p.pending, c.shown = c := fun c hc => Constraint.shown_eq_self_iff.mpr (h c hc)
  exact congrArg (Problem.mk _) ((List.map_congr_left hc).trans (List.map_id _))

theorem render_toList (p : Problem) :
    p.render.toList = p.lines.flatMap fun s => s.toList ++ ['\n'] := by
  simp only [render, String.toList_join, List.flatMap_map, String.toList_append]
  rfl

theorem WellNamed.newline_notMem (h : p.WellNamed) : ∀ s ∈ p.lines, '\n' ∉ s.toList := by
  intro s hs
  simp only [lines, List.mem_append, List.mem_cons, List.mem_map, List.not_mem_nil, or_false] at hs
  rcases hs with ((rfl | ⟨r, hr, rfl⟩) | rfl | ⟨c, hc, rfl⟩) | rfl
  · decide
  · exact (h.1 r hr).newline_notMem
  · decide
  · exact (h.2 c hc).newline_notMem
  · decide

/-- The line between the two lists is not one of the ranges, for it holds no space. -/
theorem header_notMem (p : Problem) : "constraints:" ∉ "ranges:" :: p.solved.map Range.render := by
  rw [List.mem_cons, not_or]
  refine ⟨by decide, ?_⟩
  intro h
  obtain ⟨r, -, hr⟩ := List.mem_map.mp h
  have hs := r.space_mem_render
  rw [hr] at hs
  exact absurd hs (by decide)

theorem lines_inj :
    p.lines = q.lines ↔ p.solved.map Range.render = q.solved.map Range.render ∧
      p.pending.map Constraint.render = q.pending.map Constraint.render := by
  rw [lines, lines, List.append_left_inj, append_cons_inj p.header_notMem q.header_notMem,
    List.cons.injEq, eq_self_iff_true, true_and]

theorem WellNamed.render_inj (hp : p.WellNamed) (hq : q.WellNamed) :
    p.render = q.render ↔ p.shown = q.shown := by
  have hr : p.solved.map Range.render = q.solved.map Range.render ↔
      p.solved.map id = q.solved.map id :=
    map_eq_map_iff_of_iff fun r hr s hs => (hp.1 r hr).render_inj (hq.1 s hs)
  have hc : p.pending.map Constraint.render = q.pending.map Constraint.render ↔
      p.pending.map Constraint.shown = q.pending.map Constraint.shown :=
    map_eq_map_iff_of_iff fun c hc d hd => (hp.2 c hc).render_eq_iff (hq.2 d hd)
  rw [← String.toList_inj, render_toList, render_toList,
    flatMap_line_inj hp.newline_notMem hq.newline_notMem, lines_inj, hr, hc, List.map_id,
    List.map_id, shown, shown, mk.injEq]

/-- A dump tells everything about a problem but the direction of its strict orders. -/
theorem render_eq_iff_shown_eq (hp : p.WellNamed) (hq : q.WellNamed) :
    (p.render = q.render ↔ p.shown = q.shown) ∧
      ((∀ c ∈ p.pending, c.op ≠ .greaterThan) → (∀ c ∈ q.pending, c.op ≠ .greaterThan) →
        p.render = q.render → p = q) := by
  refine ⟨hp.render_inj hq, ?_⟩
  intro hp' hq' h
  have hs := (hp.render_inj hq).mp h
  rwa [shown_of_no_greaterThan hp', shown_of_no_greaterThan hq'] at hs

theorem render_eq_iff_shown_eq_strict :
    let i : Range := ⟨"i", .const 0, .binary .subtract (.param "N") (.const 1)⟩
    let above : Problem := ⟨[i], [⟨.var "i", .greaterThan, .const 0⟩]⟩
    let below : Problem := ⟨[i], [⟨.var "i", .lessThan, .const 0⟩]⟩
    let upTo : Problem := ⟨[i], [⟨.var "i", .lessOrEqual, .const 0⟩]⟩
    above.WellNamed ∧ below.WellNamed ∧ upTo.WellNamed ∧ above.render = below.render ∧
      below.render ≠ upTo.render := by
  intro i above below upTo
  have ha : above.WellNamed := by decide +kernel
  have hb : below.WellNamed := by decide +kernel
  have hu : upTo.WellNamed := by decide +kernel
  refine ⟨ha, hb, hu, (render_eq_iff_shown_eq ha hb).1.mpr rfl, ?_⟩
  intro h
  exact absurd ((render_eq_iff_shown_eq hb hu).2 (by decide) (by decide) h) (by decide)

end Problem

end LoopBounds
