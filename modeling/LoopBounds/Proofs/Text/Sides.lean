import LoopBounds.Proofs.Text.Machine

namespace LoopBounds.Text

/-- A constraint read in part: some of its left side, or all of that and some of the right side. -/
inductive Sides where
  | left (r : Reader)
  | right (a : Expr Numeral) (op : CmpOp) (r : Reader)

namespace Sides

def step : Sides → Token → Option Sides
  | left r, .compare op => r.result?.map fun a => right a op .start
  | left r, t => (r.step t).map left
  | right a op r, t => (r.step t).map (right a op)

def result? : Sides → Option (Constraint Numeral)
  | left _ => none
  | right a op r => r.result?.map fun b => ⟨a, op, b⟩

def expected : Sides → List Expectation
  | left r => r.expected .comparison
  | right _ _ r => r.expected .endOfText

end Sides

def constraintMachine : Machine Sides (Constraint Numeral) :=
  ⟨.left .start, Sides.step, Sides.result?, Sides.expected⟩

namespace Sides

variable {r r' : Reader} {t : Token} {ts : List Token} {a : Expr Numeral} {op : CmpOp}

theorem step_left_of_ne (r : Reader) (ht : ∀ op, t ≠ .compare op) :
    step (left r) t = (r.step t).map left := by
  cases t with
  | compare op => exact absurd rfl (ht op)
  | _ => rfl

theorem step_left (h : r.step t = some r') : step (left r) t = some (left r') := by
  have ht : ∀ op, t ≠ .compare op := by
    rintro op rfl
    rw [Reader.step_compare] at h
    cases h
  rw [step_left_of_ne r ht, h]
  rfl

theorem feed_of_step {side : Reader → Sides}
    (hside : ∀ {r r' t}, r.step t = some r' → constraintMachine.step (side r) t = some (side r'))
    (h : feed Reader.step r ts = some r') :
    feed constraintMachine.step (side r) ts = some (side r') := by
  induction ts generalizing r with
  | nil =>
    cases h
    rfl
  | cons t ts ih =>
    obtain ⟨next, hn, hf⟩ := feed_cons_eq_some_iff.mp h
    rw [feed_cons, hside hn]
    exact ih hf

theorem feed_left (h : feed Reader.step r ts = some r') :
    feed constraintMachine.step (left r) ts = some (left r') :=
  feed_of_step step_left h

theorem feed_right (h : feed Reader.step r ts = some r') :
    feed constraintMachine.step (right a op r) ts = some (right a op r') :=
  feed_of_step (fun hn => congrArg (Option.map _) hn) h

theorem feed_compare (h : feed Reader.step r ts = some r') (ha : r'.result? = some a) (op : CmpOp)
    (us : List Token) :
    feed constraintMachine.step (left r) (ts ++ .compare op :: us) =
      feed constraintMachine.step (right a op .start) us := by
  have hs : constraintMachine.step (left r') (.compare op) = some (right a op .start) :=
    congrArg (Option.map _) ha
  rw [feed_append, feed_left h, Option.bind_some, feed_cons, hs, Option.bind_some]

theorem completes (s : Sides) :
    ∃ ts, (∀ t ∈ ts, t.IsProper) ∧ constraintMachine.Accepts s ts := by
  cases s with
  | left r =>
    obtain ⟨ts, r', ht, hf, hr⟩ := r.completes
    obtain ⟨a, ha⟩ := Option.isSome_iff_exists.mp hr
    obtain ⟨us, s', hu, hf', hs'⟩ := Reader.start.completes
    refine ⟨ts ++ .compare .lessThan :: us, ?_, right a .lessThan s', ?_, ?_⟩
    · exact List.forall_mem_append.mpr ⟨ht, List.forall_mem_cons.mpr ⟨trivial, hu⟩⟩
    · rw [feed_compare hf ha, feed_right hf']
    · exact Option.isSome_map.trans hs'
  | right a op r =>
    obtain ⟨ts, r', ht, hf, hr⟩ := r.completes
    exact ⟨ts, ht, right a op r', feed_right hf, Option.isSome_map.trans hr⟩

theorem step_eq_none_of_sameKind {u : Token} (s : Sides) (h : t.SameKind u)
    (ht : s.step t = none) : s.step u = none := by
  have hmap {r : Reader} {f : Reader → Sides} (hr : (r.step t).map f = none) :
      (r.step u).map f = none :=
    Option.map_eq_none_iff.mpr (r.step_eq_none_of_sameKind h (Option.map_eq_none_iff.mp hr))
  cases s with
  | left r =>
    cases h with
    | refl => exact ht
    | compare => exact Option.map_eq_none_iff.mpr (Option.map_eq_none_iff.mp ht)
    | numeral | param | var => exact hmap ht
  | right a op r => exact hmap ht

end Sides

theorem constraintMachine_isExact : constraintMachine.IsExact where
  stray s c := by
    cases s with
    | left r | right a op r => exact congrArg (Option.map _) (r.step_stray c)
  kind s _ _ := s.step_eq_none_of_sameKind
  completes := Sides.completes
  endOfText s := by
    cases s with
    | left r =>
      refine (r.endOfText_mem_expected .comparison).trans ?_
      exact iff_of_false (fun h => nomatch h.1) (fun h => nomatch h)
    | right a op r =>
      refine (r.endOfText_mem_expected .endOfText).trans ((and_iff_right rfl).trans ?_)
      exact Bool.coe_iff_coe.mpr Option.isSome_map.symm
  arith s op := by
    cases s with
    | left r =>
      refine (r.arith_mem_expected .comparison op).trans ?_
      exact Bool.coe_iff_coe.mpr Option.isSome_map.symm
    | right a op' r =>
      refine (r.arith_mem_expected .endOfText op).trans ?_
      exact Bool.coe_iff_coe.mpr Option.isSome_map.symm
  compare s op := by
    cases s with
    | left r =>
      refine (r.compare_mem_expected .comparison op).trans ((and_iff_right rfl).trans ?_)
      exact Bool.coe_iff_coe.mpr Option.isSome_map.symm
    | right a op' r =>
      have hs : constraintMachine.step (.right a op' r) (.compare op) = none :=
        congrArg (Option.map _) (r.step_compare op)
      rw [hs]
      refine (r.compare_mem_expected .endOfText op).trans ?_
      exact iff_of_false (fun h => nomatch h.1) (fun h => nomatch h)
  operand s x := by
    cases s with
    | left r =>
      refine (r.operand_mem_expected .comparison x).trans ?_
      exact Bool.coe_iff_coe.mpr Option.isSome_map.symm
    | right a op r =>
      refine (r.operand_mem_expected .endOfText x).trans ?_
      exact Bool.coe_iff_coe.mpr Option.isSome_map.symm

theorem readConstraint_accepts {ls : List Lexeme} {c : Constraint Numeral}
    (h : readConstraint ls = .ok c) :
    constraintMachine.Accepts (.left .start) (ls.map Lexeme.token) := by
  have hc := readConstraint_eq_ok_iff.mp h
  generalize ls.map Lexeme.token = ts at hc
  cases hc with | @compare ts us a b op ha hb
  obtain ⟨r, hf, hr⟩ := isSum_iff_feed.mp ha
  obtain ⟨s, hf', hs⟩ := isSum_iff_feed.mp hb
  refine ⟨.right a op s, ?_, ?_⟩
  · exact (Sides.feed_compare hf hr op _).trans (Sides.feed_right hf')
  · exact Option.isSome_map.trans (Option.isSome_iff_exists.mpr ⟨_, hs⟩)

theorem readConstraint_stops {ls : List Lexeme} {x : Refusal} (h : readConstraint ls = .error x) :
    constraintMachine.Stops ls x := by
  cases hr : Reader.start.run ls with | mk r left
  obtain ⟨read, rfl, hf, hstop⟩ := Reader.run_eq_iff.mp hr
  rcases readConstraint_cases hr with ⟨op, here, right, a, rfl, ha, hc⟩ | ⟨hn, hc⟩
  · rw [hc] at h
    have hb : readExpr right = .error x := by
      cases hb : readExpr right with
      | ok b =>
        rw [hb] at h
        cases h
      | error y =>
        rw [hb] at h
        cases h
        rfl
    obtain ⟨read', left, s, rfl, hf', hstop', hend, rfl⟩ := readExpr_stops hb
    refine ⟨read ++ ⟨.compare op, here⟩ :: read', left, .right a op s, ?_, ?_, ?_, ?_, rfl⟩
    · rw [List.append_assoc, List.cons_append]
    · rw [List.map_append, List.map_cons]
      exact (Sides.feed_compare hf ha op _).trans (Sides.feed_right hf')
    · intro l hl
      exact congrArg (Option.map _) (hstop' l hl)
    · intro hl
      exact congrArg (Option.map _) (hend hl)
  · rw [hc] at h
    cases h
    refine ⟨read, left, .left r, rfl, Sides.feed_left hf, ?_, fun _ => rfl, rfl⟩
    intro l hl
    by_cases ht : ∃ op, l.token = .compare op
    · obtain ⟨op, ht⟩ := ht
      have ha : r.result? = none :=
        Option.eq_none_iff_forall_ne_some.mpr fun a ha => hn a ha l hl op ht
      rw [ht]
      exact congrArg (Option.map _) ha
    · have hs := Sides.step_left_of_ne r fun op hop => ht ⟨op, hop⟩
      exact hs.trans (congrArg (Option.map _) (hstop l hl))

end LoopBounds.Text
