import LoopBounds.Text.Derivation
import LoopBounds.Text.Reader

namespace LoopBounds.Text

section

variable {σ : Type} (step : σ → Token → Option σ) (s : σ) {s' : σ} {t : Token} {ts : List Token}

/-- Takes in all the tokens, unless one of them cannot stand in its place. -/
def feed (ts : List Token) : Option σ :=
  ts.foldlM step s

theorem feed_cons (t : Token) (ts : List Token) :
    feed step s (t :: ts) = (step s t).bind (feed step · ts) :=
  List.foldlM_cons

theorem feed_append (ts us : List Token) :
    feed step s (ts ++ us) = (feed step s ts).bind (feed step · us) :=
  List.foldlM_append

variable {step s}

theorem feed_cons_eq_some_iff :
    feed step s (t :: ts) = some s' ↔
      ∃ next, step s t = some next ∧ feed step next ts = some s' := by
  rw [feed_cons, Option.bind_eq_some_iff]

/-- Every token that is taken in is taken in by some step. -/
theorem exists_step_of_feed (h : feed step s ts = some s') (ht : t ∈ ts) :
    ∃ s₁ s₂, step s₁ t = some s₂ := by
  induction ts generalizing s with
  | nil => cases ht
  | cons u ts ih =>
    obtain ⟨next, hn, hf⟩ := feed_cons_eq_some_iff.mp h
    cases ht with
    | head => exact ⟨s, next, hn⟩
    | tail _ ht => exact ih hf ht

theorem notMem_of_feed (hn : ∀ s, step s t = none) (h : feed step s ts = some s') : t ∉ ts := by
  intro ht
  obtain ⟨s₁, s₂, hs⟩ := exists_step_of_feed h ht
  rw [hn] at hs
  cases hs

end

/-- The tokens are a sum or difference that lacks its last term, or none at all. -/
inductive LeadsSum : Option (Expr Numeral × ArithOp) → List Token → Prop
  | none : LeadsSum none []
  | add {ts e} : IsSum ts e → LeadsSum (some (e, .add)) (ts ++ [.arith .add])
  | subtract {ts e} : IsSum ts e → LeadsSum (some (e, .subtract)) (ts ++ [.arith .subtract])

inductive LeadsProduct : Option (Expr Numeral) → List Token → Prop
  | none : LeadsProduct none []
  | multiply {ts e} : IsProduct ts e → LeadsProduct (some e) (ts ++ [.arith .multiply])

def Pending.Leads (p : Pending) (ts : List Token) : Prop :=
  ∃ us vs, ts = us ++ vs ∧ LeadsSum p.sum us ∧ LeadsProduct p.product vs

/-- The tokens lead up to the innermost of the parentheses that are still open. -/
inductive Opens : List Pending → List Token → Prop
  | nil : Opens [] []
  | cons {p outer ts us} : Opens outer ts → p.Leads us →
      Opens (p :: outer) (ts ++ us ++ [.opening])

/-- The reader holds what the tokens say. -/
def Reader.HasRead : Reader → List Token → Prop
  | operand outer p, ts => ∃ us vs, ts = us ++ vs ∧ Opens outer us ∧ p.Leads vs
  | operator outer p e, ts =>
    ∃ us vs ws, ts = us ++ (vs ++ ws) ∧ Opens outer us ∧ p.Leads vs ∧ IsFactor ws e

variable {ts us : List Token} {t : Token} {e : Expr Numeral} {p : Pending} {r r' : Reader}
  {ls rest : List Lexeme}

namespace Reader

theorem run_append (h : feed step r (ls.map Lexeme.token) = some r') :
    r.run (ls ++ rest) = r'.run rest := by
  induction ls generalizing r with
  | nil =>
    cases h
    rfl
  | cons l ls ih =>
    obtain ⟨next, hn, hf⟩ := feed_cons_eq_some_iff.mp h
    rw [List.cons_append, run, hn]
    exact ih hf

/-- A run takes in what it can, up to the first token that cannot stand in its place. -/
theorem run_eq_iff :
    r.run ls = (r', rest) ↔
      ∃ read, ls = read ++ rest ∧ feed step r (read.map Lexeme.token) = some r' ∧
        ∀ l ∈ rest.head?, r'.step l.token = none := by
  constructor
  · intro h
    induction ls generalizing r with
    | nil =>
      cases h
      exact ⟨[], rfl, rfl, fun _ h => nomatch h⟩
    | cons l ls ih =>
      rw [run] at h
      cases hs : r.step l.token with
      | none =>
        simp only [hs] at h
        cases h
        refine ⟨[], rfl, rfl, ?_⟩
        rintro _ ⟨⟩
        exact hs
      | some next =>
        simp only [hs] at h
        obtain ⟨read, rfl, hf, hstop⟩ := ih h
        refine ⟨l :: read, rfl, ?_, hstop⟩
        rw [List.map_cons, feed_cons, hs]
        exact hf
  · rintro ⟨read, rfl, hf, hstop⟩
    rw [run_append hf]
    cases rest with
    | nil => rfl
    | cons l rest => rw [run, hstop l rfl]

end Reader

open Reader

-- By induction on the derivation, for any surrounding parentheses: `parens` opens one more.
mutual

theorem IsSum.feed_eq {ts : List Token} {e : Expr Numeral} : IsSum ts e → ∀ outer,
    ∃ p f, feed step (operand outer .empty) ts = some (operator outer p f) ∧ p.close f = e
  | .product h, outer => by
    obtain ⟨q, f, hf, he⟩ := IsProduct.feed_eq h outer none
    exact ⟨⟨none, q⟩, f, hf, he⟩
  | .add ha hb, outer => by
    obtain ⟨p, f, hf, rfl⟩ := IsSum.feed_eq ha outer
    obtain ⟨q, g, hg, rfl⟩ := IsProduct.feed_eq hb outer (some (p.close f, .add))
    refine ⟨⟨some (p.close f, .add), q⟩, g, ?_, rfl⟩
    rw [feed_append, hf, Option.bind_some, feed_cons]
    exact hg
  | .subtract ha hb, outer => by
    obtain ⟨p, f, hf, rfl⟩ := IsSum.feed_eq ha outer
    obtain ⟨q, g, hg, rfl⟩ := IsProduct.feed_eq hb outer (some (p.close f, .subtract))
    refine ⟨⟨some (p.close f, .subtract), q⟩, g, ?_, rfl⟩
    rw [feed_append, hf, Option.bind_some, feed_cons]
    exact hg

theorem IsProduct.feed_eq {ts : List Token} {e : Expr Numeral} : IsProduct ts e → ∀ outer sum,
    ∃ q f, feed step (operand outer ⟨sum, none⟩) ts = some (operator outer ⟨sum, q⟩ f) ∧
      Pending.closeProduct ⟨sum, q⟩ f = e
  | .factor h, outer, _ => ⟨none, e, IsFactor.feed_eq h outer _, rfl⟩
  | .multiply (b := b) ha hb, outer, sum => by
    obtain ⟨q, f, hf, rfl⟩ := IsProduct.feed_eq ha outer sum
    refine ⟨some (Pending.closeProduct ⟨sum, q⟩ f), b, ?_, rfl⟩
    rw [feed_append, hf, Option.bind_some, feed_cons]
    exact IsFactor.feed_eq hb outer _

theorem IsFactor.feed_eq {ts : List Token} {e : Expr Numeral} : IsFactor ts e → ∀ outer p,
    feed step (operand outer p) ts = some (operator outer p e)
  | .numeral _, _, _ => rfl
  | .param _, _, _ => rfl
  | .var _, _, _ => rfl
  | .parens h, outer, p => by
    obtain ⟨q, f, hf, rfl⟩ := IsSum.feed_eq h (p :: outer)
    rw [List.cons_append, feed_cons, step, Option.bind_some, feed_append, hf]
    rfl

end

theorem Pending.leads_empty : Pending.empty.Leads [] :=
  ⟨[], [], rfl, .none, .none⟩

theorem LeadsProduct.close (h : LeadsProduct p.product ts) (hf : IsFactor us e) :
    IsProduct (ts ++ us) (p.closeProduct e) := by
  obtain ⟨sum, product⟩ := p
  cases h with
  | none => exact .factor hf
  | multiply h =>
    rw [List.append_assoc]
    exact .multiply h hf

theorem Pending.Leads.close (h : p.Leads ts) (hf : IsFactor us e) :
    IsSum (ts ++ us) (p.close e) := by
  obtain ⟨ts, vs, rfl, hs, hp⟩ := h
  have hc := hp.close hf
  obtain ⟨sum, product⟩ := p
  rw [List.append_assoc]
  cases hs with
  | none => exact .product hc
  | add h =>
    rw [List.append_assoc]
    exact .add h hc
  | subtract h =>
    rw [List.append_assoc]
    exact .subtract h hc

theorem Pending.Leads.push (h : p.Leads ts) (hf : IsFactor us e) (op : ArithOp) :
    (p.push e op).Leads (ts ++ us ++ [.arith op]) := by
  cases op with
  | add => exact ⟨_, [], (List.append_nil _).symm, .add (h.close hf), .none⟩
  | subtract => exact ⟨_, [], (List.append_nil _).symm, .subtract (h.close hf), .none⟩
  | multiply =>
    obtain ⟨ts, vs, rfl, hs, hp⟩ := h
    have hv : LeadsProduct (p.push e .multiply).product (vs ++ us ++ [.arith .multiply]) :=
      .multiply (hp.close hf)
    refine ⟨ts, _, ?_, hs, hv⟩
    simp only [List.append_assoc]

theorem Reader.HasRead.start : start.HasRead [] :=
  ⟨[], [], rfl, .nil, Pending.leads_empty⟩

theorem Reader.HasRead.factor {outer : List Pending}
    (h : (operand outer p).HasRead ts) (hf : IsFactor us e) :
    (operator outer p e).HasRead (ts ++ us) := by
  obtain ⟨ts, vs, rfl, ho, hp⟩ := h
  exact ⟨ts, vs, us, List.append_assoc ts vs us, ho, hp, hf⟩

theorem Reader.HasRead.step (h : r.HasRead ts) (hs : r.step t = some r') :
    r'.HasRead (ts ++ [t]) := by
  fun_cases Reader.step r t with
  | case1 outer p n =>
    cases hs
    exact h.factor (.numeral n)
  | case2 outer p x =>
    cases hs
    exact h.factor (.param x)
  | case3 outer p x =>
    cases hs
    exact h.factor (.var x)
  | case4 outer p =>
    cases hs
    obtain ⟨us, vs, rfl, ho, hp⟩ := h
    exact ⟨_, [], (List.append_nil _).symm, .cons ho hp, Pending.leads_empty⟩
  | case5 outer p e op =>
    cases hs
    obtain ⟨us, vs, ws, rfl, ho, hp, hf⟩ := h
    exact ⟨us, vs ++ ws ++ [.arith op], List.append_assoc _ _ _, ho, hp.push hf op⟩
  | case6 q outer p e =>
    cases hs
    obtain ⟨_, vs, ws, rfl, ho, hp, hf⟩ := h
    cases ho with | cons ho hq
    -- What stood between the parentheses becomes the factor that `q` waits for.
    have hpar := IsFactor.parens (hp.close hf)
    refine ⟨_, _, _, ?_, ho, hq, hpar⟩
    simp only [List.append_assoc, List.cons_append, List.nil_append]
  | case7 => simp only [Reader.step, reduceCtorEq] at hs

theorem Reader.HasRead.feed (h : r.HasRead ts) (hf : feed Reader.step r us = some r') :
    r'.HasRead (ts ++ us) := by
  induction us generalizing r ts with
  | nil =>
    cases hf
    rwa [List.append_nil]
  | cons t us ih =>
    obtain ⟨next, hn, hf⟩ := feed_cons_eq_some_iff.mp hf
    have := ih (h.step hn) hf
    rwa [List.append_assoc] at this

theorem Reader.HasRead.result (h : r.HasRead ts) (he : r.result? = some e) : IsSum ts e := by
  cases r with
  | operand => cases he
  | operator outer p f =>
    cases outer with
    | cons => cases he
    | nil =>
      cases he
      obtain ⟨_, vs, ws, rfl, ⟨⟩, hp, hf⟩ := h
      exact hp.close hf

/-- The reader accepts what the grammar derives, and with the same expression. -/
theorem isSum_iff_feed :
    IsSum ts e ↔ ∃ r, feed step start ts = some r ∧ r.result? = some e := by
  constructor
  · intro h
    obtain ⟨p, f, hf, rfl⟩ := h.feed_eq []
    exact ⟨operator [] p f, hf, rfl⟩
  · rintro ⟨r, hf, he⟩
    exact (HasRead.start.feed hf).result he

theorem readExpr_eq_ok_iff : readExpr ls = .ok e ↔ IsSum (ls.map Lexeme.token) e := by
  rw [isSum_iff_feed]
  constructor
  · intro h
    cases hr : start.run ls with | mk r rest
    obtain ⟨read, rfl, hf, -⟩ := run_eq_iff.mp hr
    rw [readExpr, hr] at h
    dsimp only at h
    split at h
    next he =>
      cases h
      rw [List.append_nil]
      exact ⟨r, hf, he⟩
    next => cases h
  · rintro ⟨r, hf, he⟩
    have hr : start.run ls = (r, []) :=
      run_eq_iff.mpr ⟨ls, (List.append_nil ls).symm, hf, fun _ h => nomatch h⟩
    simp only [readExpr, hr, he]

theorem Reader.step_compare (r : Reader) (op : CmpOp) : r.step (.compare op) = none := by
  cases r with
  | operand => rfl
  | operator outer => cases outer <;> rfl

/-- A constraint is read on behind a comparison with a complete left side in front of it. -/
theorem readConstraint_cases (hr : start.run ls = (r, rest)) :
    (∃ op here right left, rest = ⟨.compare op, here⟩ :: right ∧ r.result? = some left ∧
        readConstraint ls = (readExpr right).map fun e => ⟨left, op, e⟩) ∨
      (∀ left, r.result? = some left → ∀ l ∈ rest.head?, ∀ op, l.token ≠ .compare op) ∧
        readConstraint ls = .error (r.refusal rest .comparison) := by
  rw [readConstraint, hr]
  dsimp only
  split
  next op here right left he => exact .inl ⟨op, here, right, left, rfl, he, rfl⟩
  next hne =>
    refine .inr ⟨?_, rfl⟩
    rintro left he ⟨_, here⟩ hl op rfl
    obtain ⟨right, rfl⟩ := List.head?_eq_some_iff.mp hl
    exact hne op here right left rfl he

theorem readConstraint_append {op : CmpOp} {here : List Char} (h : IsSum (ls.map Lexeme.token) e) :
    readConstraint (ls ++ ⟨.compare op, here⟩ :: rest) =
      (readExpr rest).map fun right => ⟨e, op, right⟩ := by
  obtain ⟨r, hf, he⟩ := isSum_iff_feed.mp h
  have hr : start.run (ls ++ ⟨.compare op, here⟩ :: rest) = (r, ⟨.compare op, here⟩ :: rest) := by
    refine run_eq_iff.mpr ⟨ls, rfl, hf, ?_⟩
    rintro _ ⟨⟩
    exact step_compare r op
  simp only [readConstraint, hr, he]

theorem IsConstraint.exists_sides {c : Constraint Numeral}
    (h : IsConstraint (ls.map Lexeme.token) c) :
    ∃ left here right, ls = left ++ ⟨.compare c.op, here⟩ :: right ∧
      IsSum (left.map Lexeme.token) c.left ∧ IsSum (right.map Lexeme.token) c.right := by
  generalize hts : ls.map Lexeme.token = ts at h
  cases h with | compare op ha hb
  obtain ⟨left, rest, rfl, rfl, hrest⟩ := List.map_eq_append_iff.mp hts
  obtain ⟨⟨token, here⟩, right, rfl, rfl, rfl⟩ := List.map_eq_cons_iff.mp hrest
  exact ⟨left, here, right, rfl, ha, hb⟩

theorem readConstraint_eq_ok_iff {c : Constraint Numeral} :
    readConstraint ls = .ok c ↔ IsConstraint (ls.map Lexeme.token) c := by
  constructor
  · intro h
    cases hr : start.run ls with | mk r rest
    obtain ⟨read, rfl, hf, -⟩ := run_eq_iff.mp hr
    rcases readConstraint_cases hr with ⟨op, here, right, left, rfl, he, hc⟩ | ⟨-, hc⟩
    · rw [hc] at h
      cases hb : readExpr right with
      | error =>
        rw [hb] at h
        cases h
      | ok b =>
        rw [hb] at h
        cases h
        rw [List.map_append, List.map_cons]
        exact .compare op (isSum_iff_feed.mpr ⟨r, hf, he⟩) (readExpr_eq_ok_iff.mp hb)
    · rw [hc] at h
      cases h
  · intro h
    obtain ⟨left, here, right, rfl, ha, hb⟩ := h.exists_sides
    rw [readConstraint_append ha, readExpr_eq_ok_iff.mpr hb]
    rfl

end LoopBounds.Text
