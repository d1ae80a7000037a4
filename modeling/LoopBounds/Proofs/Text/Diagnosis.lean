import LoopBounds.Proofs.Text.Place
import LoopBounds.Proofs.Text.Sides

namespace LoopBounds

open Text

namespace Text

section

variable {β : Type} (parse : String → Except ParseError β)

/-- The text is well formed, though a numeral in it may be out of range. -/
def Valid (text : String) : Prop :=
  ∀ report, parse text ≠ .error (.unexpected report)

theorem Valid.of_eq_ok {parse : String → Except ParseError β} {text : String} {b : β}
    (h : parse text = .ok b) : Valid parse text := by
  intro report hr
  rw [h] at hr
  cases hr

/-- The text begins some well formed text. -/
def Viable (text : String) : Prop :=
  ∃ more, Valid parse (text ++ more)

/-- All before the place can be continued, all beyond it cannot, and what could is expected. -/
structure Report.IsExact (stems : List String) (text : String) (r : Report) : Prop where
  viable : Viable parse (r.before text)
  place : r.offset text = text.length ∨
    ∃ c, text.toList[r.offset text]? = some c ∧ c ∉ ['#', ' ', '\t', '\r', '\n']
  hopeless : r.after text ∉ stems → ∀ more, ¬ Valid parse (text ++ more)
  endOfText : .endOfText ∈ r.expected ↔ Valid parse (r.before text)
  arith : ∀ op, .arith op ∈ r.expected ↔ Viable parse (r.before text ++ "\n" ++ op.symbol)
  compare : ∀ op, .compare op ∈ r.expected ↔ Viable parse (r.before text ++ "\n" ++ op.spelling)
  operand : ∀ x, IsName x →
    (.expr ∈ r.expected ∨ .var ∈ r.expected ∧ .param ∈ r.expected ∧ .const ∈ r.expected ↔
      Viable parse (r.before text ++ "\n" ++ x))

end

namespace Machine

variable {σ α β : Type} {m : Machine σ α} {s : σ} {t : Token} {c : Char}
  {text before here rest : List Char} {x : Refusal}

/-- The machine is in this state between the two texts, whatever else may follow the first. -/
def IsBetween (m : Machine σ α) (before here : List Char) (s : σ) : Prop :=
  ∀ u, Abuts u here → (m.Accepts m.start (tokens (before ++ u)) ↔ m.Accepts s (tokens u))

def IsStuck (m : Machine σ α) (here : List Char) (s : σ) : Prop :=
  ∀ c rest, here = c :: rest → ¬ startsGap c ∧ m.step s (Token.first c rest) = none

theorem Stops.exists_isBetween (hm : m.IsExact) (h : m.Stops (lexemes text) x) :
    ∃ before s, text = before ++ x.here ∧ x.expected = m.expected s ∧
      m.IsBetween before x.here s ∧ m.IsStuck x.here s := by
  obtain ⟨read, left, s, hl, hf, hstop, -, rfl⟩ := h
  obtain ⟨before, ht, hu⟩ := exists_tokens_append hl (hm.stray_notMem hf)
  refine ⟨before, s, ht, rfl, ?_, ?_⟩
  · intro u ha
    rw [hu u ha]
    exact accepts_append_iff hf
  · intro c rest he
    cases left with
    | nil => cases he
    | cons l left =>
      have hmem : l ∈ lexemes text := hl ▸ List.mem_append_right read List.mem_cons_self
      obtain ⟨d, tail, rfl, hd⟩ := exists_first_of_mem_lexemes hmem
      cases he
      exact ⟨hd, hstop _ rfl⟩

theorem IsExact.exists_accepts_tokens (hm : m.IsExact) (s : σ) :
    ∃ more, m.Accepts s (tokens more) := by
  obtain ⟨ts, ht, ha⟩ := hm.completes s
  exact ⟨_, (tokens_flatMap_newline ht).symm ▸ ha⟩

/-- A token that is not taken in bars all that begins with it, unless it goes on to be another. -/
theorem IsExact.not_accepts_tokens_cons (hm : m.IsExact) (hc : ¬ startsGap c)
    (h : m.step s (Token.first c rest) = none) (hd : c :: rest ≠ ['$'])
    (he : c :: rest ≠ ['='] ∨ ∀ op, m.step s (.compare op) = none) (more : List Char) :
    ¬ m.Accepts s (tokens (c :: (rest ++ more))) := by
  rw [tokens_cons hc]
  apply not_accepts_cons
  by_cases heq : c :: rest = ['=']
  · obtain ⟨rfl, rfl⟩ := List.cons.inj heq
    have hop := he.resolve_left fun hne => hne rfl
    rcases Token.first_equals more with hs | hs
    · rw [List.nil_append, hs]
      exact hm.stray s '='
    · rw [List.nil_append]
      cases hf : Token.first '=' more with
      | compare op => exact hop op
      | _ =>
        rw [hf] at hs
        exact hs.elim
  · exact hm.kind s _ _ (Token.sameKind_first_append hd heq more) h

theorem IsExact.isSome_step_iff (hm : m.IsExact) (s : σ) (ht : t.IsProper) :
    (m.step s t).isSome ↔ ∃ more, m.Accepts s (tokens (t.spelling ++ more)) := by
  constructor
  · intro h
    obtain ⟨s', hs⟩ := Option.isSome_iff_exists.mp h
    obtain ⟨more, ha⟩ := hm.exists_accepts_tokens s'
    have hn : ∀ d ∈ ('\n' :: more).head?, ¬ t.Continues d := by
      rintro _ ⟨⟩
      exact Token.not_continues_of_startsGap (by decide)
    refine ⟨'\n' :: more, ?_⟩
    rw [ht.tokens_append hn, tokens_newline]
    exact (accepts_cons_iff hs).mpr ha
  · intro ⟨more, ha⟩
    obtain ⟨c, tail, hs, hc, hf⟩ := ht.exists_first_eq
    -- A proper token is no stem, so that it cannot go on to be one of another kind.
    have hne (d : Char) (hd : Token.first d [] = .stray d) : c :: tail ≠ [d] := by
      intro he
      obtain ⟨rfl, rfl⟩ := List.cons.inj he
      rw [← hf, hd] at ht
      exact ht
    cases h : m.step s t with
    | some => rfl
    | none =>
      rw [hs, List.cons_append] at ha
      exact absurd ha (hm.not_accepts_tokens_cons hc (hf ▸ h) (hne '$' rfl) (.inl (hne '=' rfl))
        more)

/-- The parser takes what the machine accepts, and reports where and how it stops. -/
structure Decides (m : Machine σ α) (parse : String → Except ParseError β) : Prop where
  valid_iff : ∀ text, Valid parse text ↔ m.Accepts m.start (tokens text.toList)
  stops : ∀ {text report}, parse text = .error (.unexpected report) →
    ∃ x, m.Stops (lexemes text.toList) x ∧ report = x.report text.toList

variable {parse : String → Except ParseError β}

theorem decides_of_outcome {read : List Lexeme → Except Refusal α} {resolve : α → Except Numeral β}
    (hp : ∀ text, parse text = outcome text.toList (read (lexemes text.toList)) resolve)
    (ha : ∀ {ls a}, read ls = .ok a → m.Accepts m.start (ls.map Lexeme.token))
    (hs : ∀ {ls x}, read ls = .error x → m.Stops ls x) : m.Decides parse where
  valid_iff text := by
    simp only [Valid, hp, outcome_ne_unexpected_iff]
    constructor
    · rintro ⟨a, hr⟩
      exact ha hr
    · intro h
      cases hr : read (lexemes text.toList) with
      | ok a => exact ⟨a, rfl⟩
      | error x => exact absurd h (hs hr).not_accepts
  stops {text report} h := by
    rw [hp] at h
    obtain ⟨x, hr, he⟩ := outcome_eq_unexpected_iff.mp h
    exact ⟨x, hs hr, he⟩

section

variable (hp : m.Decides parse) (hb : m.IsBetween before here s)

include hp hb

theorem Decides.valid_append_iff {u : String} (hu : Abuts u.toList here) :
    Valid parse (.ofList before ++ u) ↔ m.Accepts s (tokens u.toList) := by
  rw [hp.valid_iff, String.toList_append, String.toList_ofList]
  exact hb _ hu

theorem Decides.viable_newline_iff (u : String) :
    Viable parse (.ofList before ++ "\n" ++ u) ↔
      ∃ more, m.Accepts s (tokens (u.toList ++ more)) := by
  have hv (more : String) : Valid parse (.ofList before ++ "\n" ++ u ++ more) ↔
      m.Accepts s (tokens (u.toList ++ more.toList)) := by
    rw [String.append_assoc, String.append_assoc, hp.valid_append_iff hb, String.toList_append,
      String.toList_append]
    · exact iff_of_eq (congrArg _ (tokens_newline _))
    · rw [String.toList_append]
      rintro _ ⟨⟩
      exact .inl rfl
  constructor
  · rintro ⟨more, h⟩
    exact ⟨more.toList, (hv more).mp h⟩
  · rintro ⟨more, h⟩
    refine ⟨.ofList more, (hv _).mpr ?_⟩
    rwa [String.toList_ofList]

theorem Decides.viable_spelling_iff (hm : m.IsExact) (ht : t.IsProper) {u : String}
    (hu : t.spelling = u.toList) :
    Viable parse (.ofList before ++ "\n" ++ u) ↔ (m.step s t).isSome := by
  rw [hp.viable_newline_iff hb, ← hu]
  exact (hm.isSome_step_iff s ht).symm

theorem Decides.not_valid_append (hm : m.IsExact) (hs : m.IsStuck here s) (hn : here ≠ [])
    (hd : here ≠ ['$']) (he : here ≠ ['='] ∨ ∀ op, m.step s (.compare op) = none)
    (more : String) : ¬ Valid parse (.ofList (before ++ here) ++ more) := by
  cases here with
  | nil => exact absurd rfl hn
  | cons c rest =>
    obtain ⟨hc, hnone⟩ := hs c rest rfl
    have hu : (String.ofList (c :: rest) ++ more).toList = c :: (rest ++ more.toList) := by
      rw [String.toList_append, String.toList_ofList, List.cons_append]
    rw [String.ofList_append, String.append_assoc, hp.valid_append_iff hb, hu]
    · exact hm.not_accepts_tokens_cons hc hnone hd he more.toList
    · rw [hu]
      exact fun _ h => .inr h

end

theorem Decides.report_isExact (hp : m.Decides parse) (hm : m.IsExact) {stems : List String}
    (hn : "" ∈ stems) (hd : "$" ∈ stems)
    (he : "=" ∈ stems ∨ ∀ s op, m.step s (.compare op) = none) {text : String} {report : Report}
    (h : parse text = .error (.unexpected report)) : report.IsExact parse stems text := by
  obtain ⟨x, hs, rfl⟩ := hp.stops h
  obtain ⟨before, s, ht, hx, hb, hstuck⟩ := hs.exists_isBetween hm
  have hexpected : (x.report text.toList).expected = m.expected s := hx
  have hviable (t : Token) (hproper : t.IsProper) {u : String} (hu : t.spelling = u.toList) :
      (m.step s t).isSome ↔ Viable parse ((x.report text.toList).before text ++ "\n" ++ u) := by
    rw [Refusal.before_report ht, hp.viable_spelling_iff hb hm hproper hu]
  constructor
  case viable =>
    obtain ⟨more, ha⟩ := hm.exists_accepts_tokens s
    obtain ⟨rest, hv⟩ := (hp.viable_newline_iff hb "").mpr ⟨more, ha⟩
    rw [String.append_empty, String.append_assoc, ← Refusal.before_report ht] at hv
    exact ⟨_, hv⟩
  case place =>
    rw [Refusal.offset_report ht, ← String.length_toList, ht]
    cases hh : x.here with
    | nil => exact .inl (by rw [List.append_nil])
    | cons c rest =>
      refine .inr ⟨c, ?_, ?_⟩
      · rw [List.getElem?_append_right (Nat.le_refl _), Nat.sub_self, List.getElem?_cons_zero]
      · have hc := (hstuck c rest hh).1
        simpa only [startsGap_iff, List.mem_cons, List.not_mem_nil, or_false] using hc
  case hopeless =>
    intro hstem more
    rw [Refusal.after_report ht] at hstem
    have hne {stem : String} (h : stem ∈ stems) : x.here ≠ stem.toList := by
      intro he
      rw [he, String.ofList_toList] at hstem
      exact hstem h
    rw [← String.ofList_toList (s := text), ht]
    exact hp.not_valid_append hb hm hstuck (hne hn) (hne hd) (he.imp hne (· s)) more
  case endOfText =>
    have ha : Abuts "".toList x.here := fun _ h => nomatch h
    have hv := hp.valid_append_iff hb ha
    rw [String.append_empty, String.toList_empty, tokens_nil, accepts_nil_iff] at hv
    rw [hexpected, hm.endOfText, Refusal.before_report ht, hv]
  case arith =>
    intro op
    rw [hexpected, hm.arith, hviable (.arith op) trivial rfl]
  case compare =>
    intro op
    rw [hexpected, hm.compare, hviable (.compare op) trivial rfl]
  case operand =>
    intro y hy
    rw [hexpected, hm.operand s y, hviable (.var y) hy rfl]

end Machine

theorem exprMachine_decides : exprMachine.Decides Expr.parse :=
  Machine.decides_of_outcome Expr.parse_eq_outcome readExpr_accepts readExpr_stops

theorem constraintMachine_decides : constraintMachine.Decides Constraint.parse :=
  Machine.decides_of_outcome Constraint.parse_eq_outcome readConstraint_accepts
    readConstraint_stops

end Text

/-- Every report is exact. A sign of equality is no stem where there are no comparisons. -/
theorem unexpected_report_isExact (text : String) (report : Report) :
    (Expr.parse text = .error (.unexpected report) →
        report.IsExact Expr.parse ["", "$"] text) ∧
      (Constraint.parse text = .error (.unexpected report) →
        report.IsExact Constraint.parse ["", "$", "="] text) := by
  constructor
  · intro h
    have hc : ∀ r op, exprMachine.step r (.compare op) = none := Reader.step_compare
    exact exprMachine_decides.report_isExact exprMachine_isExact (by decide) (by decide) (.inr hc) h
  · intro h
    exact constraintMachine_decides.report_isExact constraintMachine_isExact (by decide) (by decide)
      (.inl (by decide)) h

theorem unexpected_report_isExact_operand :
    let stem : Report := ⟨2, 2, " $".toList, Expectation.operands⟩
    let closing : Report := ⟨1, 10, "i < (j +\t)".toList, Expectation.operands⟩
    Expr.parse "(i + # x\n $" = .error (.unexpected stem) ∧
      stem.IsExact Expr.parse ["", "$"] "(i + # x\n $" ∧
      Constraint.parse "i < (j +\t)" = .error (.unexpected closing) ∧
      closing.IsExact Constraint.parse ["", "$", "="] "i < (j +\t)" ∧
      ∀ more, ¬ Valid Constraint.parse ("i < (j +\t)" ++ more) := by
  intro stem closing
  have hs : Expr.parse "(i + # x\n $" = .error (.unexpected stem) := by decide +kernel
  have hc : Constraint.parse "i < (j +\t)" = .error (.unexpected closing) := by decide +kernel
  have he := (unexpected_report_isExact _ closing).2 hc
  exact ⟨hs, (unexpected_report_isExact _ stem).1 hs, hc, he, he.hopeless (by decide +kernel)⟩

end LoopBounds
