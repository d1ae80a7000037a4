import LoopBounds.Text.Layout
import LoopBounds.Text.Lexeme
import Mathlib.Data.List.Chain

namespace LoopBounds.Text

variable {text rest : List Char} {ts : List Token} {t u : Token} {c : Char}

theorem Gap.trans {a b c : List Char} (h : Gap a b) (h' : Gap b c) : Gap a c := by
  induction h with
  | none => exact h'
  | blank hc _ ih => exact .blank hc (ih h')
  | comment hb he _ ih => exact .comment hb he (ih h')

theorem Layout.of_gap (h : Gap text rest) (hl : Layout rest ts) : Layout text ts := by
  cases hl with
  | done h' => exact .done (h.trans h')
  | token t ht h' hl => exact .token t ht (h.trans h') hl

theorem newline_notMem_takeWhile (text : List Char) : '\n' ∉ text.takeWhile (· != '\n') := by
  intro h
  exact absurd (List.all_eq_true.mp List.all_takeWhile _ h) (by decide)

theorem afterComment_eq_nil_or (text : List Char) :
    afterComment text = [] ∨ (afterComment text).head? = some '\n' := by
  cases h : afterComment text with
  | nil => exact .inl rfl
  | cons c rest =>
    have hc := List.head?_dropWhile_not (· != '\n') text
    rw [afterComment] at h
    simp only [h, List.head?_cons, bne_eq_false_iff_eq] at hc
    exact .inr (congrArg some hc)

theorem gap_afterComment (text : List Char) : Gap ('#' :: text) (afterComment text) := by
  have hs : text.takeWhile (· != '\n') ++ afterComment text = text :=
    List.takeWhile_append_dropWhile
  have hg := Gap.comment (newline_notMem_takeWhile text) (afterComment_eq_nil_or text)
    (.none (afterComment text))
  rwa [List.cons_append, hs] at hg

theorem afterComment_append {body : List Char} (hb : '\n' ∉ body)
    (he : text = [] ∨ text.head? = some '\n') : afterComment (body ++ text) = text := by
  have hp : ∀ c ∈ body, (c != '\n') = true := by
    intro c hc
    exact bne_iff_ne.mpr fun h => hb (h ▸ hc)
  rw [afterComment, List.dropWhile_append_of_pos hp]
  rcases he with rfl | he
  · rfl
  · obtain ⟨rest, rfl⟩ := List.head?_eq_some_iff.mp he
    rfl

theorem lexemes_gap (h : Gap text rest) : lexemes text = lexemes rest := by
  induction h with
  | none => rfl
  | @blank c text rest hc _ ih =>
    have hne : c ≠ '#' := by
      rintro rfl
      exact absurd hc (by decide)
    rw [lexemes, if_neg hne, if_pos hc, ih]
  | comment hb he _ ih =>
    rw [List.cons_append, lexemes, if_pos rfl, afterComment_append hb he, ih]

/-- A character that begins a blank or a comment. -/
def startsGap (c : Char) : Bool :=
  c == '#' || isBlank c

theorem startsGap_iff :
    startsGap c ↔ c = '#' ∨ c = ' ' ∨ c = '\t' ∨ c = '\r' ∨ c = '\n' := by
  simp only [startsGap, isBlank, Bool.or_eq_true, beq_iff_eq, or_assoc]

theorem not_startsGap_iff : ¬ startsGap c ↔ c ≠ '#' ∧ ¬ isBlank c := by
  rw [startsGap, Bool.or_eq_true, beq_iff_eq, not_or]

theorem lexemes_cons (hc : ¬ startsGap c) :
    lexemes (c :: rest) = ⟨Token.first c rest, c :: rest⟩ :: lexemes (Token.after c rest) := by
  obtain ⟨hh, hb⟩ := not_startsGap_iff.mp hc
  rw [lexemes, if_neg hh, if_neg hb]

theorem isNameChar_of_isDigit (h : c.isDigit) : isNameChar c := by
  simp only [isNameChar, Char.isAlphanum, h, Bool.or_true, Bool.true_or]

theorem isNameChar_of_isAlpha (h : c.isAlpha) : isNameChar c := by
  simp only [isNameChar, Char.isAlphanum, h, Bool.true_or]

theorem not_isDigit_of_isAlpha (h : c.isAlpha) : ¬ c.isDigit := by
  intro hd
  have ⟨_, hn⟩ := Char.isDigit_iff_toNat.mp hd
  have ha : 'A'.val ≤ c.val := by
    cases Bool.or_eq_true_iff.mp h with
    | inl hu => exact (of_decide_eq_true hu).1
    | inr hl =>
      change (decide ('a'.val ≤ c.val) && decide (c.val ≤ 'z'.val)) = true at hl
      have hl := of_decide_eq_true (Bool.and_eq_true_iff.mp hl).1
      exact UInt32.le_trans (by decide) hl
  exact absurd (Nat.le_trans (UInt32.le_iff_toNat_le.mp ha) hn) (by decide)

theorem not_startsGap_of_isNameChar (h : isNameChar c) : ¬ startsGap c := by
  intro hs
  rcases startsGap_iff.mp hs with rfl | rfl | rfl | rfl | rfl <;> exact absurd h (by decide)

theorem isName_iff {x : String} :
    IsName x ↔ ∃ c tail, x.toList = c :: tail ∧ c.isAlpha ∧ ∀ d ∈ tail, isNameChar d := by
  simp only [IsName]
  cases x.toList with
  | nil => simp
  | cons c tail =>
    simp only [List.head?_cons, Option.any_some, List.all_cons, Bool.and_eq_true, List.all_eq_true]
    constructor
    · rintro ⟨hc, _, ht⟩
      exact ⟨c, tail, rfl, hc, ht⟩
    · rintro ⟨_, _, he, hc, ht⟩
      cases he
      exact ⟨hc, isNameChar_of_isAlpha hc, ht⟩

theorem takeWhile_append_eq {p : Char → Bool} {l : List Char} (hl : ∀ c ∈ l, p c)
    (hr : ∀ c ∈ rest.head?, ¬ p c) : (l ++ rest).takeWhile p = l := by
  rw [List.takeWhile_append_of_pos hl]
  cases rest with
  | nil => rw [List.takeWhile_nil, List.append_nil]
  | cons c rest => rw [List.takeWhile_cons_of_neg (hr c rfl), List.append_nil]

theorem Gap.cases_head (h : Gap text rest) :
    text = rest ∨ ∃ c, text.head? = some c ∧ startsGap c := by
  cases h with
  | none => exact .inl rfl
  | blank hc => exact .inr ⟨_, rfl, by simp only [startsGap, hc, Bool.or_true]⟩
  | comment => exact .inr ⟨'#', rfl, by decide⟩

namespace Token

/-- The character right behind the token would be taken for a part of it. -/
def Continues : Token → Char → Prop
  | numeral _, c => c.isDigit
  | param _, c => isNameChar c
  | var _, c => isNameChar c
  | compare .lessThan, c => c = '='
  | compare .greaterThan, c => c = '='
  | _, _ => False

def IsOperand : Token → Prop
  | numeral _ => True
  | param _ => True
  | var _ => True
  | _ => False

def IsComparison : Token → Prop
  | compare _ => True
  | _ => False

/-- The tokens need no gap between them. -/
def Separate (t u : Token) : Prop :=
  ¬ (t.IsOperand ∧ u.IsOperand) ∧ ¬ (t.IsComparison ∧ u.IsComparison)

theorem ofMark_congr {rest' : List Char}
    (h : ∀ t ∈ marks, t.spelling <+: c :: rest ↔ t.spelling <+: c :: rest') :
    ofMark c rest = ofMark c rest' := by
  have hp : ∀ t ∈ marks,
      t.spelling.isPrefixOf (c :: rest) = t.spelling.isPrefixOf (c :: rest') := by
    intro t ht
    rw [Bool.eq_iff_iff, List.isPrefixOf_iff_prefix, List.isPrefixOf_iff_prefix]
    exact h t ht
  rw [ofMark, ofMark, ← List.head?_filter, ← List.head?_filter, List.filter_congr hp]

/-- Only a sign of equality makes a longer mark of a character. -/
theorem ofMark_eq_ofMark_nil (hr : ∀ d ∈ rest.head?, d ≠ '=') : ofMark c rest = ofMark c [] := by
  have htails : ∀ t ∈ marks, t.spelling.tail = [] ∨ t.spelling.tail = ['='] := by decide
  have hrest : ¬ ['='] <+: rest := by
    rintro ⟨more, rfl⟩
    exact hr '=' rfl rfl
  apply ofMark_congr
  intro t ht
  have htail := htails t ht
  cases hs : t.spelling with
  | nil => exact absurd hs (spelling_ne_nil_of_mem_marks ht)
  | cons d tail =>
    rw [hs, List.tail_cons] at htail
    rw [List.cons_prefix_cons, List.cons_prefix_cons]
    apply and_congr_right
    intro _
    rcases htail with rfl | rfl
    · exact iff_of_true List.nil_prefix List.nil_prefix
    · exact iff_of_false hrest (by decide)

/-- The token is read back whole where the text that follows does not continue it. -/
theorem IsProper.first_eq (ht : t.IsProper) (hr : ∀ c ∈ rest.head?, ¬ t.Continues c) :
    ∃ c tail, t.spelling = c :: tail ∧ ¬ startsGap c ∧ first c (tail ++ rest) = t := by
  cases t with
  | numeral n =>
    obtain ⟨digits⟩ := n
    obtain ⟨hne, hd⟩ := ht
    cases digits with
    | nil => exact absurd rfl hne
    | cons c tail =>
      have hc := hd c List.mem_cons_self
      have htail := takeWhile_append_eq (fun d h => hd d (List.mem_cons_of_mem c h)) hr
      refine ⟨c, tail, rfl, not_startsGap_of_isNameChar (isNameChar_of_isDigit hc), ?_⟩
      rw [first, if_pos hc, htail]
  | var x =>
    obtain ⟨c, tail, hx, hc, htail⟩ := isName_iff.mp ht
    refine ⟨c, tail, hx, not_startsGap_of_isNameChar (isNameChar_of_isAlpha hc), ?_⟩
    rw [first, if_neg (not_isDigit_of_isAlpha hc), if_pos hc, takeWhile_append_eq htail hr, ← hx,
      String.ofList_toList]
  | param x =>
    obtain ⟨c, tail, hx, hc, htail⟩ := isName_iff.mp ht
    have hall : ∀ d ∈ x.toList, isNameChar d := by
      rw [hx]
      exact List.forall_mem_cons.mpr ⟨isNameChar_of_isAlpha hc, htail⟩
    have hh : '$' = '$' ∧ (x.toList ++ rest).head?.any Char.isAlpha := by
      rw [hx]
      exact ⟨rfl, hc⟩
    refine ⟨'$', x.toList, rfl, by decide, ?_⟩
    rw [first, if_neg (by decide), if_neg (by decide), if_pos hh, takeWhile_append_eq hall hr,
      String.ofList_toList]
  | arith op => cases op <;> exact ⟨_, [], rfl, by decide, rfl⟩
  | compare op =>
    cases op with
    | lessThan => exact ⟨'<', [], rfl, by decide, ofMark_eq_ofMark_nil hr⟩
    | lessOrEqual => exact ⟨'<', ['='], rfl, by decide, rfl⟩
    | equal => exact ⟨'=', ['='], rfl, by decide, rfl⟩
    | greaterOrEqual => exact ⟨'>', ['='], rfl, by decide, rfl⟩
    | greaterThan => exact ⟨'>', [], rfl, by decide, ofMark_eq_ofMark_nil hr⟩
  | opening => exact ⟨'(', [], rfl, by decide, rfl⟩
  | closing => exact ⟨')', [], rfl, by decide, rfl⟩
  | stray c => exact ht.elim

theorem IsProper.lexemes_append (ht : t.IsProper) (hr : ∀ c ∈ rest.head?, ¬ t.Continues c) :
    lexemes (t.spelling ++ rest) = ⟨t, t.spelling ++ rest⟩ :: lexemes rest := by
  obtain ⟨c, tail, hs, hc, hf⟩ := ht.first_eq hr
  have ha : after c (tail ++ rest) = rest := by
    rw [after, hf, hs, List.length_cons, Nat.add_sub_cancel, List.drop_left]
  rw [hs, List.cons_append, lexemes_cons hc, hf, ha]

theorem isProper_of_mem_marks (h : t ∈ marks) : t.IsProper := by
  simp only [marks, List.map_cons, List.map_nil, List.cons_append, List.nil_append, ArithOp.all,
    List.mem_cons, List.not_mem_nil, or_false] at h
  rcases h with rfl | rfl | rfl | rfl | rfl | rfl | rfl | rfl | rfl | rfl <;> trivial

theorem Continues.cases (h : t.Continues c) :
    t.IsOperand ∧ isNameChar c ∨ t.IsComparison ∧ c = '=' := by
  cases t with
  | numeral => exact .inl ⟨trivial, isNameChar_of_isDigit h⟩
  | param => exact .inl ⟨trivial, h⟩
  | var => exact .inl ⟨trivial, h⟩
  | compare op =>
    cases op with
    | lessThan => exact .inr ⟨trivial, h⟩
    | greaterThan => exact .inr ⟨trivial, h⟩
    | lessOrEqual | equal | greaterOrEqual => exact h.elim
  | arith | opening | closing | stray => exact h.elim

theorem not_continues_of_startsGap (h : startsGap c) : ¬ t.Continues c := by
  intro hc
  rcases hc.cases with ⟨_, hn⟩ | ⟨_, rfl⟩
  · exact not_startsGap_of_isNameChar hn h
  · exact absurd h (by decide)

theorem IsProper.isOperand_of_head (ht : t.IsProper) (hs : t.spelling.head? = some c)
    (hc : isNameChar c) : t.IsOperand := by
  cases t with
  | numeral | param | var => trivial
  | arith op => cases op <;> cases hs <;> exact absurd hc (by decide)
  | compare op => cases op <;> cases hs <;> exact absurd hc (by decide)
  | opening | closing => cases hs; exact absurd hc (by decide)
  | stray => exact ht.elim

theorem IsProper.isComparison_of_head (ht : t.IsProper) (hs : t.spelling.head? = some '=') :
    t.IsComparison := by
  cases t with
  | compare => trivial
  | numeral n => exact absurd (ht.2 '=' (List.mem_of_mem_head? hs)) (by decide)
  | var x =>
    obtain ⟨c, tail, hx, hc, -⟩ := isName_iff.mp ht
    rw [spelling, hx] at hs
    cases hs
    exact absurd hc (by decide)
  | arith op => cases op <;> cases hs
  | param | opening | closing => cases hs
  | stray => exact ht.elim

theorem IsProper.exists_first_eq (ht : t.IsProper) :
    ∃ c tail, t.spelling = c :: tail ∧ ¬ startsGap c ∧ first c tail = t := by
  have hr : ∀ c ∈ ([] : List Char).head?, ¬ t.Continues c := fun _ h => nomatch h
  obtain ⟨c, tail, hs, hc, hf⟩ := ht.first_eq hr
  rw [List.append_nil] at hf
  exact ⟨c, tail, hs, hc, hf⟩

theorem Separate.not_continues (h : t.Separate u) (hu : u.IsProper)
    (hs : u.spelling.head? = some c) : ¬ t.Continues c := by
  intro hc
  rcases hc.cases with ⟨ht, hn⟩ | ⟨ht, rfl⟩
  · exact h.1 ⟨ht, hu.isOperand_of_head hs hn⟩
  · exact h.2 ⟨ht, hu.isComparison_of_head hs⟩

end Token

theorem Layout.not_continues (hl : Layout rest ts) (hs : ∀ u ∈ ts.head?, t.Separate u) :
    ∀ c ∈ rest.head?, ¬ t.Continues c := by
  intro c hc
  cases hl with
  | done hg =>
    rcases hg.cases_head with rfl | ⟨d, hd, hgap⟩
    · cases hc
    · cases hc.symm.trans hd
      exact Token.not_continues_of_startsGap hgap
  | token u hu hg hl =>
    rcases hg.cases_head with rfl | ⟨d, hd, hgap⟩
    · refine (hs u rfl).not_continues hu ?_
      obtain ⟨d, tail, hd, -⟩ := hu.exists_first_eq
      rw [hd, List.cons_append] at hc
      rw [hd]
      exact hc
    · cases hc.symm.trans hd
      exact Token.not_continues_of_startsGap hgap

def tokens (text : List Char) : List Token :=
  (lexemes text).map Lexeme.token

theorem Layout.spelling_append {us : List Token} (h : ∀ t ∈ ts, t.IsProper) (hl : Layout rest us) :
    Layout (ts.flatMap Token.spelling ++ rest) (ts ++ us) := by
  induction ts with
  | nil => exact hl
  | cons t ts ih =>
    have ⟨ht, hts⟩ := List.forall_mem_cons.mp h
    rw [List.flatMap_cons, List.append_assoc]
    exact .token t ht (.none _) (ih hts)

theorem layout_flatMap_spelling (h : ∀ t ∈ ts, t.IsProper) :
    Layout (ts.flatMap Token.spelling) ts := by
  have hl := Layout.spelling_append h (.done (.none []))
  rwa [List.append_nil, List.append_nil] at hl

theorem Layout.isProper {text : List Char} (h : Layout text ts) :
    ∀ t ∈ ts, t.IsProper := by
  induction h with
  | done => exact fun _ h => nomatch h
  | token t ht _ _ ih => exact List.forall_mem_cons.mpr ⟨ht, ih⟩

/-- A text can be laid out in one way only from tokens that need no gaps between them. -/
theorem Layout.tokens_eq (hl : Layout text ts) (hs : ts.IsChain Token.Separate) :
    tokens text = ts := by
  induction hl with
  | done hg => rw [tokens, lexemes_gap hg, lexemes, List.map_nil]
  | token t ht hg hl ih =>
    rw [List.isChain_cons] at hs
    rw [tokens, lexemes_gap hg, ht.lexemes_append (hl.not_continues hs.1), List.map_cons]
    exact congrArg _ (ih hs.2)

theorem Token.first_isProper (c : Char) (rest : List Char) :
    (first c rest).IsProper ∨ first c rest = stray c := by
  rw [first]
  split
  next hc =>
    refine .inl ⟨List.cons_ne_nil _ _, List.forall_mem_cons.mpr ⟨hc, ?_⟩⟩
    exact List.all_eq_true.mp List.all_takeWhile
  split
  next hc =>
    refine .inl (isName_iff.mpr ⟨c, _, String.toList_ofList, hc, ?_⟩)
    exact List.all_eq_true.mp List.all_takeWhile
  split
  next h =>
    cases rest with
    | nil => exact absurd h.2 (by decide)
    | cons d rest =>
      have hd : d.isAlpha := h.2
      refine .inl (isName_iff.mpr ⟨d, rest.takeWhile isNameChar, ?_, hd, ?_⟩)
      · rw [String.toList_ofList, List.takeWhile_cons_of_pos (isNameChar_of_isAlpha hd)]
      · exact List.all_eq_true.mp List.all_takeWhile
  next =>
    rcases ofMark_cases c rest with ⟨hm, -⟩ | hs
    · exact .inl (isProper_of_mem_marks hm)
    · exact .inr hs

/-- Every text without stray characters is laid out from its tokens. -/
theorem layout_tokens (h : ∀ c, Token.stray c ∉ tokens text) : Layout text (tokens text) := by
  rw [tokens] at h ⊢
  fun_induction lexemes text with
  | case1 => exact .done (.none [])
  | case2 rest ih => exact (ih h).of_gap (gap_afterComment rest)
  | case3 c rest _ hc ih => exact (ih h).of_gap (.blank hc (.none rest))
  | case4 c rest _ _ ih =>
    rw [List.map_cons] at h ⊢
    have ht : (Token.first c rest).IsProper := by
      refine (Token.first_isProper c rest).resolve_right ?_
      intro hs
      exact h c (hs ▸ List.mem_cons_self)
    refine .token _ ht ?_ (ih fun d hd => h d (List.mem_cons_of_mem _ hd))
    rw [Token.spelling_append_after]
    exact .none _

end LoopBounds.Text
