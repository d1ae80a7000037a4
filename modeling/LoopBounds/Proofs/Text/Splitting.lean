import LoopBounds.Proofs.Text.Lexing

namespace LoopBounds.Text

variable {text rest u v w : List Char} {c d : Char} {read left : List Lexeme}

namespace Token

variable {t : Token}

theorem first_cases (c : Char) (rest : List Char) :
    first c rest = numeral ⟨c :: rest.takeWhile Char.isDigit⟩ ∨
      first c rest = var (.ofList (c :: rest.takeWhile isNameChar)) ∨
      c = '$' ∧ first c rest = param (.ofList (rest.takeWhile isNameChar)) ∨
      first c rest = ofMark c rest := by
  rw [first]
  split
  · exact .inl rfl
  split
  · exact .inr (.inl rfl)
  split
  next h => exact .inr (.inr (.inl ⟨h.1, rfl⟩))
  next => exact .inr (.inr (.inr rfl))

theorem first_equals (rest : List Char) :
    first '=' rest = stray '=' ∨ (first '=' rest).IsComparison := by
  obtain ⟨tail, hs, -⟩ := exists_spelling_first '=' rest
  rcases first_isProper '=' rest with h | h
  · exact .inr (h.isComparison_of_head (by rw [hs, List.head?_cons]))
  · exact .inl h

theorem not_isOperand_of_mem_marks (h : t ∈ marks) : ¬ t.IsOperand := by
  intro ht
  cases t with
  | numeral | param | var =>
    simp only [marks, ArithOp.all, List.map_cons, List.map_nil, List.cons_append, List.nil_append,
      List.mem_cons, List.not_mem_nil, reduceCtorEq, or_self] at h
  | _ => exact ht

theorem not_of_mem_head?_after {p : Char → Bool}
    (h : (first c rest).spelling = c :: rest.takeWhile p) (hd : d ∈ (after c rest).head?) :
    ¬ p d := by
  have ha := spelling_append_after c rest
  rw [h, List.cons_append, List.cons.injEq] at ha
  have hr : after c rest = rest.dropWhile p := by
    apply (List.append_right_inj (rest.takeWhile p)).mp
    rw [ha.2, List.takeWhile_append_dropWhile]
  have hn := List.head?_dropWhile_not p rest
  rw [hr, Option.mem_def] at hd
  simpa only [hd, Bool.not_eq_true] using hn

theorem not_continues_after (c : Char) (rest : List Char) :
    ∀ d ∈ (after c rest).head?, ¬ (first c rest).Continues d := by
  intro d hd
  rcases first_cases c rest with h | h | ⟨rfl, h⟩ | h
  · rw [h]
    exact not_of_mem_head?_after (by rw [h]; rfl) hd
  · rw [h]
    exact not_of_mem_head?_after (by rw [h, spelling, String.toList_ofList]) hd
  · rw [h]
    exact not_of_mem_head?_after (by rw [h, spelling, String.toList_ofList]) hd
  · intro hc
    have hs := spelling_append_after c rest
    obtain ⟨tail, hr⟩ := List.head?_eq_some_iff.mp hd
    rw [hr] at hs
    rcases hc.cases with ⟨ho, -⟩ | ⟨hk, rfl⟩
    · rcases ofMark_cases c rest with ⟨hm, -⟩ | hm
      · exact not_isOperand_of_mem_marks hm (h ▸ ho)
      · rw [h, hm] at ho
        exact ho
    · -- With the sign of equality behind it the token would have been a longer one.
      cases ht : first c rest with
      | compare op =>
        rw [ht] at hc hs
        cases op with
        | lessThan | greaterThan =>
          obtain ⟨rfl, rfl⟩ := List.cons.inj hs
          cases ht
        | lessOrEqual | equal | greaterOrEqual => exact hc
      | _ =>
        rw [ht] at hk
        exact hk

end Token

/-- The first text begins with a line feed, or as the second does, or not at all. -/
def Abuts (u v : List Char) : Prop :=
  ∀ c ∈ u.head?, c = '\n' ∨ c ∈ v.head?

theorem Abuts.append_left (h : Abuts u v) (w : List Char) : Abuts (w ++ u) (w ++ v) := by
  cases w with
  | nil => exact h
  | cons d w => exact fun c hc => .inr hc

theorem Abuts.eq_nil_or (h : Abuts u v) (hv : v = [] ∨ v.head? = some '\n') :
    u = [] ∨ u.head? = some '\n' := by
  cases u with
  | nil => exact .inl rfl
  | cons c u =>
    refine .inr (congrArg some ?_)
    rcases h c rfl with rfl | hc
    · rfl
    · rcases hv with rfl | hv
      · cases hc
      · rw [hv] at hc
        exact (Option.some.inj hc).symm

theorem Token.IsProper.tokens_append {t : Token} (ht : t.IsProper)
    (hr : ∀ c ∈ rest.head?, ¬ t.Continues c) :
    tokens (t.spelling ++ rest) = t :: tokens rest := by
  rw [tokens, ht.lexemes_append hr, List.map_cons, tokens]

theorem tokens_gap (h : Gap text rest) : tokens text = tokens rest := by
  rw [tokens, lexemes_gap h, tokens]

/-- What stands before a lexeme is read in the same way whatever it abuts on. -/
theorem exists_tokens_append (h : lexemes text = read ++ left)
    (hs : ∀ c, .stray c ∉ read.map Lexeme.token) :
    ∃ before, text = before ++ remaining left ∧
      ∀ u, Abuts u (remaining left) → tokens (before ++ u) = read.map Lexeme.token ++ tokens u := by
  fun_induction lexemes text generalizing read with
  | case1 =>
    obtain ⟨rfl, rfl⟩ := List.append_eq_nil_iff.mp h.symm
    exact ⟨[], rfl, fun _ _ => rfl⟩
  | case2 rest ih =>
    obtain ⟨before, hr, ht⟩ := ih h hs
    refine ⟨'#' :: rest.takeWhile (· != '\n') ++ before, ?_, ?_⟩
    · rw [List.append_assoc, ← hr, List.cons_append]
      exact congrArg _ List.takeWhile_append_dropWhile.symm
    · intro u hu
      have ha := hu.append_left before
      rw [← hr] at ha
      have hn := ha.eq_nil_or (afterComment_eq_nil_or rest)
      rw [← ht u hu, List.append_assoc]
      exact tokens_gap (.comment (newline_notMem_takeWhile rest) hn (.none _))
  | case3 c rest hc hb ih =>
    obtain ⟨before, rfl, ht⟩ := ih h hs
    refine ⟨c :: before, rfl, ?_⟩
    intro u hu
    rw [← ht u hu]
    exact tokens_gap (.blank hb (.none _))
  | case4 c rest hc hb ih =>
    cases read with
    | nil =>
      subst h
      exact ⟨[], rfl, fun _ _ => rfl⟩
    | cons l read =>
      obtain ⟨rfl, h'⟩ := List.cons.inj h
      rw [List.map_cons] at hs
      have hp := (Token.first_isProper c rest).resolve_right fun he =>
        hs c (he ▸ List.mem_cons_self)
      obtain ⟨before, ha, ht⟩ := ih h' fun d hd => hs d (List.mem_cons_of_mem _ hd)
      refine ⟨(Token.first c rest).spelling ++ before, ?_, ?_⟩
      · rw [List.append_assoc, ← ha, Token.spelling_append_after]
      · intro u hu
        have hn : ∀ d ∈ (before ++ u).head?, ¬ (Token.first c rest).Continues d := by
          intro d hd
          rcases hu.append_left before d hd with rfl | hd
          · exact Token.not_continues_of_startsGap (by decide)
          · exact Token.not_continues_after c rest d (ha ▸ hd)
        rw [List.append_assoc, hp.tokens_append hn, ht u hu]
        rfl

namespace Token

/-- The tokens differ at most in what they spell. -/
inductive SameKind : Token → Token → Prop
  | refl (t) : SameKind t t
  | numeral (m n) : SameKind (numeral m) (numeral n)
  | param (x y) : SameKind (param x) (param y)
  | var (x y) : SameKind (var x) (var y)
  | compare (op op') : SameKind (compare op) (compare op')

/-- Two characters decide which mark a text begins with. -/
theorem ofMark_append (hr : rest ≠ []) (more : List Char) :
    ofMark c (rest ++ more) = ofMark c rest := by
  have hlen : ∀ t ∈ marks, t.spelling.length ≤ 2 := by decide
  apply ofMark_congr
  intro t ht
  constructor
  · intro h
    have hl : t.spelling.length ≤ (c :: rest).length :=
      (hlen t ht).trans (Nat.succ_le_succ (List.length_pos_iff.mpr hr))
    exact List.prefix_of_prefix_length_le h (List.prefix_append (c :: rest) more) hl
  · intro h
    exact h.trans (List.prefix_append (c :: rest) more)

theorem ofMark_mem_marks {t : Token} (ht : t ∈ marks) (hp : t.spelling <+: c :: rest) :
    ofMark c rest ∈ marks := by
  have hs : (marks.find? fun t => t.spelling.isPrefixOf (c :: rest)).isSome := by
    rw [List.find?_isSome]
    exact ⟨t, ht, List.isPrefixOf_iff_prefix.mpr hp⟩
  obtain ⟨u, hu⟩ := Option.isSome_iff_exists.mp hs
  rw [ofMark, hu]
  exact List.mem_of_find?_eq_some hu

theorem sameKind_ofMark_nil (hc : c ≠ '=') (more : List Char) :
    (ofMark c []).SameKind (ofMark c more) := by
  rcases ofMark_cases c more with ⟨hm, hp⟩ | hs
  · generalize ofMark c more = t at hm hp ⊢
    simp only [marks, ArithOp.all, List.map_cons, List.map_nil, List.cons_append, List.nil_append,
      List.mem_cons, List.not_mem_nil, or_false] at hm
    rcases hm with rfl | rfl | rfl | rfl | rfl | rfl | rfl | rfl | rfl | rfl <;>
      obtain ⟨rfl, -⟩ := List.cons_prefix_cons.mp hp
    · exact .compare _ _
    · exact .compare _ _
    · exact absurd rfl hc
    all_goals exact .refl _
  · have hn : ofMark c [] = stray c := by
      refine (ofMark_cases c []).resolve_left ?_
      rintro ⟨hm, hp⟩
      have hm' : ofMark c more ∈ marks :=
        ofMark_mem_marks hm (hp.trans (List.prefix_append [c] more))
      rw [hs] at hm'
      exact isProper_of_mem_marks hm'
    rw [hs, hn]
    exact .refl _

/-- A token at the end keeps its kind when the text goes on, unless it was a stem. -/
theorem sameKind_first_append (hd : c :: rest ≠ ['$']) (he : c :: rest ≠ ['=']) (more : List Char) :
    (first c rest).SameKind (first c (rest ++ more)) := by
  unfold first
  split
  · exact .numeral _ _
  split
  · exact .var _ _
  split
  next h =>
    have h' : c = '$' ∧ (rest ++ more).head?.any Char.isAlpha := by
      cases rest with
      | nil => exact absurd h.2 (by decide)
      | cons => exact h
    rw [if_pos h']
    exact .param _ _
  next h =>
    have h' : ¬ (c = '$' ∧ (rest ++ more).head?.any Char.isAlpha) := by
      cases rest with
      | nil =>
        rintro ⟨rfl, -⟩
        exact hd rfl
      | cons => exact h
    rw [if_neg h']
    cases rest with
    | nil =>
      apply sameKind_ofMark_nil
      rintro rfl
      exact he rfl
    | cons d rest =>
      rw [ofMark_append (List.cons_ne_nil d rest)]
      exact .refl _

end Token

theorem exists_first_of_mem_lexemes {l : Lexeme} (h : l ∈ lexemes text) :
    ∃ c rest, l = ⟨Token.first c rest, c :: rest⟩ ∧ ¬ startsGap c := by
  fun_induction lexemes text with
  | case1 => cases h
  | case2 rest ih => exact ih h
  | case3 c rest _ _ ih => exact ih h
  | case4 c rest hc hb ih =>
    rcases List.mem_cons.mp h with rfl | h
    · exact ⟨c, rest, rfl, not_startsGap_iff.mpr ⟨hc, hb⟩⟩
    · exact ih h

theorem tokens_nil : tokens [] = [] := by
  rw [tokens, lexemes, List.map_nil]

theorem tokens_cons (hc : ¬ startsGap c) :
    tokens (c :: rest) = Token.first c rest :: tokens (Token.after c rest) := by
  rw [tokens, lexemes_cons hc, List.map_cons, tokens]

theorem tokens_newline (text : List Char) : tokens ('\n' :: text) = tokens text :=
  tokens_gap (.blank rfl (.none text))

/-- Each token is ended by the line feed behind it. -/
theorem tokens_flatMap_newline {ts : List Token} (h : ∀ t ∈ ts, t.IsProper) :
    tokens (ts.flatMap fun t => t.spelling ++ ['\n']) = ts := by
  induction ts with
  | nil => rw [List.flatMap_nil, tokens_nil]
  | cons t ts ih =>
    have ⟨ht, hts⟩ := List.forall_mem_cons.mp h
    have hn : ∀ d ∈ ('\n' :: ts.flatMap fun t => t.spelling ++ ['\n']).head?,
        ¬ t.Continues d := by
      rintro _ ⟨⟩
      exact Token.not_continues_of_startsGap (by decide)
    rw [List.flatMap_cons, List.append_assoc, List.singleton_append, ht.tokens_append hn,
      tokens_newline, ih hts]

end LoopBounds.Text
