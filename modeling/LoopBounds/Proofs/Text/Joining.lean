import LoopBounds.Proofs.Text.Rendering
import LoopBounds.Proofs.Text.Splitting

namespace LoopBounds.Text

variable {text u w l r l' r' : List Char} {a b a' b' : Expr Numeral} {op op' : CmpOp}
  {c : Constraint Numeral}

theorem Token.newline_notMem_spelling_first {c : Char} (hc : ¬ startsGap c) (rest : List Char) :
    '\n' ∉ (first c rest).spelling := by
  rcases first_isProper c rest with h | h
  · exact h.noGap.newline_notMem
  · rw [h, spelling, List.mem_singleton]
    rintro rfl
    exact hc (by decide)

theorem afterComment_append_of_notMem (h : '\n' ∉ u) (w : List Char) :
    afterComment (u ++ w) = afterComment w := by
  apply List.dropWhile_append_of_pos
  intro c hc
  exact bne_iff_ne.mpr fun he => h (he ▸ hc)

theorem lexemes_afterComment_suffix (text : List Char) :
    lexemes (afterComment text) <:+ lexemes text := by
  fun_induction lexemes text with
  | case1 =>
    have hl : lexemes (afterComment []) = [] := by
      rw [afterComment, List.dropWhile_nil, lexemes]
    exact hl ▸ List.suffix_rfl
  | case2 rest ih => exact List.suffix_rfl
  | case3 c rest hc hb ih =>
    by_cases hn : c = '\n'
    · subst hn
      have hl : lexemes (afterComment ('\n' :: rest)) = lexemes rest :=
        lexemes_gap (.blank hb (.none rest))
      exact hl ▸ List.suffix_rfl
    · rwa [← List.singleton_append, afterComment_append_of_notMem (by simpa using Ne.symm hn)]
  | case4 c rest hc hb ih =>
    have hgap : ¬ startsGap c := not_startsGap_iff.mpr ⟨hc, hb⟩
    -- A token holds no line feed, so that the comment takes in all of it.
    rw [← Token.spelling_append_after c rest,
      afterComment_append_of_notMem (Token.newline_notMem_spelling_first hgap rest)]
    exact ih.trans (List.suffix_cons _ _)

/-- Two texts are read one after the other, unless a comment goes on in the second. -/
theorem exists_lexemes_append (hp : ∀ t ∈ tokens u, t.IsProper)
    (hn : ∀ t ∈ tokens u, ∀ c ∈ w.head?, ¬ t.Continues c) :
    ∃ ls v, (v = w ∨ v = afterComment w) ∧ ls.map Lexeme.token = tokens u ∧
      lexemes (u ++ w) = ls ++ lexemes v := by
  rw [tokens] at hp hn ⊢
  fun_induction lexemes u with
  | case1 => exact ⟨[], w, .inl rfl, rfl, rfl⟩
  | case2 rest ih =>
    have ha : afterComment (rest ++ w) =
        if (afterComment rest).isEmpty then afterComment w else afterComment rest ++ w :=
      List.dropWhile_append
    rw [List.cons_append, lexemes, if_pos rfl, ha]
    split
    next he =>
      -- No line feed ends the comment before the second text begins.
      refine ⟨[], afterComment w, .inr rfl, ?_, rfl⟩
      rw [List.isEmpty_iff.mp he, lexemes]
    next => exact ih hp hn
  | case3 c rest hc hb ih =>
    rw [List.cons_append, lexemes, if_neg hc, if_pos hb]
    exact ih hp hn
  | case4 c rest hc hb ih =>
    rw [List.map_cons] at hp hn
    obtain ⟨ht, hts⟩ := List.forall_mem_cons.mp hp
    obtain ⟨hc', hcs⟩ := List.forall_mem_cons.mp hn
    obtain ⟨ls, v, hv, hm, hl⟩ := ih hts hcs
    have hd : ∀ d ∈ (Token.after c rest ++ w).head?, ¬ (Token.first c rest).Continues d := by
      intro d hd
      cases ha : Token.after c rest with
      | nil => exact hc' d (by rwa [ha] at hd)
      | cons e after =>
        apply Token.not_continues_after c rest d
        rwa [ha] at hd ⊢
    refine ⟨⟨Token.first c rest, c :: (rest ++ w)⟩ :: ls, v, hv, ?_, ?_⟩
    · rw [List.map_cons, List.map_cons, hm]
    · have hs := ht.lexemes_append hd
      rw [← List.append_assoc, Token.spelling_append_after, hl] at hs
      exact hs

/-- Neither a comment nor a token goes on behind a line feed. -/
theorem exists_lexemes_newline (hp : ∀ t ∈ tokens u, t.IsProper) (w : List Char) :
    ∃ ls, ls.map Lexeme.token = tokens u ∧ lexemes (u ++ '\n' :: w) = ls ++ lexemes w := by
  have hn : ∀ t ∈ tokens u, ∀ c ∈ ('\n' :: w).head?, ¬ t.Continues c := by
    rintro t - _ ⟨⟩
    exact Token.not_continues_of_startsGap (by decide)
  obtain ⟨ls, v, hv, hm, hl⟩ := exists_lexemes_append hp hn
  have hv : v = '\n' :: w := hv.elim id id
  refine ⟨ls, hm, ?_⟩
  rw [hl, hv, lexemes_gap (.blank rfl (.none w))]

theorem IsSum.isProper (h : IsSum (tokens text) a) : ∀ t ∈ tokens text, t.IsProper :=
  (layout_tokens h.stray_notMem).isProper

/-- No expression begins with a sign of equality. -/
theorem IsSum.not_continues (h : IsSum (tokens r) b) (op : CmpOp) :
    ∀ d ∈ r.head?, ¬ (Token.compare op).Continues d := by
  intro d hd hc
  rcases hc.cases with ⟨ho, -⟩ | ⟨-, rfl⟩
  · exact ho
  · obtain ⟨rest, rfl⟩ := List.head?_eq_some_iff.mp hd
    have hm : Token.first '=' rest ∈ tokens ('=' :: rest) := by
      rw [tokens_cons (by decide)]
      exact List.mem_cons_self
    rcases Token.first_equals rest with hs | hs
    · exact h.stray_notMem '=' (hs ▸ hm)
    · exact h.not_isComparison hm hs

theorem IsConstraint.exists_isComparison {ts : List Token} (h : IsConstraint ts c) :
    ∃ t ∈ ts, t.IsComparison := by
  cases h with | compare op ha hb
  exact ⟨.compare op, List.mem_append_right _ List.mem_cons_self, trivial⟩

theorem IsSum.exists_lexemes_compare (ha : IsSum (tokens l) a) (op : CmpOp)
    (hr : ∀ d ∈ r.head?, ¬ (Token.compare op).Continues d) :
    ∃ ls, ls.map Lexeme.token = tokens l ∧
      (lexemes (l ++ (op.spelling.toList ++ r)) =
          ls ++ ⟨.compare op, op.spelling.toList ++ r⟩ :: lexemes r ∨
        lexemes (l ++ (op.spelling.toList ++ r)) = ls ++ lexemes (afterComment r)) := by
  have hn : ∀ t ∈ tokens l, ∀ d ∈ (op.spelling.toList ++ r).head?, ¬ t.Continues d := by
    intro t ht d hd hc
    have hname : ¬ isNameChar d := by
      cases op <;> cases hd <;> decide
    rcases hc.cases with ⟨-, h⟩ | ⟨h, -⟩
    · exact hname h
    · exact ha.not_isComparison ht h
  obtain ⟨ls, v, hv, hm, hl⟩ := exists_lexemes_append ha.isProper hn
  refine ⟨ls, hm, ?_⟩
  rw [hl]
  rcases hv with rfl | rfl
  · have hp : (Token.compare op).IsProper := trivial
    exact .inl (congrArg _ (hp.lexemes_append hr))
  · have hs : '\n' ∉ op.spelling.toList := by cases op <;> decide
    rw [afterComment_append_of_notMem hs]
    exact .inr rfl

/-- No comment of the left side hides the operator of a text that is well formed. -/
theorem IsConstraint.exists_lexemes (hc : IsConstraint (tokens (l ++ (op.spelling.toList ++ r))) c)
    (ha : IsSum (tokens l) a) (hb : IsSum (tokens r) b) :
    ∃ ls, ls.map Lexeme.token = tokens l ∧ lexemes (l ++ (op.spelling.toList ++ r)) =
      ls ++ ⟨.compare op, op.spelling.toList ++ r⟩ :: lexemes r := by
  obtain ⟨ls, hm, hl | hl⟩ := ha.exists_lexemes_compare op (hb.not_continues op)
  · exact ⟨ls, hm, hl⟩
  · -- Then the comparison of the whole would have to stand in one of the sides.
    obtain ⟨t, ht, hcmp⟩ := hc.exists_isComparison
    rw [tokens, hl, List.map_append, hm] at ht
    rcases List.mem_append.mp ht with ht | ht
    · exact absurd hcmp (ha.not_isComparison ht)
    · have hsub := ((lexemes_afterComment_suffix r).map Lexeme.token).subset
      exact absurd hcmp (hb.not_isComparison (hsub ht))

theorem IsConstraint.sides_unique
    (hc : IsConstraint (tokens (l ++ (op.spelling.toList ++ r))) c)
    (ha : IsSum (tokens l) a) (hb : IsSum (tokens r) b) (ha' : IsSum (tokens l') a')
    (hb' : IsSum (tokens r') b')
    (he : l ++ (op.spelling.toList ++ r) = l' ++ (op'.spelling.toList ++ r')) :
    l' = l ∧ op' = op ∧ r' = r := by
  obtain ⟨ls, hm, hl⟩ := hc.exists_lexemes ha hb
  rw [he] at hc
  obtain ⟨ls', hm', hl'⟩ := hc.exists_lexemes ha' hb'
  have hnone {u : List Char} {e : Expr Numeral} {ls : List Lexeme} (h : IsSum (tokens u) e)
      (hm : ls.map Lexeme.token = tokens u) : ∀ x ∈ ls, ¬ x.token.IsComparison := by
    intro x hx
    apply h.not_isComparison
    rw [← hm]
    exact List.mem_map_of_mem hx
  have hop (op : CmpOp) : (Token.compare op).IsComparison := trivial
  rw [he, hl'] at hl
  have hx := (append_cons_inj_of (hnone ha' hm') (hnone ha hm) (hop op') (hop op)).mp hl
  obtain ⟨hop, hhere⟩ := Lexeme.mk.inj hx.2.1
  cases hop
  rw [hhere] at he
  exact ⟨(List.append_cancel_right he).symm, rfl, List.append_cancel_left hhere⟩

theorem exists_sides (h : readConstraint (lexemes text) = .ok c) :
    ∃ l r, text = l ++ (c.op.spelling.toList ++ r) ∧ IsSum (tokens l) c.left ∧
      IsSum (tokens r) c.right := by
  obtain ⟨left, here, right, hl, ha, hb⟩ := (readConstraint_eq_ok_iff.mp h).exists_sides
  obtain ⟨before, ht, hu⟩ := exists_tokens_append hl ha.stray_notMem
  have hmem : ⟨.compare c.op, here⟩ ∈ lexemes text := by
    rw [hl]
    exact List.mem_append_right _ List.mem_cons_self
  obtain ⟨d, rest, hd, hgap⟩ := exists_first_of_mem_lexemes hmem
  obtain ⟨hfirst, rfl⟩ := Lexeme.mk.inj hd
  have hleft : tokens before = left.map Lexeme.token := by
    have h := hu [] fun _ h => nomatch h
    rwa [tokens_nil, List.append_nil, List.append_nil] at h
  have hright : tokens (Token.after d rest) = right.map Lexeme.token := by
    have h := hu (d :: rest) fun _ h => .inr h
    rw [← show text = before ++ d :: rest from ht, tokens_cons hgap, tokens, hl, List.map_append,
      List.append_right_inj, List.map_cons] at h
    exact (List.cons.inj h).2.symm
  refine ⟨before, Token.after d rest, ?_, hleft ▸ ha, hright ▸ hb⟩
  have hs := Token.spelling_append_after d rest
  rw [← hfirst] at hs
  rw [ht]
  exact congrArg _ hs.symm

end LoopBounds.Text
