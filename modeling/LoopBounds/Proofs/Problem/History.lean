import LoopBounds.Proofs.Problem.Steps

namespace LoopBounds

namespace Offer

def range? : Offer → Option Range
  | range r => some r
  | constraint _ => none

def constraint? : Offer → Option (Constraint Value)
  | range _ => none
  | constraint c => some c

end Offer

def rangesIn (offers : List Offer) : List Range :=
  offers.filterMap Offer.range?

def constraintsIn (offers : List Offer) : List (Constraint Value) :=
  offers.filterMap Offer.constraint?

/-- No range that was offered before the constraint settles it, and no promoted range at all. -/
def StaysPending (offers : List Offer) (promoted : List Range) (c : Constraint Value) : Prop :=
  (∀ r ∈ rangesIn (offers.takeWhile (· ≠ .constraint c)), c ∉ r.halves) ∧
    ∀ r ∈ promoted, c ∉ r.halves

instance (offers : List Offer) (promoted : List Range) (c : Constraint Value) :
    Decidable (StaysPending offers promoted c) :=
  inferInstanceAs (Decidable (_ ∧ _))

/-- The problem that the offers come to, each entry in the place of its first offer. -/
def Problem.ofHistory (offers : List Offer) (promoted : List Range) : Problem where
  solved := (rangesIn offers).eraseDups
  pending := (constraintsIn offers).eraseDups.filter (StaysPending offers promoted ·)

variable {offers : List Offer} {promoted : List Range} {r : Range} {c : Constraint Value}

theorem eraseDups_append_singleton {α : Type} [DecidableEq α] (l : List α) (a : α) :
    (l ++ [a]).eraseDups = if a ∈ l then l.eraseDups else l.eraseDups ++ [a] := by
  rw [List.eraseDups_append]
  by_cases h : a ∈ l <;> simp [h, List.removeAll, List.eraseDups_cons]

theorem takeWhile_append_of_mem {α : Type} [DecidableEq α] {l : List α} {a : α} (h : a ∈ l)
    (m : List α) : (l ++ m).takeWhile (· ≠ a) = l.takeWhile (· ≠ a) := by
  induction l with
  | nil => cases h
  | cons b l ih =>
    rw [List.cons_append, List.takeWhile_cons, List.takeWhile_cons]
    by_cases hb : b = a
    · simp only [hb, ne_eq, not_true_eq_false, decide_false, Bool.false_eq_true, if_false]
    · rw [ih ((List.mem_cons.mp h).resolve_left (Ne.symm hb))]

theorem mem_constraintsIn : c ∈ constraintsIn offers ↔ .constraint c ∈ offers := by
  rw [constraintsIn, List.mem_filterMap]
  constructor
  · intro ⟨o, ho, hc⟩
    cases o with
    | range => cases hc
    | constraint => cases hc; exact ho
  · intro h
    exact ⟨_, h, rfl⟩

theorem rangesIn_append (os us : List Offer) : rangesIn (os ++ us) = rangesIn os ++ rangesIn us :=
  List.filterMap_append

theorem constraintsIn_append (os us : List Offer) :
    constraintsIn (os ++ us) = constraintsIn os ++ constraintsIn us :=
  List.filterMap_append

/-- Later offers do not change what was known at the first. -/
theorem staysPending_append (h : .constraint c ∈ offers) (os : List Offer) :
    StaysPending (offers ++ os) promoted c ↔ StaysPending offers promoted c := by
  rw [StaysPending, takeWhile_append_of_mem h]
  exact Iff.rfl

theorem takeWhile_append_self {α : Type} [DecidableEq α] {l : List α} {a : α} (h : a ∉ l) :
    (l ++ [a]).takeWhile (· ≠ a) = l := by
  have hl : ∀ b ∈ l, decide (b ≠ a) = true := by
    intro b hb
    exact decide_eq_true fun he => h (he ▸ hb)
  rw [List.takeWhile_append_of_pos hl, List.takeWhile_cons_of_neg (by simp), List.append_nil]

namespace Problem

theorem mem_solved_ofHistory : r ∈ (ofHistory offers promoted).solved ↔ r ∈ rangesIn offers :=
  List.mem_eraseDups

theorem mem_pending_ofHistory :
    c ∈ (ofHistory offers promoted).pending ↔
      .constraint c ∈ offers ∧ StaysPending offers promoted c := by
  rw [ofHistory, List.mem_filter, List.mem_eraseDups, mem_constraintsIn, decide_eq_true_eq]

theorem not_mem_settled_ofHistory :
    c ∉ (ofHistory offers promoted).settled ↔ ∀ r ∈ rangesIn offers, c ∉ r.halves := by
  simp only [mem_settled, mem_solved_ofHistory, not_exists, not_and]

theorem filter_ofHistory_append (os : List Offer) :
    (constraintsIn offers).eraseDups.filter (StaysPending (offers ++ os) promoted ·) =
      (ofHistory offers promoted).pending := by
  apply List.filter_congr
  intro c hc
  have ho := mem_constraintsIn.mp (List.mem_eraseDups.mp hc)
  exact decide_eq_decide.mpr (staysPending_append ho os)

theorem staysPending_of_not_mem_settled (hp : promoted ⊆ rangesIn offers)
    (hc : c ∉ (ofHistory offers promoted).settled) : StaysPending offers promoted c := by
  have hr := not_mem_settled_ofHistory.mp hc
  have ht : rangesIn (offers.takeWhile (· ≠ .constraint c)) ⊆ rangesIn offers :=
    ((List.takeWhile_sublist _).filterMap _).subset
  exact ⟨fun r h => hr r (ht h), fun r h => hr r (hp h)⟩

theorem staysPending_append_self (hp : promoted ⊆ rangesIn offers) (ho : .constraint c ∉ offers) :
    StaysPending (offers ++ [.constraint c]) promoted c ↔
      c ∉ (ofHistory offers promoted).settled := by
  rw [StaysPending, takeWhile_append_self ho, not_mem_settled_ofHistory]
  exact and_iff_left_of_imp fun h r hr => h r (hp hr)

theorem ofHistory_append_range (offers : List Offer) (promoted : List Range) (r : Range) :
    ofHistory (offers ++ [.range r]) promoted =
      ((ofHistory offers promoted).offer (.range r)).problem := by
  have hc : constraintsIn (offers ++ [.range r]) = constraintsIn offers :=
    (constraintsIn_append _ _).trans (List.append_nil _)
  have hr : rangesIn (offers ++ [.range r]) = rangesIn offers ++ [r] := rangesIn_append _ _
  rw [problem_offer_range, ofHistory, hc, hr, filter_ofHistory_append, eraseDups_append_singleton]
  by_cases h : r ∈ rangesIn offers
  · rw [if_pos h, if_pos (mem_solved_ofHistory.mpr h)]
    rfl
  · rw [if_neg h, if_neg (mt mem_solved_ofHistory.mp h)]
    rfl

theorem ofHistory_append_constraint (hp : promoted ⊆ rangesIn offers) (c : Constraint Value) :
    ofHistory (offers ++ [.constraint c]) promoted =
      ((ofHistory offers promoted).offer (.constraint c)).problem := by
  have hr : rangesIn (offers ++ [.constraint c]) = rangesIn offers :=
    (rangesIn_append _ _).trans (List.append_nil _)
  have hc : constraintsIn (offers ++ [.constraint c]) = constraintsIn offers ++ [c] :=
    constraintsIn_append _ _
  rw [problem_offer_constraint, ofHistory, hc, hr, eraseDups_append_singleton]
  by_cases ho : .constraint c ∈ offers
  · -- It may have been taken out again, but then a promoted range settles it.
    have hknown : c ∈ (ofHistory offers promoted).settled ∨
        c ∈ (ofHistory offers promoted).pending := by
      by_cases hs : c ∈ (ofHistory offers promoted).settled
      · exact .inl hs
      · exact .inr (mem_pending_ofHistory.mpr ⟨ho, staysPending_of_not_mem_settled hp hs⟩)
    rw [if_pos (mem_constraintsIn.mpr ho), filter_ofHistory_append, if_pos hknown]
    rfl
  · have hn : c ∉ (ofHistory offers promoted).pending := fun h =>
      ho (mem_pending_ofHistory.mp h).1
    rw [if_neg (mt mem_constraintsIn.mp ho), List.filter_append, filter_ofHistory_append]
    by_cases hs : c ∈ (ofHistory offers promoted).settled
    · have hf : [c].filter (StaysPending (offers ++ [.constraint c]) promoted ·) = [] := by
        simp only [List.filter_cons, staysPending_append_self hp ho, hs, not_true_eq_false,
          decide_false, Bool.false_eq_true, if_false, List.filter_nil]
      rw [if_pos (.inl hs), hf, List.append_nil]
      rfl
    · have hf : [c].filter (StaysPending (offers ++ [.constraint c]) promoted ·) = [c] := by
        simp only [List.filter_cons, staysPending_append_self hp ho, hs, not_false_eq_true,
          decide_true, if_true, List.filter_nil]
      rw [if_neg (not_or.mpr ⟨hs, hn⟩), hf]
      rfl

theorem ofHistory_promote (offers : List Offer) (promoted : List Range) (r : Range) :
    ofHistory offers (promoted ++ [r]) = ((ofHistory offers promoted).promote r).problem := by
  have hs (c : Constraint Value) : StaysPending offers (promoted ++ [r]) c ↔
      c ∉ r.halves ∧ StaysPending offers promoted c := by
    simp only [StaysPending, List.forall_mem_append, List.forall_mem_singleton]
    rw [← and_assoc, and_comm]
  simp only [promote, ofHistory, List.filter_filter, hs, Bool.decide_and]

theorem foldl_offer_ofHistory (hp : promoted ⊆ rangesIn offers) (os : List Offer) :
    os.foldl (fun p o => (p.offer o).problem) (ofHistory offers promoted) =
      ofHistory (offers ++ os) promoted := by
  induction os generalizing offers with
  | nil => rw [List.append_nil]; rfl
  | cons o os ih =>
    have hn : promoted ⊆ rangesIn (offers ++ [o]) := by
      rw [rangesIn_append]
      exact List.subset_append_of_subset_left _ hp
    have ho : ((ofHistory offers promoted).offer o).problem =
        ofHistory (offers ++ [o]) promoted := by
      cases o with
      | range r => exact (ofHistory_append_range offers promoted r).symm
      | constraint c => exact (ofHistory_append_constraint hp c).symm
    rw [List.foldl_cons, ho, ih hn, List.append_assoc]
    rfl

theorem add_ofHistory (hp : promoted ⊆ rangesIn offers) (f : Fact) :
    ((ofHistory offers promoted).add f).problem =
      ofHistory (offers ++ f.offers) (promoted ++ f.promoted?.toList) := by
  cases h : f.promoted? with
  | some r =>
    rw [problem_add_of_promoted h, ← ofHistory_promote, ← ofHistory_append_range,
      Fact.offers_of_promoted h]
    rfl
  | none =>
    rw [problem_add_of_not_promoted h, foldl_offer_ofHistory hp, Option.toList_none,
      List.append_nil]

theorem promoted_subset_rangesIn (hp : promoted ⊆ rangesIn offers) (f : Fact) :
    promoted ++ f.promoted?.toList ⊆ rangesIn (offers ++ f.offers) := by
  have hf : f.promoted?.toList ⊆ rangesIn f.offers := by
    cases h : f.promoted? with
    | none => exact List.nil_subset _
    | some r =>
      rw [Fact.offers_of_promoted h]
      exact List.Subset.refl [r]
  rw [rangesIn_append]
  exact List.append_subset.mpr ⟨List.subset_append_of_subset_left _ hp,
    List.subset_append_of_subset_right _ hf⟩

theorem addAll_ofHistory (hp : promoted ⊆ rangesIn offers) (facts : List Fact) :
    ((ofHistory offers promoted).addAll facts).problem =
      ofHistory (offers ++ facts.flatMap Fact.offers)
        (promoted ++ facts.filterMap Fact.promoted?) := by
  rw [problem_addAll]
  induction facts generalizing offers promoted with
  | nil =>
    rw [List.flatMap_nil, List.filterMap_nil, List.append_nil, List.append_nil]
    rfl
  | cons f facts ih =>
    rw [List.foldl_cons, add_ofHistory hp, ih (promoted_subset_rangesIn hp f), List.flatMap_cons,
      Fact.filterMap_promoted?_cons, List.append_assoc, List.append_assoc]

/-- Every entry stands where it was first offered, unless a range settles it. -/
theorem addAll_empty (facts : List Fact) :
    (empty.addAll facts).problem =
        ofHistory (facts.flatMap Fact.offers) (facts.filterMap Fact.promoted?) ∧
      (∀ (f : Fact) (r : Range), f.promoted? = some r ↔
        f = .between r.low (.var r.name) r.up ∧ r.low.isInvariant ∧ r.up.isInvariant) ∧
      (∀ r, (Fact.range r).offers = [.range r]) ∧
      (∀ c, (Fact.constraint c).offers = [.constraint c]) ∧
      ∀ lower middle upper, (Fact.between lower middle upper).offers =
        (Fact.between lower middle upper).promoted?.elim
          [.constraint ⟨lower, .lessOrEqual, middle⟩, .constraint ⟨middle, .lessThan, upper⟩]
          fun r => [.range r] := by
  have hp : [] ⊆ rangesIn [] := List.nil_subset _
  exact ⟨addAll_ofHistory hp facts, fun _ _ => Fact.promoted?_eq_some_iff, Fact.offers_range,
    Fact.offers_constraint, Fact.offers_between_eq_elim⟩

/-- A range that is stated leaves its pending halves alone. One that is promoted takes them out. -/
example :
    let lower : Constraint Value := ⟨.const 0, .lessOrEqual, .var "i"⟩
    let r : Range := ⟨"i", .const 0, .param "N"⟩
    (empty.addAll [.constraint lower, .range r]).problem = ⟨[r], [lower]⟩ ∧
      (empty.addAll [.constraint lower, .between r.low (.var "i") r.up]).problem = ⟨[r], []⟩ := by
  decide

end Problem

end LoopBounds
