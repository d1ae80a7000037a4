import LoopBounds.Proofs.Problem.History
import LoopBounds.Proofs.Problem.Log
import Mathlib.Data.List.Perm.Basic

namespace LoopBounds

namespace Problem

variable {p : Problem} {o : Offer} {os : List Offer} {r : Range} {e : Event} {f : Fact}
  {u v : Update}

/-- The books of a run: what was `recorded`, and what promoted ranges have `taken` out. -/
structure Accounts (p : Problem) (offers : List Offer) (promoted : List Range) (u : Update)
    (recorded : List Offer) (taken : List (Constraint Value)) : Prop where
  promoted_eq : u.events.filterMap Event.promoted? = promoted
  offers_perm : offers.Perm (recorded ++ u.events.filterMap Event.skipped?)
  recorded_sublist : recorded.Sublist offers
  skipped_sublist : (u.events.filterMap Event.skipped?).Sublist offers
  solved_eq : u.problem.solved = p.solved ++ rangesIn recorded
  pending_perm : (p.pending ++ constraintsIn recorded).Perm (u.problem.pending ++ taken)
  pending_sublist : u.problem.pending.Sublist (p.pending ++ constraintsIn recorded)
  settled_taken : ∀ c ∈ taken, ∃ r ∈ promoted, c ∈ r.halves

theorem solved_record (p : Problem) (o : Offer) :
    (p.record o).solved = p.solved ++ rangesIn [o] := by
  cases o with
  | range r => rfl
  | constraint c => exact (List.append_nil _).symm

theorem pending_record (p : Problem) (o : Offer) :
    (p.record o).pending = p.pending ++ constraintsIn [o] := by
  cases o with
  | range r => exact (List.append_nil _).symm
  | constraint c => rfl

theorem perm_append_right_comm {α : Type} (l m n : List α) :
    ((l ++ m) ++ n).Perm ((l ++ n) ++ m) := by
  rw [List.append_assoc, List.append_assoc]
  exact List.perm_append_comm.append_left l

namespace Accounts

variable {os' recorded recorded' : List Offer} {rs rs' : List Range}
  {taken taken' : List (Constraint Value)}

theorem refl (p : Problem) : p.Accounts [] [] ⟨p, []⟩ [] [] where
  promoted_eq := rfl
  offers_perm := .refl _
  recorded_sublist := .refl _
  skipped_sublist := .refl _
  solved_eq := (List.append_nil _).symm
  pending_perm := .refl _
  pending_sublist := List.sublist_append_left _ _
  settled_taken := fun _ h => nomatch h

theorem record (p : Problem) (o : Offer) : p.Accounts [o] [] ⟨p.record o, []⟩ [o] [] where
  promoted_eq := rfl
  offers_perm := .refl _
  recorded_sublist := .refl _
  skipped_sublist := List.nil_sublist _
  solved_eq := solved_record p o
  pending_perm := by rw [pending_record, List.append_nil]
  pending_sublist := by rw [pending_record]
  settled_taken := fun _ h => nomatch h

theorem skip (p : Problem) (h : e.skipped? = some o) : p.Accounts [o] [] ⟨p, [e]⟩ [] [] where
  promoted_eq := List.filterMap_cons_none (Event.promoted?_of_skipped? h)
  offers_perm := by
    rw [List.filterMap_cons_some h]
    exact .refl _
  recorded_sublist := List.nil_sublist _
  skipped_sublist := by
    rw [List.filterMap_cons_some h]
    exact .refl _
  solved_eq := (List.append_nil _).symm
  pending_perm := .refl _
  pending_sublist := List.sublist_append_left _ _
  settled_taken := fun _ h => nomatch h

theorem promote (p : Problem) (h : e.promoted? = some r) :
    p.Accounts [] [r] ⟨⟨p.solved, p.pending.filter fun c => c ≠ r.lower ∧ c ≠ r.upper⟩, [e]⟩ []
      (p.pending.filter fun c => ¬ (c ≠ r.lower ∧ c ≠ r.upper)) where
  promoted_eq := List.filterMap_cons_some h
  offers_perm := by
    rw [List.filterMap_cons_none (Event.skipped?_of_promoted? h)]
    exact .refl _
  recorded_sublist := .refl _
  skipped_sublist := by
    rw [List.filterMap_cons_none (Event.skipped?_of_promoted? h)]
    exact .refl _
  solved_eq := (List.append_nil _).symm
  pending_perm := by
    rw [constraintsIn, List.filterMap_nil, List.append_nil]
    simp only [decide_not]
    exact (List.filter_append_perm _ _).symm
  pending_sublist := List.filter_sublist.trans (List.sublist_append_left _ _)
  settled_taken := by
    intro c hc
    have hh := of_decide_eq_true (List.mem_filter.mp hc).2
    refine ⟨r, List.mem_singleton_self r, ?_⟩
    rw [Range.halves, List.mem_cons, List.mem_singleton]
    by_contra hn
    exact hh (not_or.mp hn)

theorem trans (h : p.Accounts os rs u recorded taken)
    (h' : u.problem.Accounts os' rs' v recorded' taken') :
    p.Accounts (os ++ os') (rs ++ rs') ⟨v.problem, u.events ++ v.events⟩ (recorded ++ recorded')
      (taken ++ taken') where
  promoted_eq := by rw [List.filterMap_append, h.promoted_eq, h'.promoted_eq]
  offers_perm := by
    rw [List.filterMap_append]
    apply (h.offers_perm.append h'.offers_perm).trans
    rw [List.append_assoc, List.append_assoc]
    exact (List.perm_append_comm_assoc _ _ _).append_left recorded
  recorded_sublist := h.recorded_sublist.append h'.recorded_sublist
  skipped_sublist := by
    rw [List.filterMap_append]
    exact h.skipped_sublist.append h'.skipped_sublist
  solved_eq := by rw [h'.solved_eq, h.solved_eq, rangesIn_append, List.append_assoc]
  pending_perm := by
    rw [constraintsIn_append, ← List.append_assoc, ← List.append_assoc]
    calc List.Perm ((p.pending ++ constraintsIn recorded) ++ constraintsIn recorded')
          ((u.problem.pending ++ taken) ++ constraintsIn recorded') := h.pending_perm.append_right _
      List.Perm _ ((u.problem.pending ++ constraintsIn recorded') ++ taken) :=
        perm_append_right_comm _ _ _
      List.Perm _ ((v.problem.pending ++ taken') ++ taken) := h'.pending_perm.append_right _
      List.Perm _ ((v.problem.pending ++ taken) ++ taken') := perm_append_right_comm _ _ _
  pending_sublist := by
    rw [constraintsIn_append, ← List.append_assoc]
    exact h'.pending_sublist.trans (h.pending_sublist.append_right _)
  settled_taken := by
    intro c hc
    rcases List.mem_append.mp hc with hc | hc
    · obtain ⟨r, hr, hh⟩ := h.settled_taken c hc
      exact ⟨r, List.mem_append_left _ hr, hh⟩
    · obtain ⟨r, hr, hh⟩ := h'.settled_taken c hc
      exact ⟨r, List.mem_append_right _ hr, hh⟩

theorem length_offers (h : p.Accounts os rs u recorded taken) :
    os.length = recorded.length + (u.events.filterMap Event.skipped?).length := by
  rw [h.offers_perm.length_eq, List.length_append]

theorem length_solved (h : p.Accounts os rs u recorded taken) :
    p.solved.length + (rangesIn os).length =
      u.problem.solved.length + (rangesIn (u.events.filterMap Event.skipped?)).length := by
  have ho : (rangesIn os).length = _ := (h.offers_perm.filterMap Offer.range?).length_eq
  rw [ho, h.solved_eq, List.filterMap_append, List.length_append, List.length_append, Nat.add_assoc]
  rfl

theorem length_pending (h : p.Accounts os rs u recorded taken) :
    p.pending.length + (constraintsIn os).length =
      u.problem.pending.length + (constraintsIn (u.events.filterMap Event.skipped?)).length +
        taken.length := by
  have ho : (constraintsIn os).length = _ := (h.offers_perm.filterMap Offer.constraint?).length_eq
  have hp := h.pending_perm.length_eq
  rw [List.filterMap_append, List.length_append] at ho
  rw [List.length_append, List.length_append] at hp
  simp only [constraintsIn] at ho hp ⊢
  omega

end Accounts

theorem Judges.accounts (h : p.Judges os u) : ∃ recorded, p.Accounts os [] u recorded [] := by
  induction h with
  | done p => exact ⟨[], .refl p⟩
  | recorded _ _ ih =>
    obtain ⟨recorded, h⟩ := ih
    exact ⟨_, (Accounts.record _ _).trans h⟩
  | skipped _ ho _ _ ih =>
    obtain ⟨recorded, h⟩ := ih
    exact ⟨_, (Accounts.skip _ ho).trans h⟩

theorem Adds.accounts (h : p.Adds f u) :
    ∃ recorded taken, p.Accounts f.offers f.promoted?.toList u recorded taken := by
  cases h with
  | range h =>
    obtain ⟨recorded, h⟩ := h.accounts
    exact ⟨recorded, [], h⟩
  | constraint h =>
    obtain ⟨recorded, h⟩ := h.accounts
    exact ⟨recorded, [], h⟩
  | promoted hl hu _ he _ h =>
    have hf := Fact.promoted?_eq_some_iff.mpr ⟨rfl, hl, hu⟩
    obtain ⟨recorded, h⟩ := h.accounts
    rw [Fact.offers_of_promoted hf, hf]
    exact ⟨_, _, (Accounts.promote p he).trans h⟩
  | between hn h =>
    have hf := Fact.promoted?_between_eq_none hn
    obtain ⟨recorded, h⟩ := h.accounts
    rw [Fact.offers_between hf, hf]
    exact ⟨recorded, [], h⟩

theorem addAll_cons (p : Problem) (f : Fact) (facts : List Fact) :
    p.addAll (f :: facts) = (p.add f).andThen (·.addAll facts) :=
  Update.foldl_andThen (fun f p => p.add f) facts (p.add f)

theorem accounts_addAll (p : Problem) (facts : List Fact) :
    ∃ recorded taken, p.Accounts (facts.flatMap Fact.offers) (facts.filterMap Fact.promoted?)
      (p.addAll facts) recorded taken := by
  induction facts generalizing p with
  | nil => exact ⟨[], [], .refl p⟩
  | cons f facts ih =>
    obtain ⟨recorded, taken, h⟩ := (p.adds_add f).accounts
    obtain ⟨recorded', taken', h'⟩ := ih (p.add f).problem
    rw [addAll_cons, List.flatMap_cons, Fact.filterMap_promoted?_cons]
    exact ⟨_, _, h.trans h'⟩

/-- Every offer is either recorded or told in the log with the reason why it is not. -/
theorem log_accounts_for_offers :
    (∀ (p : Problem) (f : Fact) (u : Update), p.Adds f u ↔ p.add f = u) ∧
      ∀ (p : Problem) (facts : List Fact), ∃ recorded taken,
        p.Accounts (facts.flatMap Fact.offers) (facts.filterMap Fact.promoted?) (p.addAll facts)
            recorded taken ∧
          (facts.flatMap Fact.offers).length =
            recorded.length + ((p.addAll facts).events.filterMap Event.skipped?).length ∧
          p.solved.length + (rangesIn (facts.flatMap Fact.offers)).length =
            (p.addAll facts).problem.solved.length +
              (rangesIn ((p.addAll facts).events.filterMap Event.skipped?)).length ∧
          p.pending.length + (constraintsIn (facts.flatMap Fact.offers)).length =
            (p.addAll facts).problem.pending.length +
              (constraintsIn ((p.addAll facts).events.filterMap Event.skipped?)).length +
              taken.length := by
  constructor
  · intro p f u
    exact adds_iff
  · intro p facts
    obtain ⟨recorded, taken, h⟩ := p.accounts_addAll facts
    exact ⟨recorded, taken, h, h.length_offers, h.length_solved, h.length_pending⟩

/-- Bounds that are solved again are logged both as solved and as known. -/
example :
    let i : Range := ⟨"i", .const 0, .param "N"⟩
    let j : Constraint Value := ⟨.var "j", .lessThan, .var "i"⟩
    (Problem.mk [i] [i.upper, j, i.upper]).addAll
        [.between i.low (.var "i") i.up, .between i.low (.var "i") (.var "j"), .constraint j] =
      ⟨⟨[i], [j, ⟨.var "i", .lessThan, .var "j"⟩]⟩,
        [.solvedFromBounds i, .duplicateRange i, .impliedConstraint i.lower,
          .duplicateConstraint j]⟩ := by
  decide

end Problem

end LoopBounds
