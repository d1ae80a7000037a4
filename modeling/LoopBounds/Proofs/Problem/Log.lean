import LoopBounds.Proofs.Problem.Steps

namespace LoopBounds

namespace Offer

def render : Offer → String
  | range r => r.render
  | constraint c => c.render

end Offer

namespace Event

def promoted? : Event → Option Range
  | solvedFromBounds r => some r
  | _ => none

/-- The offer that was not recorded, if the event is about that. -/
def skipped? : Event → Option Offer
  | solvedFromBounds _ => none
  | duplicateRange r => some (.range r)
  | impliedConstraint c => some (.constraint c)
  | duplicateConstraint c => some (.constraint c)

variable {e : Event} {o : Offer}

theorem rendered_of_skipped? (h : e.skipped? = some o) : e.rendered = o.render := by
  cases e with
  | solvedFromBounds => cases h
  | duplicateRange | impliedConstraint | duplicateConstraint => cases h; rfl

theorem promoted?_of_skipped? (h : e.skipped? = some o) : e.promoted? = none := by
  cases e with
  | solvedFromBounds => cases h
  | duplicateRange | impliedConstraint | duplicateConstraint => rfl

theorem skipped?_of_promoted? {r : Range} (h : e.promoted? = some r) : e.skipped? = none := by
  cases e with
  | solvedFromBounds => rfl
  | duplicateRange | impliedConstraint | duplicateConstraint => cases h

end Event

namespace Problem

def record (p : Problem) : Offer → Problem
  | .range r => p.pushRange r
  | .constraint c => p.pushConstraint c

/-- The message with which the problem turns an offer down. -/
inductive Skips (p : Problem) : Offer → String → Prop
  | duplicateRange {r : Range} (h : r ∈ p.solved) :
      p.Skips (.range r) "skipping duplicate range"
  | implied {r : Range} {c : Constraint Value} (hr : r ∈ p.solved) (hc : c ∈ r.halves) :
      p.Skips (.constraint c) "constraint implied by a solved range"
  | duplicateConstraint {c : Constraint Value} (hn : ∀ r ∈ p.solved, c ∉ r.halves)
      (h : c ∈ p.pending) : p.Skips (.constraint c) "skipping duplicate constraint"

/-- The offers are judged one by one, each in the state that the one before has left. -/
inductive Judges : Problem → List Offer → Update → Prop
  | done (p : Problem) : Judges p [] ⟨p, []⟩
  | recorded {p : Problem} {o : Offer} {os : List Offer} {u : Update}
      (h : ∀ message, ¬ p.Skips o message) (hu : Judges (p.record o) os u) : Judges p (o :: os) u
  | skipped {p : Problem} {o : Offer} {os : List Offer} {e : Event} {u : Update}
      (hm : p.Skips o e.message) (ho : e.skipped? = some o) (hr : e.rendered = o.render)
      (hu : Judges p os u) : Judges p (o :: os) ⟨u.problem, e :: u.events⟩

/-- What a fact does to the problem and to the log. -/
inductive Adds (p : Problem) : Fact → Update → Prop
  | range {r : Range} {u : Update} (h : p.Judges [.range r] u) : p.Adds (.range r) u
  | constraint {c : Constraint Value} {u : Update} (h : p.Judges [.constraint c] u) :
      p.Adds (.constraint c) u
  | promoted {r : Range} {e : Event} {u : Update} (hl : r.low.isInvariant) (hu : r.up.isInvariant)
      (hm : e.message = "solved range from bounds") (he : e.promoted? = some r)
      (hr : e.rendered = r.render)
      (h : Judges ⟨p.solved, p.pending.filter fun c => c ≠ r.lower ∧ c ≠ r.upper⟩ [.range r] u) :
      p.Adds (.between r.low (.var r.name) r.up) ⟨u.problem, e :: u.events⟩
  | between {lower middle upper : Expr Value} {u : Update}
      (hn : ¬ (middle.isVar ∧ lower.isInvariant ∧ upper.isInvariant))
      (h : p.Judges [.constraint ⟨lower, .lessOrEqual, middle⟩,
        .constraint ⟨middle, .lessThan, upper⟩] u) : p.Adds (.between lower middle upper) u

variable {p : Problem} {o : Offer} {os : List Offer} {r : Range} {c : Constraint Value}
  {m : String} {e : Event} {f : Fact} {u : Update}

theorem skips_range_iff :
    p.Skips (.range r) m ↔ r ∈ p.solved ∧ m = "skipping duplicate range" := by
  constructor
  · intro h
    cases h with
    | duplicateRange h => exact ⟨h, rfl⟩
  · rintro ⟨h, rfl⟩
    exact .duplicateRange h

theorem skips_constraint_iff :
    p.Skips (.constraint c) m ↔
      c ∈ p.settled ∧ m = "constraint implied by a solved range" ∨
        c ∉ p.settled ∧ c ∈ p.pending ∧ m = "skipping duplicate constraint" := by
  simp only [mem_settled, not_exists, not_and]
  constructor
  · intro h
    cases h with
    | implied hr hc => exact .inl ⟨⟨_, hr, hc⟩, rfl⟩
    | duplicateConstraint hn h => exact .inr ⟨hn, h, rfl⟩
  · rintro (⟨⟨r, hr, hc⟩, rfl⟩ | ⟨hn, h, rfl⟩)
    · exact .implied hr hc
    · exact .duplicateConstraint hn h

theorem offer_of_not_skips (h : ∀ message, ¬ p.Skips o message) :
    p.offer o = ⟨p.record o, []⟩ := by
  cases o with
  | range r =>
    have hr : r ∉ p.solved := fun hr => h _ (.duplicateRange hr)
    rw [offer, if_neg hr]
    rfl
  | constraint c =>
    have hs : c ∉ p.settled := fun hs => h _ (skips_constraint_iff.mpr (.inl ⟨hs, rfl⟩))
    have hp : c ∉ p.pending := fun hp => h _ (skips_constraint_iff.mpr (.inr ⟨hs, hp, rfl⟩))
    rw [offer, if_neg hs, if_neg hp]
    rfl

theorem offer_of_skips (hm : p.Skips o e.message) (ho : e.skipped? = some o) :
    p.offer o = ⟨p, [e]⟩ := by
  cases e with
  | solvedFromBounds => cases ho
  | duplicateRange r =>
    cases ho
    rw [offer, if_pos (skips_range_iff.mp hm).1]
  | impliedConstraint c =>
    cases ho
    rcases skips_constraint_iff.mp hm with ⟨hs, -⟩ | ⟨-, -, hm⟩
    · rw [offer, if_pos hs]
    · rw [Event.message] at hm
      exact absurd hm (by decide)
  | duplicateConstraint c =>
    cases ho
    rcases skips_constraint_iff.mp hm with ⟨-, hm⟩ | ⟨hs, hp, -⟩
    · rw [Event.message] at hm
      exact absurd hm (by decide)
    · rw [offer, if_neg hs, if_pos hp]

theorem Skips.exists_event (h : p.Skips o m) :
    ∃ e : Event, p.Skips o e.message ∧ e.skipped? = some o := by
  cases h with
  | duplicateRange h => exact ⟨.duplicateRange _, .duplicateRange h, rfl⟩
  | implied hr hc => exact ⟨.impliedConstraint _, .implied hr hc, rfl⟩
  | duplicateConstraint hn h => exact ⟨.duplicateConstraint _, .duplicateConstraint hn h, rfl⟩

def offerAll (p : Problem) (os : List Offer) : Update :=
  os.foldl (fun u o => u.andThen (·.offer o)) ⟨p, []⟩

theorem offerAll_cons (p : Problem) (o : Offer) (os : List Offer) :
    p.offerAll (o :: os) = (p.offer o).andThen (·.offerAll os) :=
  Update.foldl_andThen (fun o p => p.offer o) os (p.offer o)

theorem judges_offerAll (p : Problem) (os : List Offer) : p.Judges os (p.offerAll os) := by
  induction os generalizing p with
  | nil => exact .done p
  | cons o os ih =>
    rw [offerAll_cons]
    by_cases h : ∃ m, p.Skips o m
    · obtain ⟨m, h⟩ := h
      obtain ⟨e, hm, ho⟩ := h.exists_event
      rw [offer_of_skips hm ho]
      exact .skipped hm ho (Event.rendered_of_skipped? ho) (ih p)
    · rw [not_exists] at h
      rw [offer_of_not_skips h]
      exact .recorded h (ih _)

theorem Judges.offerAll_eq (h : p.Judges os u) : p.offerAll os = u := by
  induction h with
  | done p => rfl
  | recorded h _ ih =>
    rw [offerAll_cons, offer_of_not_skips h, ← ih]
    rfl
  | skipped hm ho _ _ ih =>
    rw [offerAll_cons, offer_of_skips hm ho, ← ih]
    rfl

theorem problem_promote_eq (p : Problem) (r : Range) :
    (p.promote r).problem = ⟨p.solved, p.pending.filter fun c => c ≠ r.lower ∧ c ≠ r.upper⟩ := by
  apply congrArg (Problem.mk _)
  apply List.filter_congr
  intro c _
  rw [Range.halves, decide_eq_decide, List.mem_cons, List.mem_singleton, not_or]

theorem add_eq_andThen (p : Problem) (f : Fact) :
    p.add f = (p.prepare f).andThen (·.offerAll f.offers) :=
  Update.foldl_andThen (fun o p => p.offer o) f.offers (p.prepare f)

theorem add_of_promoted (h : f.promoted? = some r) (he : e.promoted? = some r) :
    p.add f = ⟨((p.promote r).problem.offerAll [.range r]).problem,
      e :: ((p.promote r).problem.offerAll [.range r]).events⟩ := by
  have hp : (p.promote r).events = [e] := by
    cases e with
    | solvedFromBounds => cases he; rfl
    | duplicateRange | impliedConstraint | duplicateConstraint => cases he
  rw [add_eq_andThen, prepare, h, Fact.offers_of_promoted h, Update.andThen, hp]
  rfl

theorem add_of_not_promoted (h : f.promoted? = none) : p.add f = p.offerAll f.offers := by
  rw [add_eq_andThen, prepare, h]
  rfl

theorem adds_add (p : Problem) (f : Fact) : p.Adds f (p.add f) := by
  cases f with
  | range r =>
    rw [add_of_not_promoted rfl]
    exact .range (p.judges_offerAll _)
  | constraint c =>
    rw [add_of_not_promoted rfl]
    exact .constraint (p.judges_offerAll _)
  | between lower middle upper =>
    by_cases h : middle.isVar ∧ lower.isInvariant ∧ upper.isInvariant
    · obtain ⟨hm, hl, hu⟩ := h
      cases middle with
      | var x =>
        have hr : (Fact.between lower (.var x) upper).promoted? = some ⟨x, lower, upper⟩ :=
          Fact.promoted?_eq_some_iff.mpr ⟨rfl, hl, hu⟩
        rw [add_of_promoted (e := .solvedFromBounds ⟨x, lower, upper⟩) hr rfl, problem_promote_eq]
        exact .promoted (r := ⟨x, lower, upper⟩) hl hu rfl rfl rfl (judges_offerAll _ _)
      | binary | param | const => cases hm
    · have hn := Fact.promoted?_between_eq_none h
      rw [add_of_not_promoted hn, Fact.offers_between hn]
      exact .between h (p.judges_offerAll _)

theorem Adds.add_eq (h : p.Adds f u) : p.add f = u := by
  cases h with
  | range h =>
    rw [add_of_not_promoted rfl]
    exact h.offerAll_eq
  | constraint h =>
    rw [add_of_not_promoted rfl]
    exact h.offerAll_eq
  | promoted hl hu _ he _ h =>
    rw [add_of_promoted (Fact.promoted?_eq_some_iff.mpr ⟨rfl, hl, hu⟩) he, problem_promote_eq,
      h.offerAll_eq]
  | between hn h =>
    have hf := Fact.promoted?_between_eq_none hn
    rw [add_of_not_promoted hf, Fact.offers_between hf]
    exact h.offerAll_eq

theorem adds_iff : p.Adds f u ↔ p.add f = u := by
  constructor
  · exact Adds.add_eq
  · intro h
    rw [← h]
    exact p.adds_add f

end Problem

end LoopBounds
