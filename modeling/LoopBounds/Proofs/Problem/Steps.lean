import LoopBounds.Problem.Update

namespace LoopBounds

variable {p : Problem} {f : Fact} {r : Range} {c : Constraint Value}

/-- The problem does not depend on the log. -/
theorem Update.problem_foldl {α : Type} (step : α → Problem → Update) (l : List α) (u : Update) :
    (l.foldl (fun u a => u.andThen (step a)) u).problem =
      l.foldl (fun p a => (step a p).problem) u.problem := by
  induction l generalizing u with
  | nil => rfl
  | cons a l ih => exact ih _

theorem Update.andThen_assoc (u : Update) (next later : Problem → Update) :
    (u.andThen next).andThen later = u.andThen fun p => (next p).andThen later :=
  congrArg (Update.mk _) (List.append_assoc _ _ _)

theorem Update.foldl_andThen {α : Type} (step : α → Problem → Update) (l : List α) (u : Update) :
    l.foldl (fun u a => u.andThen (step a)) u =
      u.andThen fun p => l.foldl (fun u a => u.andThen (step a)) ⟨p, []⟩ := by
  induction l generalizing u with
  | nil => exact congrArg (Update.mk _) (List.append_nil _).symm
  | cons a l ih =>
    have ha (p : Problem) : andThen ⟨p, []⟩ (step a) = step a p := rfl
    simp only [List.foldl_cons, ha]
    rw [ih, andThen_assoc]
    exact congrArg u.andThen (funext fun p => (ih (step a p)).symm)

namespace Fact

theorem promoted?_eq_some_iff :
    f.promoted? = some r ↔
      f = .between r.low (.var r.name) r.up ∧ r.low.isInvariant ∧ r.up.isInvariant := by
  constructor
  · intro h
    rw [promoted?.eq_def] at h
    split at h
    next lower x upper =>
      split at h
      next hi =>
        cases h
        rw [Bool.and_eq_true] at hi
        exact ⟨rfl, hi⟩
      next => cases h
    next => cases h
  · intro ⟨hf, hl, hu⟩
    rw [hf, promoted?, hl, hu]
    rfl

theorem promoted?_between_eq_none {lower middle upper : Expr Value}
    (h : ¬ (middle.isVar ∧ lower.isInvariant ∧ upper.isInvariant)) :
    (between lower middle upper).promoted? = none := by
  rw [Option.eq_none_iff_forall_ne_some]
  intro r hr
  obtain ⟨hf, hl, hu⟩ := promoted?_eq_some_iff.mp hr
  cases hf
  exact h ⟨rfl, hl, hu⟩

theorem filterMap_promoted?_cons (f : Fact) (facts : List Fact) :
    (f :: facts).filterMap promoted? = f.promoted?.toList ++ facts.filterMap promoted? := by
  rw [List.filterMap_cons]
  cases f.promoted? with
  | none | some => rfl

theorem offers_of_promoted (h : f.promoted? = some r) : f.offers = [.range r] := by
  rw [offers.eq_def, h]

@[simp] theorem offers_range (r : Range) : (range r).offers = [.range r] := rfl

@[simp] theorem offers_constraint (c : Constraint Value) :
    (constraint c).offers = [.constraint c] := rfl

theorem offers_between {lower middle upper : Expr Value}
    (h : (between lower middle upper).promoted? = none) :
    (between lower middle upper).offers =
      [.constraint ⟨lower, .lessOrEqual, middle⟩, .constraint ⟨middle, .lessThan, upper⟩] := by
  rw [offers.eq_def, h]

theorem offers_between_eq_elim (lower middle upper : Expr Value) :
    (between lower middle upper).offers =
      (between lower middle upper).promoted?.elim
        [.constraint ⟨lower, .lessOrEqual, middle⟩, .constraint ⟨middle, .lessThan, upper⟩]
        fun r => [.range r] := by
  cases h : (between lower middle upper).promoted? with
  | none => exact offers_between h
  | some r => exact offers_of_promoted h

end Fact

namespace Problem

theorem problem_add (p : Problem) (f : Fact) :
    (p.add f).problem =
      f.offers.foldl (fun p o => (p.offer o).problem) (p.prepare f).problem :=
  Update.problem_foldl (fun o p => p.offer o) f.offers (p.prepare f)

theorem problem_addAll (p : Problem) (facts : List Fact) :
    (p.addAll facts).problem = facts.foldl (fun p f => (p.add f).problem) p :=
  Update.problem_foldl (fun f p => p.add f) facts ⟨p, []⟩

theorem problem_run (p : Problem) (actions : List Action) :
    (p.run actions).problem = actions.foldl (fun p a => (p.perform a).problem) p :=
  Update.problem_foldl (fun a p => p.perform a) actions ⟨p, []⟩

theorem problem_run_append (p : Problem) (actions : List Action) (a : Action) :
    (p.run (actions ++ [a])).problem = ((p.run actions).problem.perform a).problem := by
  rw [problem_run, problem_run, List.foldl_append]
  rfl

theorem problem_add_of_promoted (h : f.promoted? = some r) (p : Problem) :
    (p.add f).problem = ((p.promote r).problem.offer (.range r)).problem := by
  rw [problem_add, Fact.offers_of_promoted h, prepare, h]
  rfl

theorem problem_add_of_not_promoted (h : f.promoted? = none) (p : Problem) :
    (p.add f).problem = f.offers.foldl (fun p o => (p.offer o).problem) p := by
  rw [problem_add, prepare, h]

theorem problem_offer_range (p : Problem) (r : Range) :
    (p.offer (.range r)).problem = if r ∈ p.solved then p else p.pushRange r := by
  rw [offer]
  split <;> rfl

theorem problem_offer_constraint (p : Problem) (c : Constraint Value) :
    (p.offer (.constraint c)).problem =
      if c ∈ p.settled ∨ c ∈ p.pending then p else p.pushConstraint c := by
  rw [offer]
  by_cases hs : c ∈ p.settled
  · rw [if_pos hs, if_pos (.inl hs)]
  · rw [if_neg hs]
    by_cases hp : c ∈ p.pending
    · rw [if_pos hp, if_pos (.inr hp)]
    · rw [if_neg hp, if_neg (not_or.mpr ⟨hs, hp⟩)]

theorem mem_settled : c ∈ p.settled ↔ ∃ r ∈ p.solved, c ∈ r.halves :=
  List.mem_flatMap

end Problem

end LoopBounds
