import LoopBounds.Proofs.Expr.Linear
import LoopBounds.Proofs.Problem.Moves

namespace LoopBounds

def Range.WellBounded (r : Range) : Prop :=
  r.name ∉ r.low.leaves.vars ∧ r.name ∉ r.up.leaves.vars

instance (r : Range) : Decidable r.WellBounded :=
  inferInstanceAs (Decidable (_ ∧ _))

/-- The fact was added, and nothing has been cleared from then on. -/
def AddedSinceClear (actions : List Action) (f : Fact) : Prop :=
  ∃ earlier later, actions = earlier ++ .add f :: later ∧ .clear ∉ later

variable {actions : List Action} {f g : Fact} {r : Range} {p : Problem}

theorem not_addedSinceClear_nil : ¬ AddedSinceClear [] f := by
  intro ⟨earlier, later, h, _⟩
  exact List.append_ne_nil_of_right_ne_nil earlier (List.cons_ne_nil _ _) h.symm

theorem AddedSinceClear.mem (h : AddedSinceClear actions f) : .add f ∈ actions := by
  obtain ⟨earlier, later, rfl, -⟩ := h
  exact List.mem_append_right earlier List.mem_cons_self

/-- An action at the end is the one in question, or comes after it. -/
theorem addedSinceClear_append {a : Action} :
    AddedSinceClear (actions ++ [a]) f ↔ a = .add f ∨ a ≠ .clear ∧ AddedSinceClear actions f := by
  constructor
  · intro ⟨earlier, later, h, hc⟩
    rcases List.eq_nil_or_concat later with rfl | ⟨later, b, rfl⟩
    · exact .inl (List.head_eq_of_cons_eq (List.append_inj' h rfl).2)
    · rw [List.concat_eq_append] at h hc
      rw [← List.cons_append, ← List.append_assoc] at h
      obtain ⟨hl, hb⟩ := List.append_inj' h rfl
      rw [List.mem_append, not_or, List.mem_singleton, ← List.head_eq_of_cons_eq hb] at hc
      exact .inr ⟨Ne.symm hc.2, earlier, later, hl, hc.1⟩
  · rintro (rfl | ⟨ha, earlier, later, rfl, hc⟩)
    · exact ⟨actions, [], rfl, List.not_mem_nil⟩
    · refine ⟨earlier, later ++ [a], List.append_assoc _ _ _, ?_⟩
      rw [List.mem_append, not_or, List.mem_singleton]
      exact ⟨hc, Ne.symm ha⟩

theorem Fact.range_mem_offers_iff : .range r ∈ f.offers ↔ f = .range r ∨ f.promoted? = some r := by
  constructor
  · intro h
    cases hf : f.promoted? with
    | none => exact .inl (eq_range_of_mem_offers hf h)
    | some s =>
      rw [offers_of_promoted hf, List.mem_singleton] at h
      cases h
      exact .inr rfl
  · rintro (rfl | h)
    · exact List.mem_singleton_self _
    · rw [offers_of_promoted h]
      exact List.mem_singleton_self _

namespace Problem

theorem solved_prepare (p : Problem) (f : Fact) : (p.prepare f).problem.solved = p.solved := by
  rw [prepare]
  split <;> rfl

theorem mem_solved_offer {o : Offer} :
    r ∈ (p.offer o).problem.solved ↔ r ∈ p.solved ∨ o = .range r := by
  rw [problem_offer]
  cases o with
  | range s =>
    rw [make_offer_range, mem_note, Offer.range.injEq, eq_comm]
  | constraint c =>
    rw [Offer.move, solved_make_constraint]
    simp only [reduceCtorEq, or_false]

theorem mem_solved_foldl_offer {os : List Offer} :
    r ∈ (os.foldl (fun p o => (p.offer o).problem) p).solved ↔ r ∈ p.solved ∨ .range r ∈ os := by
  induction os generalizing p with
  | nil => exact (or_iff_left List.not_mem_nil).symm
  | cons o os ih => rw [List.foldl_cons, ih, mem_solved_offer, or_assoc, List.mem_cons, eq_comm]

theorem mem_solved_add :
    r ∈ (p.add f).problem.solved ↔ r ∈ p.solved ∨ f = .range r ∨ f.promoted? = some r := by
  rw [problem_add, mem_solved_foldl_offer, solved_prepare, Fact.range_mem_offers_iff]

/-- A range is solved by being stated or promoted, and stays so until all is cleared. -/
theorem mem_solved_run :
    r ∈ (empty.run actions).problem.solved ↔
      ∃ f, AddedSinceClear actions f ∧ (f = .range r ∨ f.promoted? = some r) := by
  induction actions using List.reverseRecOn with
  | nil =>
    apply iff_of_false List.not_mem_nil
    exact fun ⟨_, hf, _⟩ => not_addedSinceClear_nil hf
  | append_singleton actions a ih =>
    rw [problem_run_append]
    simp only [addedSinceClear_append]
    cases a with
    | clear =>
      apply iff_of_false List.not_mem_nil
      simp only [reduceCtorEq, ne_eq, not_true_eq_false, false_and, or_false, exists_false,
        not_false_eq_true]
    | add g =>
      rw [perform, mem_solved_add, ih]
      simp only [Action.add.injEq, ne_eq, reduceCtorEq, not_false_eq_true, true_and, or_and_right,
        exists_or, exists_eq_left', or_comm]

theorem solved_origin (h : r ∈ (empty.run actions).problem.solved) :
    AddedSinceClear actions (.range r) ∨ r.low.isInvariant ∧ r.up.isInvariant := by
  obtain ⟨f, hf, rfl | hr⟩ := mem_solved_run.mp h
  · exact .inl hf
  · exact .inr (Fact.promoted?_eq_some_iff.mp hr).2

theorem wellBounded_of_isInvariant (hl : r.low.isInvariant) (hu : r.up.isInvariant) :
    r.WellBounded := by
  rw [Expr.isInvariant_iff_degree_eq_zero, Expr.degree_eq_zero_iff] at hl hu
  rw [Range.WellBounded, hl, hu]
  exact ⟨List.not_mem_nil, List.not_mem_nil⟩

/-- Only a range that was stated can have bounds in which variables occur. -/
theorem solved_stated_or_invariant (actions : List Action) :
    (∀ r ∈ (empty.run actions).problem.solved, AddedSinceClear actions (.range r) ∨
        (r.low.leaves.vars = [] ∧ r.up.leaves.vars = []) ∧
          ∀ v w : Valuation, v.param = w.param →
            r.low.eval v = r.low.eval w ∧ r.up.eval v = r.up.eval w) ∧
      ((∀ r, .add (.range r) ∈ actions → r.WellBounded) →
        ∀ earlier, earlier <+: actions → ∀ r ∈ (empty.run earlier).problem.solved,
          r.WellBounded) := by
  constructor
  · intro r hr
    apply (solved_origin hr).imp_right
    intro ⟨hl, hu⟩
    refine ⟨⟨r.low.degree_eq_zero_iff.mp (r.low.isInvariant_iff_degree_eq_zero.mp hl),
      r.up.degree_eq_zero_iff.mp (r.up.isInvariant_iff_degree_eq_zero.mp hu)⟩, ?_⟩
    intro v w hp
    exact ⟨Expr.eval_eq_of_isInvariant hl hp, Expr.eval_eq_of_isInvariant hu hp⟩
  · intro ha earlier he r hr
    rcases solved_origin hr with hs | ⟨hl, hu⟩
    · exact ha r (he.subset hs.mem)
    · exact wellBounded_of_isInvariant hl hu

theorem solved_stated_or_invariant_cleared :
    let i : Range := ⟨"i", .const 0, .binary .add (.var "j") (.param "N")⟩
    let j : Range := ⟨"j", .param "M", .binary .multiply (.param "N") (.const 2)⟩
    let earlier : List Action := [.add (.range i), .clear, .add (.between j.low (.var "j") j.up)]
    let actions : List Action := earlier ++ [.add (.range i), .clear]
    j ∈ (empty.run earlier).problem.solved ∧ ¬ AddedSinceClear earlier (.range j) ∧
      (∀ v w : Valuation, v.param = w.param → j.up.eval v = j.up.eval w) ∧
      (∀ r, .add (.range r) ∈ actions → r.WellBounded) ∧ earlier <+: actions ∧ j.WellBounded := by
  intro i j earlier actions
  have hj : j ∈ (empty.run earlier).problem.solved := by decide
  have hn : ¬ AddedSinceClear earlier (.range j) := fun h => absurd h.mem (by decide)
  have ha : ∀ r, .add (.range r) ∈ actions → r.WellBounded := by
    intro r hr
    have he : r = i := by
      simpa only [actions, earlier, List.cons_append, List.nil_append, List.mem_cons,
        Action.add.injEq, Fact.range.injEq, List.not_mem_nil, reduceCtorEq, false_or, or_false,
        or_self] using hr
    rw [he]
    decide
  have hp : earlier <+: actions := List.prefix_append _ _
  obtain ⟨-, hv⟩ := ((solved_stated_or_invariant earlier).1 j hj).resolve_left hn
  exact ⟨hj, hn, fun v w h => (hv v w h).2, ha, hp,
    (solved_stated_or_invariant actions).2 ha earlier hp j hj⟩

end Problem

end LoopBounds
