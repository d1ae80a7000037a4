import LoopBounds.Expr.Degree
import LoopBounds.Expr.Eval
import Mathlib.Algebra.BigOperators.Ring.Finset
import Mathlib.Tactic.Ring

namespace LoopBounds.Expr

section

variable {κ : Type}

theorem isInvariant_iff_degree_eq_zero (e : Expr κ) : e.isInvariant ↔ e.degree = 0 := by
  induction e with
  | binary op l r ihl ihr =>
    rw [isInvariant, Bool.and_eq_true, ihl, ihr]
    cases op <;> simp only [degree] <;> omega
  | var | param | const => simp [isInvariant, degree]

theorem degree_eq_zero_iff (e : Expr κ) : e.degree = 0 ↔ e.leaves.vars = [] := by
  induction e with
  | binary op l r ihl ihr =>
    rw [leaves, Leaves.vars_append, List.append_eq_nil_iff, ← ihl, ← ihr]
    cases op <;> simp only [degree] <;> omega
  | var | param | const => simp [degree, leaves]

theorem isAffine_iff_degree_le_one (e : Expr κ) : e.isAffine ↔ e.degree ≤ 1 := by
  induction e with
  | binary op l r ihl ihr =>
    have hl := l.isInvariant_iff_degree_eq_zero
    have hr := r.isInvariant_iff_degree_eq_zero
    cases op with
    | add =>
      simp only [isAffine, degree, Bool.and_eq_true, ihl, ihr]
      omega
    | subtract =>
      simp only [isAffine, degree, Bool.and_eq_true, ihl, ihr]
      omega
    | multiply =>
      simp only [isAffine, degree, Bool.or_eq_true, Bool.and_eq_true, ihl, ihr, hl, hr]
      omega
  | var | param | const => simp [isAffine, degree]

/-- Of the factors of every product one holds no variable. -/
def ProductsAreMultiples (e : Expr κ) : Prop :=
  ∀ l r, binary .multiply l r ∈ e.parts → l.leaves.vars = [] ∨ r.leaves.vars = []

theorem productsAreMultiples_binary {op : ArithOp} {l r : Expr κ} :
    (binary op l r).ProductsAreMultiples ↔
      (op = .multiply → l.leaves.vars = [] ∨ r.leaves.vars = []) ∧
        l.ProductsAreMultiples ∧ r.ProductsAreMultiples := by
  simp only [ProductsAreMultiples, parts, List.mem_cons, List.mem_append, or_imp, forall_and]
  apply and_congr_left'
  constructor
  · intro h hop
    exact h l r (congrArg (binary · l r) hop.symm)
  · intro h a b he
    obtain ⟨hop, rfl, rfl⟩ := binary.inj he
    exact h hop.symm

theorem degree_le_one_iff (e : Expr κ) : e.degree ≤ 1 ↔ e.ProductsAreMultiples := by
  induction e with
  | binary op l r ihl ihr =>
    rw [productsAreMultiples_binary, ← ihl, ← ihr, ← degree_eq_zero_iff, ← degree_eq_zero_iff]
    cases op with
    | add => simp only [degree, Nat.max_le, reduceCtorEq, false_implies, true_and]
    | subtract => simp only [degree, Nat.max_le, reduceCtorEq, false_implies, true_and]
    | multiply =>
      simp only [degree, true_implies]
      omega
  | var | param | const => simp [degree, ProductsAreMultiples, parts]

end

variable {e l r : Expr Value} {v w : Valuation} {param : String → Int} {s : Finset String}

/-- The value of an expression depends on its own symbols only. -/
theorem eval_congr (hv : ∀ x ∈ e.leaves.vars, v.var x = w.var x)
    (hp : ∀ x ∈ e.leaves.params, v.param x = w.param x) : e.eval v = e.eval w := by
  induction e with
  | binary op l r ihl ihr =>
    have hvs := List.forall_mem_append.mp hv
    have hps := List.forall_mem_append.mp hp
    rw [eval, eval, ihl hvs.1 hps.1, ihr hvs.2 hps.2]
  | var x => exact hv x List.mem_cons_self
  | param x => exact hp x List.mem_cons_self
  | const => rfl

theorem eval_eq_of_isInvariant (h : e.isInvariant) (hp : v.param = w.param) :
    e.eval v = e.eval w := by
  rw [isInvariant_iff_degree_eq_zero, degree_eq_zero_iff] at h
  apply eval_congr
  · rw [h]
    exact fun _ hx => nomatch hx
  · intro x _
    rw [hp]

/-- With these parameters the value is a constant plus a multiple of each variable in `s`. -/
def IsLinear (e : Expr Value) (param : String → Int) (s : Finset String) : Prop :=
  ∃ (c : Int) (k : String → Int), ∀ var, e.eval ⟨var, param⟩ = c + ∑ x ∈ s, k x * var x

theorem isLinear_of_isInvariant (h : e.isInvariant) : e.IsLinear param s := by
  refine ⟨e.eval ⟨0, param⟩, 0, ?_⟩
  intro var
  simp only [Pi.zero_apply, zero_mul, Finset.sum_const_zero, add_zero]
  exact eval_eq_of_isInvariant h rfl

theorem isLinear_var {x : String} (hx : x ∈ s) : (var x).IsLinear param s := by
  refine ⟨0, fun y => if y = x then 1 else 0, ?_⟩
  intro var
  simp only [eval, ite_mul, one_mul, zero_mul, Finset.sum_ite_eq', if_pos hx, zero_add]

theorem IsLinear.combination {f : Expr Value} (hl : l.IsLinear param s) (hr : r.IsLinear param s)
    (a b : Int)
    (hf : ∀ var, f.eval ⟨var, param⟩ = a * l.eval ⟨var, param⟩ + b * r.eval ⟨var, param⟩) :
    f.IsLinear param s := by
  obtain ⟨c, k, hl⟩ := hl
  obtain ⟨d, m, hr⟩ := hr
  refine ⟨a * c + b * d, fun x => a * k x + b * m x, ?_⟩
  intro var
  have hsum : ∑ x ∈ s, (a * k x + b * m x) * var x =
      a * ∑ x ∈ s, k x * var x + b * ∑ x ∈ s, m x * var x := by
    simp only [add_mul, mul_assoc, Finset.sum_add_distrib, Finset.mul_sum]
  rw [hf, hl, hr, hsum]
  ring

theorem isLinear_of_isAffine (h : e.isAffine) (hs : ∀ x ∈ e.leaves.vars, x ∈ s) :
    e.IsLinear param s := by
  -- Both operands are linear over the one set, so that their sums combine term by term.
  induction e with
  | binary op l r ihl ihr =>
    have hss := List.forall_mem_append.mp hs
    cases op with
    | add =>
      have ha := Bool.and_eq_true_iff.mp h
      apply (ihl ha.1 hss.1).combination (ihr ha.2 hss.2) 1 1
      intro var
      rw [eval, ArithOp.apply]
      ring
    | subtract =>
      have ha := Bool.and_eq_true_iff.mp h
      apply (ihl ha.1 hss.1).combination (ihr ha.2 hss.2) 1 (-1)
      intro var
      rw [eval, ArithOp.apply]
      ring
    | multiply =>
      rw [isAffine, Bool.or_eq_true, Bool.and_eq_true, Bool.and_eq_true] at h
      cases h with
      | inl h =>
        have hr (var : String → Int) : r.eval ⟨var, param⟩ = r.eval ⟨0, param⟩ :=
          eval_eq_of_isInvariant h.2 rfl
        apply (ihl h.1 hss.1).combination (isLinear_of_isInvariant h.2) (r.eval ⟨0, param⟩) 0
        intro var
        rw [eval, ArithOp.apply, hr]
        ring
      | inr h =>
        have hl (var : String → Int) : l.eval ⟨var, param⟩ = l.eval ⟨0, param⟩ :=
          eval_eq_of_isInvariant h.2 rfl
        apply (isLinear_of_isInvariant h.2).combination (ihr h.1 hss.2) 0 (l.eval ⟨0, param⟩)
        intro var
        rw [eval, ArithOp.apply, hl]
        ring
  | var x => exact isLinear_var (hs x List.mem_cons_self)
  | param => exact isLinear_of_isInvariant rfl
  | const => exact isLinear_of_isInvariant rfl

/-- Both tests decide the degree, and up to degree one the value is linear in the variables. -/
theorem isInvariant_isAffine_iff_degree (e : Expr Value) :
    (e.isInvariant ↔ e.degree = 0) ∧ (e.degree = 0 ↔ e.leaves.vars = []) ∧
      (e.isAffine ↔ e.degree ≤ 1) ∧ (e.degree ≤ 1 ↔ e.ProductsAreMultiples) ∧
      (e.isAffine → ∀ param, e.IsLinear param e.leaves.vars.toFinset) ∧
      (e.isInvariant → ∀ v w : Valuation, v.param = w.param → e.eval v = e.eval w) := by
  have hl (h : e.isAffine) (param : String → Int) :
      e.IsLinear param e.leaves.vars.toFinset :=
    isLinear_of_isAffine h fun _ hx => List.mem_toFinset.mpr hx
  exact ⟨e.isInvariant_iff_degree_eq_zero, e.degree_eq_zero_iff, e.isAffine_iff_degree_le_one,
    e.degree_le_one_iff, hl, fun h _ _ hp => eval_eq_of_isInvariant h hp⟩

/-- A factor of two parameters is a coefficient, and one with a variable in it is none. -/
theorem isInvariant_isAffine_iff_degree_product :
    let size : Expr Value := .binary .multiply (.param "N") (.binary .add (.param "M") (.const 2))
    let row : Expr Value := .binary .multiply (.binary .subtract (.var "i") (.const 1)) size
    let area : Expr Value := .binary .multiply (.var "i") (.binary .add (.var "j") (.param "N"))
    size.isInvariant ∧ row.isAffine ∧ ¬ area.isAffine ∧
      (∀ v w : Valuation, v.param = w.param → size.eval v = size.eval w) ∧
      (∀ param, row.IsLinear param {"i"}) ∧ ¬ area.degree ≤ 1 := by
  intro size row area
  have hs : size.isInvariant := rfl
  have hr : row.isAffine := rfl
  have ha : ¬ area.isAffine := Bool.false_ne_true
  obtain ⟨-, -, -, -, -, hsize⟩ := isInvariant_isAffine_iff_degree size
  obtain ⟨-, -, -, -, hrow, -⟩ := isInvariant_isAffine_iff_degree row
  obtain ⟨-, -, harea, -⟩ := isInvariant_isAffine_iff_degree area
  exact ⟨hs, hr, ha, hsize hs, hrow hr, mt harea.mpr ha⟩

end LoopBounds.Expr
