import LoopBounds.Proofs.Expr.Linear

namespace LoopBounds

/-- The product of all leaves, each as often as it occurs. -/
def Leaves.product (v : Valuation) (a : Leaves Value) : Int :=
  (a.consts.map fun k => (k.toNat : Int)).prod * (a.params.map v.param).prod *
    (a.vars.map v.var).prod

theorem Leaves.product_append (v : Valuation) (a b : Leaves Value) :
    (a ++ b).product v = a.product v * b.product v := by
  simp only [product, consts_append, params_append, vars_append, List.map_append, List.prod_append]
  ring

namespace Expr

section

variable {κ : Type} {l r : Expr κ}

theorem isMonomial_binary {op : ArithOp} :
    (binary op l r).isMonomial ↔ op = .multiply ∧ l.isMonomial ∧ r.isMonomial := by
  cases op <;> simp [isMonomial]

theorem not_isSum_binary {op : ArithOp} : ¬ (binary op l r).isSum ↔ op = .multiply := by
  cases op <;> simp [isSum]

theorem isMonomial_iff_parts (e : Expr κ) : e.isMonomial ↔ ∀ f ∈ e.parts, ¬ f.isSum := by
  induction e with
  | binary op l r ihl ihr =>
    rw [isMonomial_binary, parts, List.forall_mem_cons, List.forall_mem_append, not_isSum_binary,
      ihl, ihr]
  | var | param | const => simp [isMonomial, parts, isSum]

theorem degree_of_isMonomial {e : Expr κ} (h : e.isMonomial) :
    e.degree = e.leaves.vars.length := by
  induction e with
  | binary op l r ihl ihr =>
    obtain ⟨rfl, hl, hr⟩ := isMonomial_binary.mp h
    rw [degree, ihl hl, ihr hr, leaves, Leaves.vars_append, List.length_append]
  | var | param | const => rfl

end

variable {e : Expr Value}

theorem eval_of_isMonomial (h : e.isMonomial) (v : Valuation) : e.eval v = e.leaves.product v := by
  induction e with
  | binary op l r ihl ihr =>
    obtain ⟨rfl, hl, hr⟩ := isMonomial_binary.mp h
    rw [eval, ArithOp.apply, ihl hl, ihr hr, leaves, Leaves.product_append]
  | var | param | const => simp [eval, leaves, Leaves.product]

/-- An expression without sums is the product of its leaves. -/
theorem isMonomial_product (e : Expr Value) :
    (e.isMonomial → (∀ v, e.eval v = e.leaves.product v) ∧
        (e.isAffine ↔ e.leaves.vars.length ≤ 1)) ∧
      (e.isMonomial ↔ ∀ f ∈ e.parts, ¬ f.isSum) := by
  refine ⟨?_, e.isMonomial_iff_parts⟩
  intro h
  refine ⟨eval_of_isMonomial h, ?_⟩
  rw [isAffine_iff_degree_le_one, degree_of_isMonomial h]

/-- The square of a variable counts twice. -/
theorem isMonomial_product_square :
    let row : Expr Value := .binary .multiply (.binary .multiply (.const 2) (.param "N")) (.var "i")
    let square : Expr Value := .binary .multiply row (.binary .multiply (.var "i") (.const 3))
    row.isMonomial ∧ square.isMonomial ∧ row.isAffine ∧ ¬ square.isAffine ∧
      ∀ v, square.eval v = square.leaves.product v := by
  intro row square
  have hr : row.isMonomial := rfl
  have hs : square.isMonomial := rfl
  have hrow := ((isMonomial_product row).1 hr).2
  obtain ⟨hvalue, hsquare⟩ := (isMonomial_product square).1 hs
  exact ⟨hr, hs, hrow.mpr (by decide), mt hsquare.mp (by decide), hvalue⟩

end Expr

end LoopBounds
