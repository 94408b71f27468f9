import Mathlib.Algebra.BigOperators.Ring.List
import MixedInteger.Proofs.Separation

/-!
Expansion keeps the value of an expression, at every depth of nesting.
-/

namespace MixedInteger

@[simp] theorem Term.eval_scale (t : Term Rat) (factor : Rat) (values : Assignment Rat) :
    (t.scale factor).eval values = factor * t.eval values := by
  obtain ⟨weight, monomial⟩ := t
  cases monomial with
  | single v =>
    simp only [scale, eval]
    ring
  | product v w =>
    simp only [scale, eval]
    ring

theorem sumTerms_scale (ts : List (Term Rat)) (factor : Rat) (values : Assignment Rat) :
    sumTerms (ts.map (·.scale factor)) values = factor * sumTerms ts values := by
  induction ts with
  | nil => simp
  | cons t ts ih => simp [ih, mul_add]

namespace Expression

mutual

/-- Every level contributes its terms and constants, scaled by the weights around it. -/
theorem flat_value (values : Assignment Rat) : ∀ e : Expression Rat,
    sumTerms e.flatTerms values + Scalar.sum e.flatConstants = e.eval values
  | ⟨_, terms, constants, nested⟩ => by
    have inner := nested_value values nested
    simp only [flatTerms, flatConstants, eval, sumTerms_append, Scalar.sum_rat, List.sum_append] at inner ⊢
    linarith

theorem nested_value (values : Assignment Rat) : ∀ nested : List (Rat × Expression Rat),
    sumTerms (nestedTerms nested) values + Scalar.sum (nestedConstants nested) =
      Scalar.sum (nestedValues values nested)
  | [] => by simp [nestedTerms, nestedConstants, nestedValues, Scalar.sum_rat]
  | (weight, e) :: rest => by
    have inner := flat_value values e
    have others := nested_value values rest
    have scaled : (e.flatConstants.map (· * weight)).sum = weight * e.flatConstants.sum := by
      rw [List.sum_map_mul_right, List.map_id', mul_comm]
    simp only [nestedTerms, nestedConstants, nestedValues, sumTerms_append, sumTerms_scale, Scalar.sum_rat,
      List.sum_append, List.sum_cons, scaled] at inner others ⊢
    rw [← inner, ← others]
    ring

end

theorem eval_expand (e : Expression Rat) (values : Assignment Rat) :
    e.expand.eval values = e.eval values := by
  rw [← flat_value values e]
  simp [expand, eval, nestedValues, Scalar.sum_rat]

/-- Without inner expressions only the own terms and constants count. -/
theorem eval_flat {e : Expression Rat} (flat : e.nested = []) (values : Assignment Rat) :
    e.eval values = sumTerms e.terms values + e.constant := by
  obtain ⟨degree, terms, constants, nested⟩ := e
  cases flat
  simp [eval, nestedValues, constant, Scalar.sum_rat]

end Expression
end MixedInteger
