import MixedInteger.Proofs.DeclaredDegree
import MixedInteger.Proofs.Expansion
import MixedInteger.Proofs.WellFormed

/-!
A comparison as it was stated: a relation between an expression of any depth and a number. The constants of every
level change sides, the terms stay, and whether they may stay in a linear comparison is told from the terms alone.
-/

namespace MixedInteger

namespace Expression

section Tree

variable {α : Type}

theorem within_iff {f e : Expression α} : f.Within e ↔ f = e ∨ ∃ n ∈ e.nested, f.Within n.2 := by
  constructor
  · rintro (_ | ⟨among, within⟩)
    · exact .inl rfl
    · exact .inr ⟨_, among, within⟩
  · rintro (rfl | ⟨n, among, within⟩)
    · exact .self f
    · exact .nested among within

/-- A term of this degree stands at some depth. -/
def HasTerm (e : Expression α) (degree : Degree) : Prop :=
  ∃ f, Within f e ∧ ∃ t ∈ f.terms, t.degree = degree

theorem hasTerm_iff {e : Expression α} {degree : Degree} : e.HasTerm degree ↔
    (∃ t ∈ e.terms, t.degree = degree) ∨ ∃ n ∈ e.nested, n.2.HasTerm degree := by
  constructor
  · rintro ⟨f, within, term⟩
    rcases within_iff.mp within with rfl | ⟨n, among, within⟩
    · exact .inl term
    · exact .inr ⟨n, among, f, within, term⟩
  · rintro (term | ⟨n, among, f, within, term⟩)
    · exact ⟨e, .self e, term⟩
    · exact ⟨f, .nested among within, term⟩

end Tree

variable {α : Type} [Scalar α]

mutual

/-- Weights change no degree, so expansion finds the terms of each degree that are there at some depth. -/
theorem flatTerms_degree (degree : Degree) : ∀ e : Expression α,
    (∃ t ∈ e.flatTerms, t.degree = degree) ↔ e.HasTerm degree
  | ⟨_, terms, _, nested⟩ => by
    simp only [flatTerms, List.mem_append, or_and_right, exists_or, nestedTerms_degree degree nested]
    exact (hasTerm_iff (e := ⟨_, terms, _, nested⟩)).symm

theorem nestedTerms_degree (degree : Degree) : ∀ nested : List (α × Expression α),
    (∃ t ∈ nestedTerms nested, t.degree = degree) ↔ ∃ n ∈ nested, n.2.HasTerm degree
  | [] => by simp [nestedTerms]
  | (weight, e) :: rest => by
    have scaled : (∃ t ∈ e.flatTerms.map (·.scale weight), t.degree = degree) ↔
        ∃ t ∈ e.flatTerms, t.degree = degree := by
      simp only [List.mem_map, exists_exists_and_eq_and]
      rfl
    simp only [nestedTerms, List.mem_append, or_and_right, exists_or, scaled, flatTerms_degree degree e,
      nestedTerms_degree degree rest, List.exists_mem_cons_iff]

end

end Expression

/-- Relations look at the gap between their sides and at nothing else. -/
theorem Relation.holds_of_gap {lhs rhs lhs' rhs' : Rat} (gap : lhs - rhs = lhs' - rhs') (r : Relation)
    (tolerance : Rat) : r.holds lhs rhs tolerance = r.holds lhs' rhs' tolerance := by
  simp only [holds, gap]

namespace Comparison

/-- The comparison says of every point what the statement says of it, and lists the variables of the expression. -/
structure Poses (c : Comparison Rat) (e : Expression Rat) (relation : Relation) (rhs : Rat) : Prop where
  satisfied : ∀ (values : Assignment Rat) (tolerance : Rat),
    c.isSatisfied values tolerance = relation.holds (e.eval values) rhs tolerance
  occurrences : c.occurrences = e.occurrences

/-- Whichever degree it declares, a comparison made of the expanded expression poses what was stated. -/
theorem ofFlat_poses (degree : Degree) (e : Expression Rat) (relation : Relation) (rhs : Rat) :
    (ofFlat degree e.expand relation rhs).Poses e relation rhs where
  satisfied values tolerance := by
    refine Relation.holds_of_gap ?_ relation tolerance
    have value : sumTerms e.expand.terms values + e.expand.constant = e.eval values := e.flat_value values
    rw [← value]
    change sumTerms e.expand.terms values - (rhs - e.expand.constant) = _
    ring
  occurrences := e.flat_occurrences

theorem linear_refused {α : Type} [Scalar α] (e : Expression α) (relation : Relation) (rhs : α) :
    (∃ r, linear e relation rhs = .error r ∧ r.code = .shape) ↔ e.HasTerm .quadratic := by
  rw [← e.flatTerms_degree]
  unfold linear
  dsimp only [Expression.expand]
  cases found : e.flatTerms.find? (·.degree == .quadratic) with
  | none =>
    refine iff_of_false (fun ⟨_, refused, _⟩ => nomatch refused) fun ⟨t, ht, quadratic⟩ => ?_
    exact List.find?_eq_none.mp found t ht (beq_iff_eq.mpr quadratic)
  | some t =>
    have quadratic : (t.degree == .quadratic) = true := by simpa only using List.find?_some found
    exact iff_of_true ⟨_, rfl, rfl⟩ ⟨t, List.mem_of_find?_eq_some found, beq_iff_eq.mp quadratic⟩

/-- What is not refused is the expanded expression with its constants on the other side. -/
theorem linear_stated {α : Type} [Scalar α] {e : Expression α} {relation : Relation} {rhs : α} {c : Comparison α} :
    linear e relation rhs = .ok c ↔ ¬e.HasTerm .quadratic ∧ c = ofFlat .linear e.expand relation rhs := by
  rw [← linear_refused e relation rhs]
  unfold linear
  dsimp only
  split
  · exact iff_of_false nofun fun ⟨notRefused, _⟩ => notRefused ⟨_, rfl, rfl⟩
  · rw [pure_eq_ok]
    exact ⟨fun same => ⟨fun ⟨_, refused, _⟩ => (nomatch refused), same.symm⟩, fun ⟨_, same⟩ => same.symm⟩

/-- Only a quadratic term at some depth keeps an expression out of a linear comparison, whatever the levels declare.
What is let in poses what was stated, over the same variables, and so does a quadratic comparison of any expression. -/
theorem stated_poses (e : Expression Rat) (relation : Relation) (rhs : Rat) :
    ((∃ r, linear e relation rhs = .error r ∧ r.code = .shape) ↔ e.HasTerm .quadratic) ∧
      ((∃ c, linear e relation rhs = .ok c ∧ c.Poses e relation rhs) ↔ ¬e.HasTerm .quadratic) ∧
      (quadratic e relation rhs).Poses e relation rhs := by
  refine ⟨linear_refused e relation rhs, ⟨fun ⟨_, stated, _⟩ => (linear_stated.mp stated).1, fun none => ?_⟩,
    ofFlat_poses .quadratic e relation rhs⟩
  exact ⟨_, linear_stated.mpr ⟨none, rfl⟩, ofFlat_poses .linear e relation rhs⟩

end Comparison
end MixedInteger
