import MixedInteger.Proofs.DeclaredDegree
import MixedInteger.Proofs.DeferredSets
import MixedInteger.Proofs.Expansion
import MixedInteger.Proofs.WellFormed

/-!
Expansion read off the tree. Every level of an expression is listed with the weights on the way to it, and what
expansion leaves are the levels side by side, each under its weights.
-/

namespace MixedInteger

/-- One level of an expression and the weights around it, the innermost first. -/
structure Level (α : Type) where
  around : List α
  degree : Degree
  terms : List (Term α)
  constants : List α

namespace Level

variable {α : Type} [Scalar α]

/-- A number of this level seen from outside. -/
def carry (l : Level α) (x : α) : α := l.around.foldl (· * ·) x

def carriedTerms (l : Level α) : List (Term α) :=
  l.terms.map fun t => { t with weight := l.carry t.weight }

def carriedConstants (l : Level α) : List α := l.constants.map l.carry

end Level

theorem Term.flatMap_occurrences_eq_nil {α : Type} {ts : List (Term α)} :
    ts.flatMap Term.occurrences = [] ↔ ts = [] := by
  cases ts with
  | nil => simp
  | cons t ts =>
    obtain ⟨weight, monomial⟩ := t
    cases monomial <;> simp [Term.occurrences, Monomial.occurrences]

namespace Expression

section Tree

variable {α : Type}

mutual

/-- The levels of an expression that has these weights around it, an outer level before those inside. -/
def levels (around : List α) : Expression α → List (Level α)
  | ⟨degree, terms, constants, nested⟩ => ⟨around, degree, terms, constants⟩ :: nestedLevels around nested

def nestedLevels (around : List α) : List (α × Expression α) → List (Level α)
  | [] => []
  | (weight, e) :: rest => e.levels (weight :: around) ++ nestedLevels around rest

end

mutual

/-- Linear all over, or quadratic at some level. -/
theorem levels_degree (around : List α) : ∀ e : Expression α,
    e.flatDegree = .linear ↔ ∀ l ∈ e.levels around, l.degree = .linear
  | ⟨degree, _, _, nested⟩ => by
    rw [flatDegree, nestedLevels_degree around degree nested, levels, List.forall_mem_cons]

theorem nestedLevels_degree (around : List α) (outer : Degree) : ∀ nested : List (α × Expression α),
    nestedDegree outer nested = .linear ↔ outer = .linear ∧ ∀ l ∈ nestedLevels around nested, l.degree = .linear
  | [] => by simp [nestedDegree, nestedLevels]
  | (weight, e) :: rest => by
    rw [nestedDegree, nestedLevels_degree around _ rest, Degree.join_eq_linear,
      levels_degree (weight :: around) e, nestedLevels, List.forall_mem_append, and_assoc]

end

mutual

/-- Every term has a variable, so an expression without variables has no term. -/
theorem hasNoTerms_iff : ∀ e : Expression α, e.hasNoTerms = true ↔ e.occurrences = []
  | ⟨_, terms, _, nested⟩ => by
    rw [hasNoTerms, Bool.and_eq_true, List.isEmpty_iff, nestedHaveNoTerms_iff nested, occurrences,
      List.append_eq_nil_iff, Term.flatMap_occurrences_eq_nil]

theorem nestedHaveNoTerms_iff : ∀ nested : List (α × Expression α),
    nestedHaveNoTerms nested = true ↔ nestedOccurrences nested = []
  | [] => by simp [nestedHaveNoTerms, nestedOccurrences]
  | (weight, e) :: rest => by
    rw [nestedHaveNoTerms, Bool.and_eq_true, hasNoTerms_iff e, nestedHaveNoTerms_iff rest, nestedOccurrences,
      List.append_eq_nil_iff]

end

end Tree

variable {α : Type} [Scalar α]

mutual

/-- The levels carry the flat terms, and the weights around the whole expression are multiplied last. -/
theorem levels_terms (around : List α) : ∀ e : Expression α,
    (e.levels around).flatMap Level.carriedTerms =
      e.flatTerms.map fun t => { t with weight := around.foldl (· * ·) t.weight }
  | ⟨_, terms, _, nested⟩ => by
    have inner := nestedLevels_terms around nested
    rw [levels, List.flatMap_cons, inner, flatTerms, List.map_append]
    rfl

theorem nestedLevels_terms (around : List α) : ∀ nested : List (α × Expression α),
    (nestedLevels around nested).flatMap Level.carriedTerms =
      (nestedTerms nested).map fun t => { t with weight := around.foldl (· * ·) t.weight }
  | [] => rfl
  | (weight, e) :: rest => by
    have inner := levels_terms (weight :: around) e
    have others := nestedLevels_terms around rest
    rw [nestedLevels, List.flatMap_append, inner, others, nestedTerms, List.map_append, List.map_map]
    rfl

end

mutual

theorem levels_constants (around : List α) : ∀ e : Expression α,
    (e.levels around).flatMap Level.carriedConstants = e.flatConstants.map (around.foldl (· * ·))
  | ⟨_, _, constants, nested⟩ => by
    have inner := nestedLevels_constants around nested
    rw [levels, List.flatMap_cons, inner, flatConstants, List.map_append]
    rfl

theorem nestedLevels_constants (around : List α) : ∀ nested : List (α × Expression α),
    (nestedLevels around nested).flatMap Level.carriedConstants =
      (nestedConstants nested).map (around.foldl (· * ·))
  | [] => rfl
  | (weight, e) :: rest => by
    have inner := levels_constants (weight :: around) e
    have others := nestedLevels_constants around rest
    rw [nestedLevels, List.flatMap_append, inner, others, nestedConstants, List.map_append, List.map_map]
    rfl

end

/-- A flat expression that has the same terms and constants as another, each with the weights that were on the way to
it. -/
structure Flattens (flat e : Expression α) : Prop where
  isFlat : flat.isFlat = true
  occurrences : flat.occurrences = e.occurrences
  terms : flat.terms = (e.levels []).flatMap Level.carriedTerms
  constants : flat.constants = (e.levels []).flatMap Level.carriedConstants
  degree : flat.degree = .linear ↔ ∀ l ∈ e.levels [], l.degree = .linear
  hasNoTerms : flat.hasNoTerms = e.hasNoTerms

theorem flattens_expand (e : Expression α) : e.expand.Flattens e where
  isFlat := rfl
  occurrences := e.occurrences_expand
  -- With nothing around the expression, its flat terms are what they are.
  terms := by
    rw [e.levels_terms]
    exact (List.map_id _).symm
  constants := by
    rw [e.levels_constants]
    exact (List.map_id _).symm
  degree := e.levels_degree []
  hasNoTerms := by
    rw [Bool.eq_iff_iff, hasNoTerms_iff, hasNoTerms_iff, occurrences_expand]

/-- Expansion flattens an expression of any depth and loses nothing of it, and over the rationals its value is the same
everywhere. -/
theorem expand_keeps :
    (∀ {α : Type} [Scalar α] (e : Expression α),
      e.expand.Flattens e ∧ e.expand.expand = e.expand ∧ (e.hasNoTerms = true ↔ e.occurrences = [])) ∧
    ∀ (e : Expression Rat) (values : Assignment Rat), e.expand.eval values = e.eval values :=
  ⟨fun e => ⟨e.flattens_expand, e.expand_expand, e.hasNoTerms_iff⟩, eval_expand⟩

end Expression
end MixedInteger
