import MixedInteger.Proofs.DeferredSets
import MixedInteger.Proofs.Optimum
import MixedInteger.Proofs.Runs

/-!
Faithfulness of the model to the run that led to it. Columns and rows follow the registry and the comparisons one by
one, a row lists a column once and holds where its comparison does, and the costs are those of the objective as it was
set, however often it was expanded since.
-/

namespace MixedInteger

section Objective

variable {α : Type} [Scalar α]

/-- The objective that an operation sets, unless it is refused. -/
def Operation.objective? (a : Operation α) (p : Problem α) : Option (Expression α) :=
  match a with
  | change (.intake (.objective e sense)) =>
    if (Intake.objective e sense).isAccepted p then some e else none
  | _ => none

/-- The last objective that was set in a run, as it was set, or the earlier one. -/
def Operation.objectiveSet (earlier : Option (Expression α)) (p : Problem α) :
    List (Operation α) → Option (Expression α)
  | [] => earlier
  | a :: as => objectiveSet ((a.objective? p).or earlier) (a.perform p) as

/-- The objective is stored as it was set, or expanded. -/
def Problem.Pursues (p : Problem α) (set : Option (Expression α)) : Prop :=
  p.objective = set ∨ p.objective = set.map Expression.expand

namespace Problem.Pursues

variable {p q : Problem α} {set : Option (Expression α)}

theorem kept (h : p.Pursues set) (same : q.objective = p.objective) : q.Pursues set :=
  h.imp same.trans same.trans

/-- What is expanded already is not changed again. -/
theorem expanded (h : p.Pursues set) (same : q.objective = p.objective.map Expression.expand) : q.Pursues set := by
  refine .inr (same.trans ?_)
  rcases h with whole | flat
  · rw [whole]
  · rw [flat, Option.map_map]
    exact congrArg (set.map ·) (funext Expression.expand_expand)

end Problem.Pursues

/-- A change stores the objective that it sets, and leaves it alone when it sets none. -/
theorem Change.outcome_objective (c : Change α) (p : Problem α) :
    (c.outcome p).objective = ((Operation.change c).objective? p).or p.objective := by
  rcases c.intake_or_rebound p with ⟨i, rfl⟩ | ⟨other, registry, left⟩
  · rw [outcome_intake]
    cases i with
    | objective e sense =>
      rw [Operation.objective?]
      cases (Intake.objective e sense).isAccepted p <;> rfl
    | constraints cs =>
      split
      · exact (Problem.push_fold _ cs).2.2.2
      · rfl
  · rw [left]
    cases c with
    | intake i => cases other
    | globalBounds | bounds | value => rfl

namespace Operation

variable {p : Problem α} {earlier : Option (Expression α)}

/-- What is stored after an operation is the last objective that was set, at most expanded. -/
theorem perform_pursues (a : Operation α) (h : p.Pursues earlier) :
    (a.perform p).Pursues ((a.objective? p).or earlier) := by
  cases a with
  | change c =>
    have stored := c.outcome_objective p
    cases set : (change c).objective? p with
    | some e =>
      rw [set] at stored
      exact .inl stored
    | none =>
      rw [set] at stored
      exact h.kept stored
  | setSense sense => exact h.kept rfl
  | configure policy => exact h.kept rfl
  | setValues values => exact h.kept rfl
  | remove kind i => cases kind <;> exact h.kept rfl
  | substitute pass => exact h.kept (p.after_frame [pass]).1
  | lower => exact h.expanded p.lower_objective.1
  | build config => exact h.expanded (p.assembly_objective config)

theorem performAll_pursues (as : List (Operation α)) (h : p.Pursues earlier) :
    (performAll as p).Pursues (objectiveSet earlier p as) := by
  induction as generalizing p earlier with
  | nil => exact h
  | cons a as ih => exact ih (a.perform_pursues h)

end Operation

end Objective

/-- Expanding the objective has changed its value nowhere. -/
theorem Problem.Pursues.value {p : Problem Rat} {set : Option (Expression Rat)} (h : p.Pursues set)
    {e : Expression Rat} (stored : p.objective = some e) :
    ∃ f, set = some f ∧ ∀ values, e.eval values = f.eval values := by
  rcases h with whole | flat
  · exact ⟨e, whole.symm.trans stored, fun _ => rfl⟩
  · obtain ⟨f, found, rfl⟩ := Option.map_eq_some_iff.mp (flat.symm.trans stored)
    exact ⟨f, found, f.eval_expand⟩

/-- A row lists a column once, and a point read by the names of the columns satisfies it just when the comparison
is. -/
structure Row.StandsFor (names : List String) (c : Comparison Rat) (r : Row Rat) : Prop where
  distinct : (r.coefficients.map (·.1)).Nodup
  within : ∀ j ∈ r.coefficients.map (·.1), j < names.length
  holds : ∀ values : Assignment Rat,
    r.relation.holds (Row.total r.coefficients ((names.map values).getD · 0)) r.rhs 0 = c.isSatisfied values 0

theorem Row.ofComparison_standsFor {names : List String} {c : Comparison Rat} {r : Row Rat}
    (h : ofComparison names c = .ok r) : StandsFor names c r := by
  obtain ⟨consolidated, -⟩ := consolidate_ok (ofComparison_parts h).1
  exact ⟨consolidated.distinct, consolidated.within, fun values =>
    ofComparison_ok h (Assembled.point_reads values)⟩

namespace Assembled

/-- The columns and rows of a model, one for each variable and each comparison. -/
theorem ofProblem_members {p : Problem Rat} {a : Assembled Rat} (h : ofProblem p = .ok a) :
    List.Forall₂ (fun v column => ColumnDomain.ofVariable v = .ok column.domain) p.registered a.model.columns ∧
      List.Forall₂ (Row.StandsFor a.names) p.comparisons a.model.rows := by
  obtain ⟨costs, domains, rows, parts, rfl⟩ := ofProblem_ok h
  constructor
  · have read := parts.domains
    rw [← domains_of_columns costs domains, List.forall₂_map_right_iff] at read
    exact read
  · exact parts.rows.imp fun c r hr => Row.ofComparison_standsFor hr

end Assembled

/-- A model that is built at the end of a run has a column for each registered variable and a row for each comparison
of the lowered problem, in order, and costs and constant add up to the objective that was set. -/
theorem Problem.model_follows_run (as : List (Operation Rat)) (config : SolverConfig Rat) {a : Assembled Rat}
    (assembled : (Assembly.ofProblem config (ofOperations as)).result = .ok a) :
    let p := ofOperations as
    let q := (Assembly.ofProblem config p).problem
    a.names = q.registered.map (·.name) ∧
    List.Forall₂ (fun v column => ColumnDomain.ofVariable v = .ok column.domain) q.registered a.model.columns ∧
    q.comparisons = p.lower.1.comparisons ∧
    List.Forall₂ (Row.StandsFor a.names) p.lower.1.comparisons a.model.rows ∧
    ∃ e set, p.objective = some e ∧ Operation.objectiveSet none .empty as = some set ∧
      ∀ values, a.model.costAt (a.names.map values) + a.objectiveConstant = set.eval values ∧
        e.eval values = set.eval values := by
  have prepared := prepared_assembly config (ofOperations as)
  have grounded : (Assembly.ofProblem config (ofOperations as)).problem.Grounded :=
    prepared.grounded (reachable_iff_ofOperations.mpr ⟨as, rfl⟩).grounded
  obtain ⟨ready, model⟩ := Assembly.ofProblem_ok assembled
  have faithful := Assembled.ofProblem_faithful grounded.registry model
  obtain ⟨columns, rows⟩ := Assembled.ofProblem_members model
  have comparisons := congrArg comparisons (assembly_frame config (ofOperations as))
  obtain ⟨e, stored, -, value⟩ := prepared.objective_value ready.objective faithful
  obtain ⟨set, given, same⟩ := (Operation.performAll_pursues as (.inl rfl)).value stored
  refine ⟨faithful.names.trans (names_registered grounded.registry), columns, comparisons, comparisons ▸ rows,
    e, set, stored, given, fun values => ⟨?_, same values⟩⟩
  rw [value, same]

/-- Twice the sum of two terms of `x` and one, less `y`. -/
def Expression.folded : Expression Rat :=
  (((Expression.ofTerms [.single 3 (.real "x"), .single 1 (.real "x")]).plusConstant 1).weighted 2).minusVariable
    (.real "y")

/-- The objective is expanded by a lowering before the model is built. -/
def Problem.foldedRun : List (Operation Rat) :=
  [ .change (.intake (.objective .folded .minimise)),
    .change (.intake (.constraints [.comparison (.ofLinear
      [.single 1 (.real "x"), .single 1 (.real "y"), .single 1 (.real "x")] .le 4 defaultMargin)])),
    .lower ]

/-- The terms of `x` are added up, in the row and in the costs, where they count twice. -/
theorem Problem.folded_model :
    ∃ a, (Assembly.ofProblem .default (ofOperations foldedRun)).result = .ok a ∧ a.names = ["y", "x"] ∧
      a.model.columns.map (·.cost) = [-1, 8] ∧ a.model.rows.map (·.coefficients) = [[(1, 2), (0, 1)]] ∧
      ∀ values, a.model.costAt (a.names.map values) + a.objectiveConstant = Expression.folded.eval values := by
  let bounds : ColumnDomain Rat := .real (-10000) 10000
  let a : Assembled Rat :=
    ⟨⟨.minimise, [⟨-1, bounds⟩, ⟨8, bounds⟩], [⟨[(1, 2), (0, 1)], .le, 4⟩]⟩, ["y", "x"], 2⟩
  have assembled : (Assembly.ofProblem .default (ofOperations foldedRun)).result = .ok a := by
    with_unfolding_all rfl
  have set : Operation.objectiveSet none .empty foldedRun = some .folded := by
    with_unfolding_all rfl
  obtain ⟨-, -, -, -, e, f, -, given, value⟩ := model_follows_run foldedRun .default assembled
  obtain rfl := Option.some.inj (set.symm.trans given)
  exact ⟨a, assembled, rfl, rfl, rfl, fun values => (value values).1⟩

end MixedInteger
