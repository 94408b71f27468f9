import MixedInteger.Expression.Arithmetic
import MixedInteger.Proofs.AssembledModel
import MixedInteger.Proofs.SessionHistory
import MixedInteger.Solver.Search

/-!
A complete run around an exact engine: what it reports and what it stores are the optimum of the problem.
-/

namespace MixedInteger

/-- Values that satisfy every constraint and that every registered variable takes. -/
structure Problem.Admits (p : Problem Rat) (values : Assignment Rat) : Prop where
  constraints : ∀ c ∈ p.constraints, c.isSatisfied values 0 = true
  taken : ∀ v ∈ p.registered, v.Takes (values v.name)

theorem Sense.better_add_right {sense : Sense} {x y : Rat} (shift : Rat) :
    sense.Better (x + shift) (y + shift) ↔ sense.Better x y := by
  cases sense <;> simp [Better]

namespace Problem

/-- A lowered problem whose open bounds may be set: what a model is made of. -/
structure Prepared (p q : Problem Rat) : Prop where
  constraints : q.constraints = p.lower.1.constraints
  objective : q.objective = p.objective.map Expression.expand
  sense : q.sense = p.sense
  grounded : p.Grounded → q.Grounded
  stored : p.Grounded → ∀ name ∈ p.registry.names, q.stored name = p.stored name
  grows : p.Grounded → p.lower.1.Extends q

theorem prepared_lower (p : Problem Rat) : p.Prepared p.lower.1 := by
  refine ⟨rfl, p.lower_objective.1, p.lower_objective.2, fun h => h.lower.1, ?_, fun _ => .refl _⟩
  · intro _ name hn
    rw [lower_after]
    exact (p.after_continues p.policy.passes).stored hn

theorem Prepared.bounded {p q r : Problem Rat} (h : p.Prepared q) {low high : Rat}
    (ok : q.applyGlobalBounds low high = .ok r) : p.Prepared r := by
  have bounds (v : Variable Rat) : (v.overrideBounds low high).value = v.value := by
    unfold Variable.overrideBounds
    split <;> rfl
  have kept := applyGlobalBounds_ok ok
  refine ⟨?_, ?_, ?_, fun hp => ((h.grounded hp).applyGlobalBounds ok).1, ?_,
    fun hp => (h.grows hp).trans ((h.grounded hp).applyGlobalBounds ok).2⟩
  · rw [kept]
    exact h.constraints
  · rw [kept]
    exact h.objective
  · rw [kept]
    exact h.sense
  · intro hp name hn
    rw [← h.stored hp name hn, kept]
    simp only [Problem.stored, lookup, Registry.get?_mapCurrent, Option.map_map]
    congr 2
    funext v
    exact bounds v

theorem prepared_assembly (config : SolverConfig Rat) (p : Problem Rat) :
    p.Prepared (Assembly.ofProblem config p).problem := by
  rcases assembly_problem config p with hq | ⟨low, high, hq⟩
  · rw [hq]
    exact p.prepared_lower
  · exact p.prepared_lower.bounded hq

variable {p q left : Problem Rat}

theorem Admits.bitsOn {values : Assignment Rat} (h : q.Admits values) : q.BitsOn values := by
  intro v hv binary
  have takes := h.taken v hv
  rwa [Variable.Takes, binary] at takes

/-- Values that a lowered problem admits satisfy what was lowered. -/
theorem Prepared.satisfied (h : p.Prepared q) (grounded : p.Grounded) {values : Assignment Rat}
    (admits : q.Admits values) (wider : ∀ c ∈ p.constraints, c.Wider 0) :
    ∀ c ∈ p.constraints, c.isSatisfied values 0 = true := by
  have held : ∀ c ∈ p.lower.1.constraints, c.HoldsApart values 0 := by
    intro c hc
    apply (p.lower_constraints c hc).holdsApart_iff.mpr
    exact admits.constraints c (h.constraints ▸ hc)
  have bits := admits.bitsOn.earlier (h.grows grounded)
  intro c hc
  have apart := lower_sound grounded le_rfl zero_lt_one bits held c hc
  simpa using apart.isSatisfied le_rfl (by simpa using wider c hc)

/-- A model of comparisons alone has the points that its problem admits. -/
theorem Prepared.feasible_iff (h : p.Prepared q) (ready : q.Ready) {a : Assembled Rat}
    (faithful : a.Faithful q) (values : Assignment Rat) :
    a.model.Feasible (a.names.map values) ↔ q.Admits values := by
  rw [faithful.feasible]
  constructor
  · rintro ⟨satisfied, takes⟩
    refine ⟨?_, takes⟩
    intro c hc
    have lowered := p.lower_constraints c (h.constraints ▸ hc)
    rw [mem_constraints] at hc
    cases c with
    | comparison c => exact satisfied c hc
    | sos1 s => simp [ready.sos1s] at hc
    | binaryOr b => simp [ready.binaryOrs] at hc
    | disjunction d => exact False.elim lowered
  · rintro ⟨satisfied, takes⟩
    refine ⟨?_, takes⟩
    intro c hc
    exact satisfied (.comparison c) (mem_constraints.mpr hc)

/-- Cost and constant together are the objective as it was stated, and as it was expanded. -/
theorem Prepared.objective_value (h : p.Prepared q) (some_objective : q.objective ≠ none)
    {a : Assembled Rat} (faithful : a.Faithful q) :
    ∃ e, p.objective = some e ∧ q.objective = some e.expand ∧
      ∀ values, a.model.costAt (a.names.map values) + a.objectiveConstant = e.eval values := by
  have expanded := h.objective
  cases he : p.objective with
  | none =>
    rw [he] at expanded
    exact absurd expanded some_objective
  | some e =>
    rw [he, Option.map_some] at expanded
    refine ⟨e, rfl, expanded, fun values => ?_⟩
    have own : (q.objective.getD (.empty .linear)) = e.expand := by
      rw [expanded]
      rfl
    rw [faithful.cost, faithful.constant, own, ← e.eval_expand]
    exact (Expression.eval_flat rfl values).symm

theorem Revalued.admits_iff (h : q.Revalued left) (values : Assignment Rat) :
    left.Admits values ↔ q.Admits values := by
  constructor
  · rintro ⟨satisfied, takes⟩
    exact ⟨h.constraints ▸ satisfied, (h.takes_iff values).mp takes⟩
  · rintro ⟨satisfied, takes⟩
    exact ⟨h.constraints.symm ▸ satisfied, (h.takes_iff values).mpr takes⟩

end Problem

namespace Solver

/-- What an optimal report says of the problem it was asked about and of the one that is left. -/
structure Optimum (p left : Problem Rat) (report : SearchReport Rat) : Prop where
  satisfied : ∀ c ∈ p.constraints, c.isSatisfied left.stored 0 = true
  taken : ∀ v ∈ left.registered, v.Takes (left.stored v.name)
  objective : ∃ e lowered, p.objective = some e ∧ left.objective = some lowered ∧
    e.eval left.stored = report.objective ∧ lowered.eval left.stored = report.objective ∧
    ∀ other, left.Admits other → ¬p.sense.Better (e.eval other) report.objective

/-- The point of an engine is written back whole, and read back as it is. -/
theorem writeBack_point {q : Problem Rat} {a : Assembled Rat} (consistent : q.registry.Consistent)
    (faithful : a.Faithful q) {values : Assignment Rat} (admits : q.Admits values) :
    ∃ left, writeBack (a.names.zip (a.names.map values)) q = (.ok (), left) ∧ q.Revalued left ∧
      a.names.map values = a.names.map left.stored := by
  have pairs : a.names.zip (a.names.map values) = a.names.map fun name => (name, values name) := by
    have zipped : (a.names.map id).zip (a.names.map values) =
        a.names.map fun name => (id name, values name) := List.zip_map'
    rwa [List.map_id] at zipped
  have firsts : (a.names.map fun name => (name, values name)).map (·.1) = a.names := by
    rw [List.map_map]
    exact List.map_id a.names
  rw [pairs]
  have distinct : ((a.names.map fun name => (name, values name)).map (·.1)).Nodup := by
    rw [firsts, faithful.names]
    exact consistent.distinct
  obtain ⟨left, written, revalued, stored, -⟩ := writeBack_ok
    (a.names.map fun name => (name, values name)) consistent distinct (by
      intro k hk
      obtain ⟨name, hn, rfl⟩ := List.mem_map.mp hk
      rw [faithful.names, q.names_registered consistent] at hn
      obtain ⟨v, hv, rfl⟩ := List.mem_map.mp hn
      exact ⟨v, hv, rfl, admits.taken v hv⟩)
  refine ⟨left, written, revalued, ?_⟩
  apply List.map_congr_left
  intro name hn
  exact (stored _ (List.mem_map_of_mem hn)).symm

/-- An optimal point of the model is an optimum of the problem, once it is written back. -/
theorem optimum_of_point {q left : Problem Rat} {a : Assembled Rat} (grounded : p.Grounded)
    (prepared : p.Prepared q) (wider : ∀ c ∈ p.constraints, c.Wider 0) (ready : q.Ready)
    (faithful : a.Faithful q) (revalued : q.Revalued left) {cost : Rat} (admits : q.Admits left.stored)
    (value : a.model.costAt (a.names.map left.stored) = cost)
    (best : ∀ ys, a.model.Feasible ys → ¬a.model.sense.Better (a.model.costAt ys) cost) :
    Optimum p left ⟨.optimal, cost + a.objectiveConstant, 1⟩ := by
  have feasible_iff := prepared.feasible_iff ready faithful
  obtain ⟨e, stated, expanded, objective⟩ := prepared.objective_value ready.objective faithful
  have reported : e.eval left.stored = cost + a.objectiveConstant := by rw [← objective, value]
  refine ⟨prepared.satisfied grounded admits wider, ((revalued.admits_iff _).mpr admits).taken,
    e, e.expand, stated, revalued.objective.trans expanded, reported,
    (e.eval_expand _).trans reported, ?_⟩
  intro other ok better
  have point := (feasible_iff other).mpr ((revalued.admits_iff other).mp ok)
  apply best _ point
  rw [faithful.sense, prepared.sense]
  rw [← objective] at better
  exact (Sense.better_add_right a.objectiveConstant).mp better

/-- The model of a problem has the points that the prepared problem admits. -/
theorem assembled_faithful {p : Problem Rat} (grounded : p.Grounded) {config : SolverConfig Rat}
    {a : Assembled Rat} (assembled : (Assembly.ofProblem config p).result = .ok a) :
    a.Faithful (Assembly.ofProblem config p).problem ∧ ∀ values,
      a.model.Feasible (a.names.map values) ↔ (Assembly.ofProblem config p).problem.Admits values := by
  have prepared := p.prepared_assembly config
  obtain ⟨ready, model⟩ := Assembly.ofProblem_ok assembled
  have faithful := Assembled.ofProblem_faithful (prepared.grounded grounded).registry model
  exact ⟨faithful, prepared.feasible_iff ready faithful⟩

/-- An engine that hands back an optimal point of the model makes a run that stores an optimum. -/
theorem run_optimal {engine : Engine Rat} {s : Solver Rat} {p : Problem Rat} (grounded : p.Grounded)
    (wider : ∀ c ∈ p.constraints, c.Wider 0) {a : Assembled Rat}
    (assembled : (Assembly.ofProblem s.config p).result = .ok a) {cost : Rat} {xs : List Rat}
    (answer : engine a.model = .optimal cost xs) (truth : (Answer.optimal cost xs).Truthful a.model) :
    (s.run engine p).result = .ok ⟨.optimal, cost + a.objectiveConstant, 1⟩ ∧
      Optimum p (s.run engine p).problem ⟨.optimal, cost + a.objectiveConstant, 1⟩ := by
  have prepared := p.prepared_assembly s.config
  obtain ⟨ready, -⟩ := Assembly.ofProblem_ok assembled
  obtain ⟨faithful, feasible_iff⟩ := assembled_faithful grounded assembled
  obtain ⟨point, value, best⟩ := truth
  obtain ⟨values, rfl⟩ := faithful.points xs point
  obtain ⟨left, written, revalued, same⟩ :=
    writeBack_point (prepared.grounded grounded).registry faithful ((feasible_iff values).mp point)
  have answered := run_answered engine assembled
  simp only [answer, written, Prod.mk.injEq] at answered
  obtain ⟨problem, result⟩ := answered
  rw [same] at value point
  rw [problem, result]
  exact ⟨rfl, optimum_of_point grounded prepared wider ready faithful revalued
    ((feasible_iff _).mp point) value best⟩

/-- A run around an engine that tells the truth about the model it is handed. What it reports as optimal is
stored and is the optimum, what it reports as infeasible is, and without a solution nothing is stored. -/
theorem run_correct {engine : Engine Rat} {s : Solver Rat} {p : Problem Rat} (reachable : Reachable p)
    (wider : ∀ c ∈ p.constraints, c.Wider 0)
    (truthful : ∀ a, (Assembly.ofProblem s.config p).result = .ok a →
      (engine a.model).Truthful a.model) :
    (∀ report, (s.run engine p).result = .ok report → report.status = .optimal →
      Optimum p (s.run engine p).problem report) ∧
    (∀ report, (s.run engine p).result = .ok report → report.status = .infeasible →
      ∀ values, ¬(s.run engine p).problem.Admits values) ∧
    ((∀ report, (s.run engine p).result = .ok report → report.status.hasSolution = false) →
      ∀ name ∈ p.registry.names, (s.run engine p).problem.stored name = p.stored name) := by
  have grounded := reachable.grounded
  have stored := (p.prepared_assembly s.config).stored grounded
  cases assembled : (Assembly.ofProblem s.config p).result with
  | error e =>
    obtain ⟨problem, result⟩ := run_refused engine assembled
    rw [problem, result]
    exact ⟨fun _ h => by simp at h, fun _ h => by simp at h, fun _ => stored⟩
  | ok a =>
    have answered := run_answered engine assembled
    have truth := truthful a assembled
    cases answer : engine a.model with
    | optimal cost xs =>
      rw [answer] at truth
      obtain ⟨result, optimum⟩ := run_optimal grounded wider assembled answer truth
      rw [result]
      refine ⟨?_, ?_, ?_⟩
      · intro report h _
        cases h
        exact optimum
      · intro report h infeasible
        cases h
        simp at infeasible
      · intro none
        have solved := none _ rfl
        simp [Status.hasSolution] at solved
    | infeasible =>
      rw [answer] at answered truth
      obtain ⟨problem, result⟩ := Prod.mk.inj answered
      rw [problem, result]
      refine ⟨?_, ?_, fun _ => stored⟩
      · intro report h optimal
        cases h
        simp at optimal
      · intro _ _ _ values admits
        exact truth _ (((assembled_faithful grounded assembled).2 values).mpr admits)
    | unbounded =>
      rw [answer] at answered
      obtain ⟨problem, result⟩ := Prod.mk.inj answered
      rw [problem, result]
      refine ⟨?_, ?_, fun _ => stored⟩
      · intro report h optimal
        cases h
        simp at optimal
      · intro report h infeasible
        cases h
        simp at infeasible
    | failed reason =>
      rw [answer] at answered
      obtain ⟨problem, result⟩ := Prod.mk.inj answered
      rw [problem, result]
      exact ⟨fun _ h => by simp at h, fun _ h => by simp at h, fun _ => stored⟩

end Solver

/-- Twice the sum of `x` and three, to be made as small as it can be. -/
def Problem.minimised : Problem Rat :=
  let x := (Variable.integer "x").between 0 9
  { Problem.empty with
    registry := Registry.empty.insert x
    objective := some (.weighted ⟨.linear, [.single 1 x], [3], []⟩ 2) }

/-- The same, and `x` must not be zero. -/
def Problem.least : Problem Rat :=
  Problem.minimised.push (.comparison (.ofLinear [.single 1 ((Variable.integer "x").between 0 9)] .ne 0 (1 / 2)))

namespace Solver

/-- A column for `x`, one for each of its slack variables, and one for each of their switches. -/
def leastModel : Model Rat :=
  ⟨.minimise,
    [⟨2, .integer 0 9⟩, ⟨0, .real 0 100000⟩, ⟨0, .real 0 100000⟩, ⟨0, .binary⟩, ⟨0, .binary⟩],
    [⟨[(1, 1), (2, 1)], .ge, 1⟩, ⟨[(0, 1), (1, 1)], .ge, 1 / 2⟩, ⟨[(0, 1), (2, -1)], .le, -(1 / 2)⟩,
      ⟨[(1, 1), (3, -100000)], .le, 0⟩, ⟨[(1, 1), (3, 100000)], .ge, 0⟩,
      ⟨[(2, 1), (4, -100000)], .le, 0⟩, ⟨[(2, 1), (4, 100000)], .ge, 0⟩, ⟨[(3, 1), (4, 1)], .le, 1⟩]⟩

/-- A switch that is off shuts its slack variable. The one of the side below zero cannot be shut, so the other one is,
and the first column must be beyond a margin by itself. -/
theorem leastModel_truthful : (Answer.optimal 2 [1, 0, 100000, 0, 1]).Truthful leastModel := by
  refine ⟨⟨?_, by decide +kernel⟩, by decide +kernel, ?_⟩
  · refine .cons ⟨⟨1, rfl⟩, by norm_num, by norm_num⟩ (.cons ⟨le_rfl, by norm_num⟩ (.cons ⟨by norm_num, le_rfl⟩ ?_))
    exact .cons (.inl rfl) (.cons (.inr rfl) .nil)
  · rintro ys ⟨columns, rows⟩ better
    simp only [leastModel, List.map_cons, List.map_nil, List.forall₂_cons_right_iff,
      List.forall₂_nil_right_iff] at columns
    obtain ⟨_, _, ⟨⟨n, rfl⟩, low, -⟩, ⟨u, _, -, ⟨w, _, -, ⟨b, _, bit, ⟨c, _, bit', rfl, rfl⟩, rfl⟩, rfl⟩, rfl⟩, rfl⟩ :=
      columns
    have facts : (1 / 2 : Rat) ≤ n + u ∧ (n : Rat) + 1 / 2 ≤ w ∧ u ≤ 100000 * b ∧ w ≤ 100000 * c ∧ b + c ≤ 1 := by
      simp [leastModel, Relation.holds] at rows
      obtain ⟨-, above, below, shut, -, shut', -, one⟩ := rows
      refine ⟨?_, ?_, ?_, ?_, ?_⟩ <;> linarith
    obtain ⟨above, below, shut, shut', one⟩ := facts
    have cheaper : (n : Rat) < 1 := by
      simpa [Sense.Better, Model.costAt, leastModel] using better
    rw [Int.cast_zero] at low
    have positive : (0 : Rat) < n := by
      rcases bit with rfl | rfl
      · linarith
      · rcases bit' with rfl | rfl <;> linarith
    have whole : (1 : Rat) ≤ n := by exact_mod_cast positive
    exact absurd cheaper (not_lt.mpr whole)

theorem least_optimum :
    Optimum Problem.least ((ofConfig .default).run exactEngine Problem.least).problem
      ⟨.optimal, 8, 1⟩ := by
  let x := (Variable.integer "x").between (0 : Rat) 9
  have stated : (Problem.empty : Problem Rat).setObjective (.weighted ⟨.linear, [.single 1 x], [3], []⟩ 2) .minimise =
      .ok (Problem.minimised, _) := rfl
  have posted : Problem.minimised.addAll [.comparison (.ofLinear [.single 1 x] .ne 0 (1 / 2))] =
      .ok Problem.least := rfl
  have reachable : Reachable Problem.least := .step (.step .start (.objective stated)) (.posted posted)
  let a : Assembled Rat := ⟨leastModel, ["x", "psi#0", "psi_prime#1", "sos_binary#2", "sos_binary#3"], 6⟩
  have assembled : (Assembly.ofProblem (ofConfig .default).config Problem.least).result = .ok a := by
    have made : (Assembly.ofProblem (ofConfig .default).config Problem.least).result.toOption = some a := by
      decide +kernel
    generalize (Assembly.ofProblem (ofConfig .default).config Problem.least).result = result at made ⊢
    cases result with
    | error e => cases made
    | ok b => exact congrArg Except.ok (Option.some.inj made)
  have answer : exactEngine leastModel = .optimal 2 [1, 0, 100000, 0, 1] := by decide +kernel
  have wider : ∀ c ∈ Problem.least.constraints, c.Wider 0 := by
    intro c hc
    rw [List.mem_singleton.mp hc]
    intro _
    norm_num [Comparison.ofLinear]
  have result := (run_optimal reachable.grounded wider assembled answer leastModel_truthful).1
  have sum : (2 : Rat) + 6 = 8 := by norm_num
  rw [sum] at result
  refine (run_correct reachable wider ?_).1 _ result rfl
  intro b hb
  rw [assembled] at hb
  cases hb
  exact answer ▸ leastModel_truthful

end Solver
end MixedInteger
