import MixedInteger.Proofs.BuildFrame
import MixedInteger.Proofs.ColumnRange
import MixedInteger.Proofs.Convergence
import MixedInteger.Proofs.FixedPoint
import MixedInteger.Proofs.StatedRelation

/-!
When a model can be built. Of the checks on the way each has a condition that can be read off the problem and the
configuration, except two that never fail: every variable that is used is known, and lowering leaves no relation.
-/

namespace MixedInteger

/-- A relation that lowering should not have left, or a variable that the problem should have known. -/
def Refusal.IsInternal {α : Type} : Refusal α → Prop
  | .foreignVariable _ | .relationLeft _ => True
  | _ => False

theorem Degree.ne_quadratic {d : Degree} : d ≠ .quadratic ↔ d = .linear := by
  cases d <;> simp

variable {α : Type} [Scalar α]

namespace Row

variable {names : List String}

/-- Whether a term of known variables is taken depends on its degree alone. -/
theorem addTerm_known {t : Term α} (known : ∀ v ∈ t.occurrences, v.name ∈ names) (coefficients : List (Nat × α)) :
    (t.degree = .linear ∧ ∃ next, addTerm names coefficients t = .ok next) ∨
      t.degree = .quadratic ∧ addTerm names coefficients t = .error (.termNotLinear t) := by
  obtain ⟨weight, monomial⟩ := t
  cases monomial with
  | product v w => exact .inr ⟨rfl, rfl⟩
  | single v =>
    have among : v.name ∈ names := known v List.mem_cons_self
    cases found : names.idxOf? v.name with
    | none => exact absurd among (List.idxOf?_eq_none_iff.mp found)
    | some column => exact .inl ⟨rfl, _, by simp only [addTerm, found]; rfl⟩

variable {terms : List (Term α)}

theorem consolidate_refused (known : ∀ v ∈ terms.flatMap Term.occurrences, v.name ∈ names) {r : Refusal α}
    (h : consolidate names terms = .error r) : ∃ t ∈ terms, t.degree = .quadratic ∧ r = .termNotLinear t := by
  obtain ⟨t, ht, coefficients, refused⟩ := foldlM_error h
  rcases addTerm_known (fun v hv => known v (List.mem_flatMap.mpr ⟨t, ht, hv⟩)) coefficients with
    ⟨-, next, taken⟩ | ⟨quadratic, unfit⟩
  · rw [taken] at refused
    cases refused
  · rw [unfit] at refused
    exact ⟨t, ht, quadratic, (Except.error.inj refused).symm⟩

theorem consolidate_iff (known : ∀ v ∈ terms.flatMap Term.occurrences, v.name ∈ names) :
    (∃ coefficients, consolidate names terms = .ok coefficients) ↔ ∀ t ∈ terms, t.degree = .linear := by
  constructor
  · rintro ⟨coefficients, done⟩
    refine foldlM_ok (P := fun seen _ => ∀ t ∈ seen, t.degree = .linear) done (by simp) ?_
    intro seen _ t _ linear taken u hu
    rcases List.mem_append.mp hu with hu | hu
    · exact linear u hu
    · rw [List.mem_singleton.mp hu]
      obtain ⟨weight, monomial⟩ := t
      cases monomial with
      | single v => rfl
      | product v w => cases taken
  · intro linear
    cases done : consolidate names terms with
    | ok coefficients => exact ⟨coefficients, rfl⟩
    | error r =>
      obtain ⟨t, ht, quadratic, -⟩ := consolidate_refused known done
      rw [linear t ht] at quadratic
      cases quadratic

variable {c : Comparison α}

theorem ofComparison_canonical (canonical : c.relation.isCanonical = true) :
    ofComparison names c = do return ⟨← consolidate names c.lhs, c.relation, c.rhs⟩ := by
  unfold ofComparison
  rw [canonical]
  rfl

theorem ofComparison_iff (canonical : c.relation.isCanonical = true) (known : ∀ v ∈ c.occurrences, v.name ∈ names) :
    (∃ r, ofComparison names c = .ok r) ↔ ∀ t ∈ c.lhs, t.degree = .linear := by
  rw [← consolidate_iff known, ofComparison_canonical canonical]
  simp only [bind_eq_ok, pure_eq_ok]
  constructor
  · rintro ⟨_, coefficients, done, _⟩
    exact ⟨coefficients, done⟩
  · rintro ⟨coefficients, done⟩
    exact ⟨_, coefficients, done, rfl⟩

theorem ofComparison_refused (canonical : c.relation.isCanonical = true)
    (known : ∀ v ∈ c.occurrences, v.name ∈ names) {r : Refusal α} (h : ofComparison names c = .error r) :
    ¬r.IsInternal := by
  rw [ofComparison_canonical canonical, bind_eq_error] at h
  rcases h with h | ⟨_, -, h⟩
  · obtain ⟨t, -, -, rfl⟩ := consolidate_refused known h
    exact id
  · cases h

end Row

theorem Variable.checkBounds_refused {v : Variable α} {r : Refusal α} (h : v.checkBounds = .error r) :
    ¬r.IsInternal := by
  have bound {x : α} (h : v.checkBound x = .error r) : ¬r.IsInternal := by
    unfold checkBound at h
    split at h
    · obtain rfl := Except.error.inj h
      exact id
    · cases h
  unfold checkBounds checkInterval at h
  split at h
  · obtain rfl := Except.error.inj h
    exact id
  · rcases bind_eq_error.mp h with low | ⟨_, -, high⟩
    · exact bound low
    · exact bound high

/-- An engine counts up to the first and the last integer between the bounds. -/
def Variable.RoundsWithin (v : Variable α) : Prop :=
  ∃ low high : Rat, Scalar.toRat? v.lower.value = some low ∧ Scalar.toRat? v.upper.value = some high ∧
    (-2147483648 ≤ low.ceil ∧ low.ceil ≤ 2147483647) ∧ -2147483648 ≤ high.floor ∧ high.floor ≤ 2147483647

theorem ColumnDomain.ofVariable_iff {v : Variable α} :
    (∃ domain, ofVariable v = .ok domain) ↔ (v.domain = .integer → v.RoundsWithin) := by
  unfold ofVariable Variable.RoundsWithin
  cases hd : v.domain with
  | binary | real => simp
  | integer =>
    cases Scalar.toRat? v.lower.value <;> cases Scalar.toRat? v.upper.value <;> simp [fits, and_assoc]
    split <;> simp_all

theorem ColumnDomain.ofVariable_refused {v : Variable α} {r : Refusal α} (h : ofVariable v = .error r) :
    r = .integerRange v := by
  unfold ofVariable at h
  split at h
  · cases h
  · cases h
  · split at h
    · split at h
      · cases h
      · exact (Except.error.inj h).symm
    · exact (Except.error.inj h).symm

/-- An engine can read the rows and the objective: canonical relations between variables that are known. -/
structure Problem.Legible (p : Problem α) : Prop where
  objective : ∀ e ∈ p.objective, ∀ v ∈ e.terms.flatMap Term.occurrences, v.name ∈ p.registry.names
  canonical : ∀ c ∈ p.comparisons, c.relation.isCanonical = true
  known : ∀ c ∈ p.comparisons, ∀ v ∈ c.occurrences, v.name ∈ p.registry.names

namespace Problem.Legible

variable {p : Problem α}

omit [Scalar α] in
theorem costs (h : p.Legible) :
    ∀ v ∈ (p.objective.getD (.empty .linear)).terms.flatMap Term.occurrences, v.name ∈ p.registry.names := by
  cases ho : p.objective with
  | none => exact nofun
  | some e => exact h.objective e ho

theorem assembled_iff (h : p.Legible) : (∃ a, Assembled.ofProblem p = .ok a) ↔
    (∀ e ∈ p.objective, ∀ t ∈ e.terms, t.degree = .linear) ∧
      (∀ v ∈ p.registered, v.domain = .integer → v.RoundsWithin) ∧
      ∀ c ∈ p.comparisons, ∀ t ∈ c.lhs, t.degree = .linear := by
  have costs : (∃ coefficients, Row.consolidate p.registry.names (p.objective.getD (.empty .linear)).terms =
      .ok coefficients) ↔ ∀ e ∈ p.objective, ∀ t ∈ e.terms, t.degree = .linear := by
    rw [Row.consolidate_iff h.costs]
    cases p.objective with
    | none => exact iff_of_true nofun nofun
    | some e => simp
  have columns : (∃ domains, p.registered.mapM ColumnDomain.ofVariable = .ok domains) ↔
      ∀ v ∈ p.registered, v.domain = .integer → v.RoundsWithin := by
    rw [exists_mapM_ok]
    exact forall₂_congr fun v _ => ColumnDomain.ofVariable_iff
  have rows : (∃ rows, p.comparisons.mapM (Row.ofComparison p.registry.names) = .ok rows) ↔
      ∀ c ∈ p.comparisons, ∀ t ∈ c.lhs, t.degree = .linear := by
    rw [exists_mapM_ok]
    exact forall₂_congr fun c hc => Row.ofComparison_iff (h.canonical c hc) (h.known c hc)
  rw [← costs, ← columns, ← rows]
  simp only [Assembled.ofProblem, bind_eq_ok, pure_eq_ok]
  constructor
  · rintro ⟨a, coefficients, costs, domains, columns, taken, rows, -⟩
    exact ⟨⟨coefficients, costs⟩, ⟨domains, columns⟩, taken, rows⟩
  · rintro ⟨⟨coefficients, costs⟩, ⟨domains, columns⟩, taken, rows⟩
    exact ⟨_, coefficients, costs, domains, columns, taken, rows, rfl⟩

theorem assembled_refused (h : p.Legible) {r : Refusal α} (refused : Assembled.ofProblem p = .error r) :
    ¬r.IsInternal := by
  unfold Assembled.ofProblem at refused
  rcases bind_eq_error.mp refused with costs | ⟨_, -, refused⟩
  · obtain ⟨t, -, -, rfl⟩ := Row.consolidate_refused h.costs costs
    exact id
  rcases bind_eq_error.mp refused with columns | ⟨_, -, refused⟩
  · obtain ⟨v, -, refused⟩ := mapM_error columns
    rw [ColumnDomain.ofVariable_refused refused]
    exact id
  rcases bind_eq_error.mp refused with rows | ⟨_, -, done⟩
  · obtain ⟨c, hc, refused⟩ := mapM_error rows
    exact Row.ofComparison_refused (h.canonical c hc) (h.known c hc) refused
  · cases done

end Problem.Legible

/-- What is written must find its way. -/
def SolverConfig.checkSink (config : SolverConfig α) : Except (SolverError α) Unit :=
  match config.sink with
  | some (.closed reason) => throw (.sinkClosed reason)
  | _ => pure ()

namespace Assembly

variable {p : Problem α} {config : SolverConfig α} {r : Refusal α}

theorem checkReady_iff : checkReady p = .ok () ↔ p.Ready := by
  refine ⟨checkReady_ok, fun ready => ?_⟩
  have valid : p.registered.forM Variable.checkBounds = .ok () := forM_ok.mpr ready.bounds
  obtain ⟨e, objective⟩ := Option.ne_none_iff_exists'.mp ready.objective
  simp [checkReady, Problem.validate, ready.sos1s, ready.binaryOrs, objective, valid]

theorem checkReady_refused (h : checkReady p = .error r) : ¬r.IsInternal := by
  have checks : checkReady p =
      if p.sos1s.isEmpty && p.binaryOrs.isEmpty then
        if p.objective.isNone then throw .noObjective else p.registered.forM Variable.checkBounds
      else throw .nativeLeft := by
    unfold checkReady Problem.validate
    cases p.sos1s.isEmpty && p.binaryOrs.isEmpty <;> cases p.objective.isNone <;> rfl
  rw [checks] at h
  split at h
  · split at h
    · obtain rfl := Except.error.inj h
      exact id
    · obtain ⟨v, -, refused⟩ := forM_error h
      exact Variable.checkBounds_refused refused
  · obtain rfl := Except.error.inj h
    exact id

theorem applyBounds_refused (h : applyBounds config p = .error r) : ¬r.IsInternal := by
  obtain ⟨b, -, -, rfl⟩ := (Problem.applyBounds_error h).1
  exact id

theorem ofReady_result (config : SolverConfig α) (p : Problem α) (events : List (Event α)) :
    (ofReady config p events).result =
      (config.checkSink >>= fun _ => (Assembled.ofProblem p).mapError .refused) := by
  unfold ofReady SolverConfig.checkSink
  cases config.sink with
  | none => cases Assembled.ofProblem p <;> rfl
  | some sink =>
    cases sink with
    | closed reason => rfl
    | «open» => cases Assembled.ofProblem p <;> rfl

/-- One check after the other, and the model at the end. -/
theorem ofProblem_result (config : SolverConfig α) (p : Problem α) : (ofProblem config p).result = (do
    let q ← (applyBounds config p.lower.1).mapError .refused
    (checkReady q).mapError .refused
    config.checkSink
    (Assembled.ofProblem q).mapError .refused) := by
  unfold ofProblem
  dsimp only
  cases applyBounds config p.lower.1 with
  | error r => rfl
  | ok q =>
    change _ = (checkReady q).mapError SolverError.refused >>= _
    dsimp only
    cases checkReady q with
    | error r => rfl
    | ok u => exact ofReady_result config q _

end Assembly

/-- Some comparison has a quadratic term. -/
def Problem.HasQuadraticRow (p : Problem α) : Prop := ∃ c ∈ p.comparisons, ∃ t ∈ c.lhs, t.degree = .quadratic

/-- A row that comes of a comparison has all its terms. -/
theorem Lowering.carries {bigM : α} {c : Comparison α} {vs : List (Variable α)} {rows : List (Constraint α)}
    (h : Lowering bigM (.comparison c) vs rows) : ∃ r, .comparison r ∈ rows ∧ c.lhs ⊆ r.lhs := by
  cases h with
  | below | above => exact ⟨_, List.mem_singleton_self _, List.Subset.refl _⟩
  | apart excluding above below =>
    refine ⟨_, List.mem_cons_of_mem _ (List.mem_cons_of_mem _ List.mem_cons_self), ?_⟩
    exact List.subset_append_left _ _

namespace Problem

variable {p : Problem α}

theorem HasQuadraticRow.after (h : p.HasQuadraticRow) (passes : List Pass) : (p.after passes).HasQuadraticRow := by
  refine after_keeps (P := HasQuadraticRow) h ?_ passes
  rintro q r pass kept ws passed ⟨c, hc, t, ht, quadratic⟩
  have there : .comparison c ∈ q.constraints := mem_constraints.mpr hc
  rcases List.mem_append.mp (passed.before.mem_iff.mp there) with keep | source
  · have stays : .comparison c ∈ r.constraints := passed.after.mem_iff.mpr (List.mem_append_left _ keep)
    exact ⟨c, mem_constraints.mp stays, t, ht, quadratic⟩
  · obtain ⟨w, hw, same⟩ := List.mem_map.mp source
    obtain ⟨row, among, carried⟩ := (same ▸ w.lowers : Lowering _ (.comparison c) _ _).carries
    exact ⟨row, mem_constraints.mp (passed.row_mem hw among), t, carried ht, quadratic⟩

/-- Lowering makes no term quadratic and drops none that is, as long as the disjuncts have none. -/
theorem hasQuadraticRow_lower (fits : ∀ c ∈ p.constraints, c.Fits) :
    p.lower.1.HasQuadraticRow ↔ p.HasQuadraticRow := by
  constructor
  · intro lowered
    by_contra linear
    have all : ∀ c ∈ p.constraints, c.IsLinear := by
      intro c hc
      cases c with
      | comparison c =>
        intro t ht
        refine Degree.ne_quadratic.mp fun quadratic => linear ⟨c, mem_constraints.mp hc, t, ht, quadratic⟩
      | disjunction d => exact Disjunction.isLinear_of_fits (fits _ hc)
      | sos1 | binaryOr => exact nofun
    obtain ⟨c, hc, t, ht, quadratic⟩ := lowered
    have linear := lower_all (fun _ _ _ _ lowers => lowers.isLinear) all (.comparison c) (mem_constraints.mpr hc) t ht
    rw [linear] at quadratic
    cases quadratic
  · intro h
    rw [lower_after]
    exact h.after p.policy.passes

omit [Scalar α] in
theorem not_hasQuadraticRow : ¬p.HasQuadraticRow ↔ ∀ c ∈ p.comparisons, ∀ t ∈ c.lhs, t.degree = .linear := by
  simp only [HasQuadraticRow, not_exists, not_and, ← ne_eq, Degree.ne_quadratic]

/-- What it takes of a problem that a model of it can be built. Bounds are looked at once the open ones are set, and
those of auxiliaries count as well. -/
structure Buildable (p : Problem α) (config : SolverConfig α) : Prop where
  globalBounds : ∀ b ∈ config.bounds, ¬b.2 < b.1
  sos1s : p.lower.1.sos1s = []
  binaryOrs : p.lower.1.binaryOrs = []
  objective : p.objective ≠ none
  bounds : ∀ v ∈ (p.lower.1.bounded config.bounds).registered, v.Ordered
  sink : ∀ reason, config.sink ≠ some (.closed reason)
  objectiveTerms : ∀ e ∈ p.objective, ¬e.HasTerm .quadratic
  rows : ¬p.HasQuadraticRow
  integers : ∀ v ∈ (p.lower.1.bounded config.bounds).registered, v.domain = .integer → v.RoundsWithin

theorem bounded_comparisons (p : Problem α) (bounds : Option (α × α)) :
    (p.bounded bounds).comparisons = p.comparisons := by
  rw [bounded_frame]

end Problem

/-- What is left to an engine it can read: lowering leaves canonical relations, and a problem knows its variables. -/
theorem Reachable.legible {p : Problem α} (h : Reachable p) (config : SolverConfig α) :
    (p.lower.1.bounded config.bounds).Legible := by
  rw [← Problem.assembly_bounded]
  have left : Reachable (Assembly.ofProblem config p).problem := h.step (.built p config)
  have consistent := left.grounded.registry
  refine ⟨fun e he v hv => ?_, ?_, fun c hc v hv => ?_⟩
  · obtain ⟨degree, terms, constants, nested⟩ := e
    exact (left.objective_known _ he v (List.mem_append_left _ hv)).mem_names consistent
  · rw [Problem.assembly_bounded, Problem.bounded_comparisons]
    have lowered := p.lower_isLowered
    simp only [Problem.isLowered, Bool.and_eq_true, List.all_eq_true] at lowered
    exact lowered.1.1.1.2
  · exact (left.grounded.known (.comparison c) (Problem.mem_constraints.mpr hc) v hv).mem_names consistent

/-- Between lowering and the checks only bounds change. -/
theorem Problem.bounded_ready (p : Problem α) (config : SolverConfig α) :
    (p.lower.1.bounded config.bounds).Ready ↔
      p.lower.1.sos1s = [] ∧ p.lower.1.binaryOrs = [] ∧ p.objective ≠ none ∧
        ∀ v ∈ (p.lower.1.bounded config.bounds).registered, v.Ordered := by
  have frame := p.lower.1.bounded_frame config.bounds
  have sos1s : (p.lower.1.bounded config.bounds).sos1s = p.lower.1.sos1s := by rw [frame]
  have binaryOrs : (p.lower.1.bounded config.bounds).binaryOrs = p.lower.1.binaryOrs := by rw [frame]
  have objective : (p.lower.1.bounded config.bounds).objective ≠ none ↔ p.objective ≠ none := by
    rw [frame]
    change p.lower.1.objective ≠ none ↔ _
    rw [p.lower_objective.1, ne_eq, Option.map_eq_none_iff]
  simp only [← Variable.checkBounds_iff, ← sos1s, ← binaryOrs, ← objective]
  exact ⟨fun h => ⟨h.sos1s, h.binaryOrs, h.objective, h.bounds⟩,
    fun ⟨sos1s, binaryOrs, objective, bounds⟩ => ⟨sos1s, binaryOrs, objective, bounds⟩⟩

/-- Expansion shows the quadratic terms of an objective at every depth. -/
theorem Problem.objective_linear (p : Problem α) (config : SolverConfig α) :
    (∀ e ∈ (p.lower.1.bounded config.bounds).objective, ∀ t ∈ e.terms, t.degree = .linear) ↔
      ∀ e ∈ p.objective, ¬e.HasTerm .quadratic := by
  rw [← assembly_bounded, assembly_objective]
  simp only [Option.mem_def, Option.map_eq_some_iff, forall_exists_index, and_imp, forall_apply_eq_imp_iff₂]
  refine forall₂_congr fun e _ => ?_
  rw [← e.flatTerms_degree, not_exists]
  simp only [not_and, ← ne_eq, Degree.ne_quadratic]
  rfl

omit [Scalar α] in
theorem SolverConfig.checkSink_ok {config : SolverConfig α} :
    config.checkSink = .ok () ↔ ∀ reason, config.sink ≠ some (.closed reason) := by
  unfold checkSink
  split
  · rename_i reason closed
    exact iff_of_false nofun fun h => h reason closed
  · rename_i passes
    exact iff_of_true rfl passes

namespace Assembly

variable {p : Problem α} {config : SolverConfig α}

/-- A model comes of it when every check is passed, each on the problem that is left by then. -/
theorem result_ok_iff : (∃ a, (ofProblem config p).result = .ok a) ↔
    (∀ b ∈ config.bounds, ¬b.2 < b.1) ∧ (p.lower.1.bounded config.bounds).Ready ∧
      (∀ reason, config.sink ≠ some (.closed reason)) ∧
      ∃ a, Assembled.ofProblem (p.lower.1.bounded config.bounds) = .ok a := by
  rw [← checkReady_iff, ← config.checkSink_ok]
  simp only [ofProblem_result, bind_eq_ok, mapError_eq_ok, Problem.applyBounds_ok]
  constructor
  · rintro ⟨a, q, ⟨ordered, rfl⟩, _, ready, _, sink, made⟩
    exact ⟨ordered, ready, sink, a, made⟩
  · rintro ⟨ordered, ready, sink, a, made⟩
    exact ⟨a, _, ⟨ordered, rfl⟩, (), ready, (), sink, made⟩

theorem result_refused {r : Refusal α} (h : (ofProblem config p).result = .error (.refused r)) :
    applyBounds config p.lower.1 = .error r ∨ checkReady (p.lower.1.bounded config.bounds) = .error r ∨
      Assembled.ofProblem (p.lower.1.bounded config.bounds) = .error r := by
  have sink : config.checkSink ≠ .error (.refused r) := by
    unfold SolverConfig.checkSink
    split <;> nofun
  simp only [ofProblem_result, bind_eq_error, mapError_eq_error, mapError_eq_ok, SolverError.refused.injEq,
    Problem.applyBounds_ok] at h
  rcases h with ⟨_, reversed, rfl⟩ | ⟨q, ⟨-, rfl⟩, ⟨_, unready, rfl⟩ | ⟨_, -, closed | ⟨_, -, _, unfit, rfl⟩⟩⟩
  · exact .inl reversed
  · exact .inr (.inl unready)
  · exact absurd closed sink
  · exact .inr (.inr unfit)

end Assembly

/-- A build succeeds exactly when its conditions are met, and it is never refused for a variable that the problem does
not know or a relation that lowering left. -/
theorem Constructible.build_iff {p : Problem α} (h : Constructible p) (s : Solver α) :
    ((∃ a, (s.build p).2.result = .ok a) ↔ p.Buildable s.config) ∧
      (∀ name, (s.build p).2.result ≠ .error (.refused (.foreignVariable name))) ∧
      ∀ c, (s.build p).2.result ≠ .error (.refused (.relationLeft c)) := by
  have legible := h.reachable.legible s.config
  have assembly : (s.build p).2 = Assembly.ofProblem s.config p := by rw [s.build_given]
  have external {r : Refusal α} (refused : (s.build p).2.result = .error (.refused r)) : ¬r.IsInternal := by
    rw [assembly] at refused
    rcases Assembly.result_refused refused with reversed | unready | unfit
    · exact Assembly.applyBounds_refused reversed
    · exact Assembly.checkReady_refused unready
    · exact legible.assembled_refused unfit
  refine ⟨?_, fun name refused => external refused trivial, fun c refused => external refused trivial⟩
  have rows : (∀ c ∈ (p.lower.1.bounded s.config.bounds).comparisons, ∀ t ∈ c.lhs, t.degree = .linear) ↔
      ¬p.HasQuadraticRow := by
    rw [← Problem.not_hasQuadraticRow, ← Problem.hasQuadraticRow_lower h.fits, Problem.HasQuadraticRow,
      Problem.bounded_comparisons]
    rfl
  rw [assembly, Assembly.result_ok_iff, p.bounded_ready, legible.assembled_iff, p.objective_linear, rows]
  constructor
  · rintro ⟨globalBounds, ⟨sos1s, binaryOrs, objective, bounds⟩, sink, objectiveTerms, integers, rows⟩
    exact ⟨globalBounds, sos1s, binaryOrs, objective, bounds, sink, objectiveTerms, rows, integers⟩
  · intro b
    exact ⟨b.globalBounds, ⟨b.sos1s, b.binaryOrs, b.objective, b.bounds⟩, b.sink, b.objectiveTerms, b.integers, b.rows⟩

namespace Problem

theorem aimed_constructible (v : Variable Rat) : Constructible (aimed v) := by
  have stated : (Problem.empty : Problem Rat).setObjective (.ofTerm (.single 1 v)) .minimise = .ok (aimed v, _) := rfl
  exact .step .start (.objective stated) (by simp)

theorem aimed_buildable (v : Variable Rat) :
    (aimed v).Buildable .default ↔ v.Ordered ∧ (v.domain = .integer → v.RoundsWithin) := by
  have lowered := lower_of_isLowered (p := aimed v) rfl
  have registered : ((aimed v).lower.1.bounded SolverConfig.default.bounds).registered = [v] := by
    rw [lowered]
    rfl
  have linear : ¬(Expression.ofTerm (Term.single 1 v)).HasTerm .quadratic := by
    rw [← Expression.flatTerms_degree]
    rintro ⟨t, ht, quadratic⟩
    obtain rfl : t = Term.single 1 v := List.mem_singleton.mp ht
    cases quadratic
  constructor
  · intro b
    exact ⟨b.bounds v (by simp [registered]), b.integers v (by simp [registered])⟩
  · rintro ⟨ordered, rounds⟩
    have noRow : ¬(aimed v).HasQuadraticRow := fun ⟨_, hc, _⟩ => nomatch hc
    refine ⟨nofun, ?_, ?_, nofun, ?_, nofun, fun e he => ?_, noRow, ?_⟩
    · rw [lowered]
      rfl
    · rw [lowered]
      rfl
    · simpa [registered] using ordered
    · obtain rfl := Option.some.inj he
      exact linear
    · simpa [registered] using rounds

/-- One end of the range of `n` lies beyond what an engine counts in. -/
def uncounted : Problem Rat := aimed ((Variable.integer "n").between 0 3000000000)

theorem uncounted_unbuilt :
    (∃ a, ((Solver.ofConfig .default).build (aimed rounded)).2.result = .ok a) ∧
      ¬∃ a, ((Solver.ofConfig .default).build uncounted).2.result = .ok a := by
  constructor
  · rw [((aimed_constructible rounded).build_iff _).1]
    refine (aimed_buildable rounded).mpr ⟨⟨by decide +kernel, nofun⟩, fun _ => ?_⟩
    exact ⟨1 / 2, 7 / 2, rfl, rfl, by decide +kernel⟩
  · rw [uncounted, ((aimed_constructible _).build_iff _).1]
    intro built
    obtain ⟨low, high, -, h, -, -, fits⟩ := ((aimed_buildable _).mp built).2 rfl
    obtain rfl := Option.some.inj h
    exact absurd fits (by decide +kernel)

end Problem

end MixedInteger
