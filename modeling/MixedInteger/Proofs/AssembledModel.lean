import Mathlib.Algebra.BigOperators.Group.List.Basic
import MixedInteger.Proofs.Expansion
import MixedInteger.Proofs.RowShape
import MixedInteger.Proofs.Soundness
import MixedInteger.Solver.Session

/-!
The model that is handed to an engine says what the lowered problem says: its points are the values of the
registered variables, its rows are the comparisons, and its costs are the objective without the constant.
-/

namespace MixedInteger

def ColumnDomain.Contains (x : Rat) : ColumnDomain Rat → Prop
  | binary => IsBit x
  | integer low high => (∃ n : Int, x = n) ∧ (low : Rat) ≤ x ∧ x ≤ high
  | real low high => low ≤ x ∧ x ≤ high

/-- The weighted sum of the columns of a point. -/
def Row.total (coefficients : List (Nat × Rat)) (x : Nat → Rat) : Rat :=
  (coefficients.map fun (j, w) => w * x j).sum

namespace Model

/-- A point lists a value for each column. -/
structure Feasible (m : Model Rat) (xs : List Rat) : Prop where
  columns : List.Forall₂ ColumnDomain.Contains xs (m.columns.map (·.domain))
  rows : ∀ r ∈ m.rows, r.relation.holds (Row.total r.coefficients (xs.getD · 0)) r.rhs 0 = true

def costAt (m : Model Rat) (xs : List Rat) : Rat :=
  (m.columns.zipIdx.map fun (c, j) => c.cost * xs.getD j 0).sum

end Model

/-- The first cost is preferred to the second one. -/
def Sense.Better : Sense → Rat → Rat → Prop
  | maximise, x, y => y < x
  | minimise, x, y => x < y

/-- What an exact search promises of its answer. One that fails promises nothing. -/
def Answer.Truthful (m : Model Rat) : Answer Rat → Prop
  | optimal cost xs => m.Feasible xs ∧ m.costAt xs = cost ∧
      ∀ ys, m.Feasible ys → ¬m.sense.Better (m.costAt ys) cost
  | infeasible => ∀ xs, ¬m.Feasible xs
  | unbounded => ∀ cost, ∃ xs, m.Feasible xs ∧ m.sense.Better (m.costAt xs) cost
  | failed _ => True

namespace Row

variable {names : List String} {values : Assignment Rat} {x : Nat → Rat}

@[simp] theorem total_nil : total [] x = 0 := rfl

@[simp] theorem total_cons (j : Nat) (w : Rat) (rest : List (Nat × Rat)) :
    total ((j, w) :: rest) x = w * x j + total rest x := by
  simp [total]

theorem total_accumulate (coefficients : List (Nat × Rat)) (column : Nat) (weight : Rat) :
    total (accumulate coefficients column weight) x = total coefficients x + weight * x column := by
  induction coefficients with
  | nil => simp [accumulate]
  | cons k rest ih =>
    obtain ⟨j, w⟩ := k
    by_cases same : j = column
    · subst same
      simp only [accumulate, ↓reduceIte, total_cons]
      ring
    · simp only [accumulate, same, ↓reduceIte, total_cons, ih]
      ring

theorem keys_accumulate {α : Type} [Scalar α] (coefficients : List (Nat × α)) (column : Nat) (weight : α) :
    (accumulate coefficients column weight).map (·.1) =
      if column ∈ coefficients.map (·.1) then coefficients.map (·.1)
      else coefficients.map (·.1) ++ [column] := by
  induction coefficients with
  | nil => simp [accumulate]
  | cons k rest ih =>
    obtain ⟨j, w⟩ := k
    by_cases same : j = column
    · simp [accumulate, same]
    · have other : ¬column = j := fun h => same h.symm
      simp only [accumulate, same, ↓reduceIte, List.map_cons, ih, List.mem_cons, other, false_or]
      split <;> simp

/-- Consolidated coefficients: one for each column that occurs. -/
structure Consolidated (names : List String) (coefficients : List (Nat × Rat)) : Prop where
  distinct : (coefficients.map (·.1)).Nodup
  within : ∀ j ∈ coefficients.map (·.1), j < names.length

theorem addTerm_ok {coefficients next : List (Nat × Rat)} {t : Term Rat}
    (h : addTerm names coefficients t = .ok next) :
    ∃ v column, t = .single t.weight v ∧ names[column]? = some v.name ∧
      next = accumulate coefficients column t.weight := by
  obtain ⟨weight, monomial⟩ := t
  cases monomial with
  | product v w => simp [addTerm] at h
  | single v =>
    simp only [addTerm] at h
    split at h
    · simp at h
    · rename_i column found
      obtain ⟨bound, named, -⟩ := List.idxOf?_eq_some_iff.mp found
      exact ⟨v, column, rfl, List.getElem?_eq_some_iff.mpr ⟨bound, named⟩, (Except.ok.inj h).symm⟩

theorem addTerm_consolidated {coefficients next : List (Nat × Rat)} {t : Term Rat}
    (h : addTerm names coefficients t = .ok next) (consolidated : Consolidated names coefficients) :
    Consolidated names next := by
  obtain ⟨v, column, -, found, rfl⟩ := addTerm_ok h
  have bound : column < names.length := (List.getElem?_eq_some_iff.mp found).1
  constructor
  · rw [keys_accumulate]
    split
    · exact consolidated.distinct
    · rename_i new
      refine List.nodup_append.mpr ⟨consolidated.distinct, List.nodup_singleton _, ?_⟩
      rintro j hj k hk rfl
      exact new (List.mem_singleton.mp hk ▸ hj)
  · intro j hj
    rw [keys_accumulate] at hj
    split at hj
    · exact consolidated.within j hj
    · rcases List.mem_append.mp hj with hj | hj
      · exact consolidated.within j hj
      · exact List.mem_singleton.mp hj ▸ bound

/-- Where the columns hold the values of their names, a consolidated sum is the sum of its terms. -/
theorem consolidate_ok {terms : List (Term Rat)} {coefficients : List (Nat × Rat)}
    (h : consolidate names terms = .ok coefficients) : Consolidated names coefficients ∧
      ∀ (values : Assignment Rat) (x : Nat → Rat),
        (∀ (j : Nat) (name : String), names[j]? = some name → x j = values name) →
        total coefficients x = sumTerms terms values := by
  apply foldlM_ok h
  · exact ⟨⟨List.nodup_nil, by simp⟩, fun _ _ _ => rfl⟩
  · rintro seen coefficients t next ⟨consolidated, sums⟩ ht
    refine ⟨addTerm_consolidated ht consolidated, fun values x hx => ?_⟩
    obtain ⟨v, column, single, found, rfl⟩ := addTerm_ok ht
    rw [total_accumulate, sums values x hx, hx column v.name found, sumTerms_append, sumTerms_cons, single,
      Term.eval_single]
    simp [Term.single]

end Row

/-- An engine's integers inside the rounded bounds are the integers inside the bounds. -/
theorem ColumnDomain.ofVariable_ok {v : Variable Rat} {domain : ColumnDomain Rat}
    (h : ofVariable v = .ok domain) (x : Rat) : domain.Contains x ↔ v.Takes x := by
  unfold Variable.Takes
  unfold ofVariable at h
  cases hd : v.domain with
  | binary =>
    simp only [hd, pure_eq_ok] at h
    subst h
    exact Iff.rfl
  | real =>
    simp only [hd, pure_eq_ok] at h
    subst h
    exact Iff.rfl
  | integer =>
    simp only [hd, Scalar.toRat?, Option.map_some] at h
    split at h
    · cases h
      simp only [Contains]
      constructor
      · rintro ⟨⟨n, rfl⟩, low, high⟩
        rw [Int.cast_le] at low high
        exact ⟨⟨n, rfl⟩, Rat.ceil_le_iff.mp low, Rat.le_floor_iff.mp high⟩
      · rintro ⟨⟨n, rfl⟩, low, high⟩
        rw [Int.cast_le, Int.cast_le]
        exact ⟨⟨n, rfl⟩, Rat.ceil_le_iff.mpr low, Rat.le_floor_iff.mpr high⟩
    · simp at h

namespace Assembled

/-- The cost of a column counts its coefficient once. -/
theorem costOf_cons (j : Nat) (w : Rat) (rest : List (Nat × Rat)) (column : Nat) :
    costOf ((j, w) :: rest) column = if j = column then w else costOf rest column := by
  by_cases same : j = column <;> simp [costOf, same]

theorem costOf_absent {coefficients : List (Nat × Rat)} {column : Nat}
    (h : column ∉ coefficients.map (·.1)) : costOf coefficients column = 0 := by
  induction coefficients with
  | nil => rfl
  | cons k rest ih =>
    obtain ⟨j, w⟩ := k
    rw [List.map_cons, List.mem_cons, not_or] at h
    rw [costOf_cons, if_neg (Ne.symm h.1)]
    exact ih h.2

/-- Summed over all columns, the costs are the consolidated sum. -/
theorem sum_costOf {coefficients : List (Nat × Rat)} {n : Nat} (x : Nat → Rat)
    (distinct : (coefficients.map (·.1)).Nodup) (within : ∀ j ∈ coefficients.map (·.1), j < n) :
    ((List.range n).map fun j => costOf coefficients j * x j).sum = Row.total coefficients x := by
  induction coefficients with
  | nil => simp [costOf]
  | cons k rest ih =>
    obtain ⟨j, w⟩ := k
    rw [List.map_cons] at distinct within
    obtain ⟨absent, distinct⟩ := List.nodup_cons.mp distinct
    have others := ih distinct fun i hi => within i (List.mem_cons_of_mem _ hi)
    have one : ∀ i, costOf ((j, w) :: rest) i * x i =
        (if i = j then w * x j else 0) + costOf rest i * x i := by
      intro i
      rw [costOf_cons]
      by_cases same : i = j
      · subst same
        simp [costOf_absent absent]
      · simp [same, Ne.symm same]
    have single : ((List.range n).map fun i => if i = j then w * x j else 0).sum = w * x j := by
      have once := List.count_eq_one_of_mem List.nodup_range
        (List.mem_range.mpr (within j List.mem_cons_self))
      rw [List.sum_map_eq_nsmul_single j _ fun i other _ => if_neg other, once, one_nsmul, if_pos rfl]
    rw [List.map_congr_left fun i _ => one i, List.sum_map_add, single, others, Row.total_cons]

theorem domains_of_columns (costs : List (Nat × Rat)) (domains : List (ColumnDomain Rat)) :
    (domains.zipIdx.map fun (domain, j) => (⟨costOf costs j, domain⟩ : Column Rat)).map (·.domain) =
      domains := by
  rw [List.map_map]
  exact List.zipIdx_map_fst 0 domains

theorem costs_of_columns (costs : List (Nat × Rat)) (domains : List (ColumnDomain Rat)) (x : Nat → Rat)
    (start : Nat) :
    (((domains.zipIdx start).map fun (domain, j) =>
        (⟨costOf costs j, domain⟩ : Column Rat)).zipIdx start).map (fun (c, j) => c.cost * x j) =
      (List.range' start domains.length).map fun j => costOf costs j * x j := by
  induction domains generalizing start with
  | nil => rfl
  | cons domain domains ih =>
    simp only [List.zipIdx_cons, List.map_cons, List.length_cons, List.range'_succ, ih]

end Assembled

namespace Row

variable {names : List String} {c : Comparison Rat} {r : Row Rat}

theorem ofComparison_parts (h : ofComparison names c = .ok r) :
    consolidate names c.lhs = .ok r.coefficients ∧ r.relation = c.relation ∧ r.rhs = c.rhs := by
  unfold ofComparison at h
  by_cases canonical : c.relation.isCanonical
  · simp only [canonical, ↓reduceIte, bind_eq_ok, pure_eq_ok] at h
    obtain ⟨coefficients, hc, rfl⟩ := h
    exact ⟨hc, rfl, rfl⟩
  · simp [canonical] at h

/-- A point given by values satisfies a row exactly when the values satisfy its comparison. -/
theorem ofComparison_ok (h : ofComparison names c = .ok r) {values : Assignment Rat} {x : Nat → Rat}
    (hx : ∀ (j : Nat) (name : String), names[j]? = some name → x j = values name) :
    r.relation.holds (total r.coefficients x) r.rhs 0 = c.isSatisfied values 0 := by
  obtain ⟨coefficients, relation, rhs⟩ := ofComparison_parts h
  rw [(consolidate_ok coefficients).2 values x hx, relation, rhs]
  rfl

end Row

/-- A point lists the values under the names of its columns. -/
theorem Assembled.point_reads {names : List String} (values : Assignment Rat) (j : Nat) (name : String)
    (hj : names[j]? = some name) : (names.map values).getD j 0 = values name := by
  rw [List.getD_eq_getElem?_getD, List.getElem?_map, hj]
  rfl

/-- What a model and its problem have in common. Points are read by the names of the columns. -/
structure Assembled.Faithful (p : Problem Rat) (a : Assembled Rat) : Prop where
  names : a.names = p.registry.names
  sense : a.model.sense = p.sense
  feasible : ∀ values, a.model.Feasible (a.names.map values) ↔
    (∀ c ∈ p.comparisons, c.isSatisfied values 0 = true) ∧
      ∀ v ∈ p.registered, v.Takes (values v.name)
  cost : ∀ values, a.model.costAt (a.names.map values) =
    sumTerms (p.objective.getD (.empty .linear)).terms values
  constant : a.objectiveConstant = (p.objective.getD (.empty .linear)).constant
  points : ∀ xs, a.model.Feasible xs → ∃ values, xs = a.names.map values

/-- The columns that a point fits are those of the variables that take its values. -/
theorem ColumnDomain.contains_iff {vs : List (Variable Rat)} {domains : List (ColumnDomain Rat)}
    (h : List.Forall₂ (fun v domain => ofVariable v = .ok domain) vs domains) (values : Assignment Rat) :
    List.Forall₂ Contains (vs.map fun v => values v.name) domains ↔
      ∀ v ∈ vs, v.Takes (values v.name) := by
  induction h with
  | nil => simp
  | cons hv _ ih => rw [List.map_cons, List.forall₂_cons, ih, ofVariable_ok hv, List.forall_mem_cons]

theorem Row.holds_iff {names : List String} {cs : List (Comparison Rat)} {rows : List (Row Rat)}
    (h : List.Forall₂ (fun c r => ofComparison names c = .ok r) cs rows) {values : Assignment Rat}
    {x : Nat → Rat} (hx : ∀ (j : Nat) (name : String), names[j]? = some name → x j = values name) :
    (∀ r ∈ rows, r.relation.holds (total r.coefficients x) r.rhs 0 = true) ↔
      ∀ c ∈ cs, c.isSatisfied values 0 = true := by
  induction h with
  | nil => simp
  | cons hr _ ih => rw [List.forall_mem_cons, List.forall_mem_cons, ih, ofComparison_ok hr hx]

namespace Assembled

/-- What a model is made of, when it is made at all. -/
structure Parts (p : Problem Rat) (costs : List (Nat × Rat)) (domains : List (ColumnDomain Rat))
    (rows : List (Row Rat)) : Prop where
  costs : Row.consolidate p.registry.names (p.objective.getD (.empty .linear)).terms = .ok costs
  domains : List.Forall₂ (fun v domain => ColumnDomain.ofVariable v = .ok domain) p.registered domains
  rows : List.Forall₂ (fun c r => Row.ofComparison p.registry.names c = .ok r) p.comparisons rows

theorem ofProblem_ok {p : Problem Rat} {a : Assembled Rat} (h : ofProblem p = .ok a) :
    ∃ costs domains rows, Parts p costs domains rows ∧
      a = ⟨⟨p.sense, domains.zipIdx.map fun (domain, j) => ⟨costOf costs j, domain⟩, rows⟩,
        p.registry.names, (p.objective.getD (.empty .linear)).constant⟩ := by
  unfold ofProblem at h
  simp only [bind_eq_ok, pure_eq_ok] at h
  obtain ⟨costs, hcosts, domains, hdomains, rows, hrows, rfl⟩ := h
  exact ⟨costs, domains, rows, ⟨hcosts, mapM_ok hdomains, mapM_ok hrows⟩, rfl⟩

theorem ofProblem_faithful {p : Problem Rat} (consistent : p.registry.Consistent) {a : Assembled Rat}
    (h : ofProblem p = .ok a) : a.Faithful p := by
  obtain ⟨costs, domains, rows, parts, rfl⟩ := ofProblem_ok h
  have named := p.names_registered consistent
  have size : domains.length = p.registry.names.length := by
    rw [named, List.length_map, parts.domains.length_eq]
  obtain ⟨consolidated, sums⟩ := Row.consolidate_ok parts.costs
  have domains_eq := domains_of_columns costs domains
  refine ⟨rfl, rfl, ?_, ?_, rfl, ?_⟩
  · intro values
    have points : p.registry.names.map values = p.registered.map fun v => values v.name := by
      rw [named, List.map_map]
      rfl
    have columns := ColumnDomain.contains_iff parts.domains values
    have comparisons := Row.holds_iff parts.rows (point_reads values)
    constructor
    · rintro ⟨fits, holds⟩
      rw [domains_eq, points] at fits
      exact ⟨comparisons.mp holds, columns.mp fits⟩
    · rintro ⟨satisfied, takes⟩
      refine ⟨?_, comparisons.mpr satisfied⟩
      rw [domains_eq, points]
      exact columns.mpr takes
  · intro values
    rw [← sums values _ (point_reads values)]
    refine (congrArg List.sum (costs_of_columns costs domains
      (fun j => (p.registry.names.map values).getD j 0) 0)).trans ?_
    rw [← List.range_eq_range']
    apply sum_costOf _ consolidated.distinct
    intro j hj
    rw [size]
    exact consolidated.within j hj
  · -- A point is read by name as soon as the names of its columns differ.
    intro xs point
    have length : xs.length = p.registry.names.length := by
      rw [point.columns.length_eq, domains_eq, size]
    refine ⟨fun name => xs.getD (p.registry.names.idxOf name) 0, ?_⟩
    apply List.ext_getElem (by simp [length])
    intro j hj hj'
    rw [List.getElem_map, consistent.distinct.idxOf_getElem]
    simp [List.getD_eq_getElem?_getD, hj]

end Assembled

/-- What a problem is before a model is made of it: nothing is left that only some engines know, there is an
objective, and no bounds are refused. -/
structure Problem.Ready {α : Type} [Scalar α] (p : Problem α) : Prop where
  sos1s : p.sos1s = []
  binaryOrs : p.binaryOrs = []
  objective : p.objective ≠ none
  bounds : ∀ v ∈ p.registered, v.checkBounds = .ok ()

namespace Assembly

variable {α : Type} [Scalar α]

theorem checkReady_ok {p : Problem α} (h : checkReady p = .ok ()) : p.Ready := by
  unfold checkReady at h
  by_cases native : p.sos1s.isEmpty && p.binaryOrs.isEmpty
  · cases ho : p.objective with
    | none => simp [native, Problem.validate, ho] at h
    | some e =>
      have checked : p.registered.forM Variable.checkBounds = .ok () := by
        simpa [native, Problem.validate, ho] using h
      rw [Bool.and_eq_true, List.isEmpty_iff, List.isEmpty_iff] at native
      exact ⟨native.1, native.2, by simp [ho], forM_ok.mp checked⟩
  · simp [native] at h

/-- A model comes of a problem that was ready, and of nothing but that problem. -/
theorem ofProblem_ok {config : SolverConfig α} {p : Problem α} {a : Assembled α}
    (h : (ofProblem config p).result = .ok a) :
    (ofProblem config p).problem.Ready ∧ Assembled.ofProblem (ofProblem config p).problem = .ok a := by
  unfold ofProblem at h ⊢
  cases hb : applyBounds config p.lower.1 with
  | error r => simp [hb] at h
  | ok q =>
    cases hc : checkReady q with
    | error r => simp [hb, hc] at h
    | ok u =>
      simp only [hb, hc] at h ⊢
      unfold ofReady at h ⊢
      split at h
      · simp at h
      · dsimp only at h ⊢
        cases ha : Assembled.ofProblem q with
        | error r => simp [ha] at h
        | ok b =>
          simp only [ha, Except.ok.injEq] at h
          subst h
          simp only [ha]
          exact ⟨checkReady_ok hc, trivial⟩

end Assembly
end MixedInteger
