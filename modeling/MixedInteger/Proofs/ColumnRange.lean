import MixedInteger.Expression.Arithmetic
import MixedInteger.Proofs.AssembledModel

/-!
The values that a model leaves to a column, beside the bounds in use of its variable. Integer and real columns
have exactly these values. A binary column has both bits whatever the bounds are, so it is wider than its
variable once the bounds fix it.
-/

namespace MixedInteger

namespace Variable

/-- The values between the bounds in use, integers only unless the variable is real. -/
structure InRange (v : Variable Rat) (x : Rat) : Prop where
  lower : v.lower.value ≤ x
  upper : x ≤ v.upper.value
  integral : v.isIntegral = true → ∃ n : Int, x = n

theorem checkBound_ok {α : Type} [Scalar α] {v : Variable α} {bound : α} :
    v.checkBound bound = .ok () ↔ (v.domain = .binary → 0 ≤ bound ∧ bound ≤ 1) := by
  unfold checkBound
  split
  · rename_i refused
    simp only [throw_ne_ok, false_iff]
    exact fun unit => refused.2 (unit refused.1)
  · rename_i accepted
    simp only [pure_eq_ok, true_iff]
    exact fun binary => not_not.mp fun outside => accepted ⟨binary, outside⟩

/-- The bounds are not reversed, and those of a binary variable are inside the unit. -/
structure Ordered {α : Type} [Scalar α] (v : Variable α) : Prop where
  ordered : ¬v.upper.value < v.lower.value
  unit : v.domain = .binary →
    (0 ≤ v.lower.value ∧ v.lower.value ≤ 1) ∧ 0 ≤ v.upper.value ∧ v.upper.value ≤ 1

theorem checkBounds_iff {α : Type} [Scalar α] {v : Variable α} : v.checkBounds = .ok () ↔ v.Ordered := by
  unfold checkBounds checkInterval
  by_cases reversed : v.upper.value < v.lower.value
  · simp only [reversed, ↓reduceIte]
    exact iff_of_false nofun fun h => h.ordered reversed
  · simp only [reversed, ↓reduceIte]
    change (v.checkBound v.lower.value >>= fun _ => v.checkBound v.upper.value) = .ok () ↔ _
    rw [bind_eq_ok]
    constructor
    · rintro ⟨_, low, high⟩
      exact ⟨reversed, fun binary => ⟨checkBound_ok.mp low binary, checkBound_ok.mp high binary⟩⟩
    · intro h
      exact ⟨(), checkBound_ok.mpr fun binary => (h.unit binary).1, checkBound_ok.mpr fun binary => (h.unit binary).2⟩

/-- Bounds that pass the check are in order, and those of a binary variable are inside the unit. -/
theorem checkBounds_ok {v : Variable Rat} (h : v.checkBounds = .ok ()) :
    v.lower.value ≤ v.upper.value ∧ (v.domain = .binary → 0 ≤ v.lower.value ∧ v.upper.value ≤ 1) := by
  have passed := checkBounds_iff.mp h
  exact ⟨not_lt.mp passed.ordered, fun binary => ⟨(passed.unit binary).1.1, (passed.unit binary).2.2⟩⟩

theorem isIntegral_iff {v : Variable Rat} : v.isIntegral = true ↔ v.domain ≠ .real := by
  simp [isIntegral]

theorem takes_iff_inRange {v : Variable Rat} (wide : v.domain ≠ .binary) (x : Rat) :
    v.Takes x ↔ v.InRange x := by
  unfold Takes
  cases hd : v.domain with
  | binary => exact absurd hd wide
  | integer =>
    constructor
    · rintro ⟨integral, lower, upper⟩
      exact ⟨lower, upper, fun _ => integral⟩
    · rintro ⟨lower, upper, integral⟩
      exact ⟨integral (isIntegral_iff.mpr (by simp [hd])), lower, upper⟩
  | real =>
    constructor
    · rintro ⟨lower, upper⟩
      exact ⟨lower, upper, fun integral => absurd hd (isIntegral_iff.mp integral)⟩
    · rintro ⟨lower, upper, -⟩
      exact ⟨lower, upper⟩

/-- A model loses no value in range. -/
theorem InRange.takes {v : Variable Rat} {x : Rat} (h : v.InRange x) (checked : v.checkBounds = .ok ()) :
    v.Takes x := by
  by_cases binary : v.domain = .binary
  · obtain ⟨low, high⟩ := (checkBounds_ok checked).2 binary
    -- Between bounds inside the unit there are no integers but the bits.
    obtain ⟨n, rfl⟩ := h.integral (isIntegral_iff.mpr (by simp [binary]))
    have nonneg : 0 ≤ n := Int.cast_nonneg_iff.mp (low.trans h.lower)
    have small : n ≤ 1 := by exact_mod_cast h.upper.trans high
    rw [Takes, binary]
    obtain rfl | rfl : n = 0 ∨ n = 1 := by omega
    · exact .inl Int.cast_zero
    · exact .inr Int.cast_one
  · exact (takes_iff_inRange binary x).mpr h

/-- Of a binary variable both bits are in range only between the bounds that it starts with. -/
theorem takes_inRange_iff {v : Variable Rat} (checked : v.checkBounds = .ok ()) :
    (∀ x, v.Takes x ↔ v.InRange x) ↔
      (v.domain = .binary → v.lower.value = 0 ∧ v.upper.value = 1) := by
  constructor
  · intro same binary
    obtain ⟨low, high⟩ := (checkBounds_ok checked).2 binary
    have bit {x : Rat} (h : IsBit x) : v.InRange x := (same x).mp (by rwa [Takes, binary])
    exact ⟨le_antisymm (bit (.inl rfl)).lower low, le_antisymm high (bit (.inr rfl)).upper⟩
  · intro free x
    refine ⟨fun takes => ?_, fun range => range.takes checked⟩
    by_cases binary : v.domain = .binary
    · obtain ⟨low, high⟩ := free binary
      rw [Takes, binary] at takes
      rcases takes with rfl | rfl
      · exact ⟨low.le, high ▸ zero_le_one, fun _ => ⟨0, Int.cast_zero.symm⟩⟩
      · exact ⟨low ▸ zero_le_one, high.ge, fun _ => ⟨1, Int.cast_one.symm⟩⟩
    · exact (takes_iff_inRange binary x).mp takes

end Variable

/-- A column stands for what an engine lets its variable be. -/
theorem Assembled.ofProblem_columns {p : Problem Rat} {a : Assembled Rat} (h : ofProblem p = .ok a) :
    List.Forall₂ (fun v column => ∀ x, column.domain.Contains x ↔ v.Takes x) p.registered
      a.model.columns := by
  obtain ⟨costs, domains, rows, parts, rfl⟩ := ofProblem_ok h
  have read := parts.domains.imp fun v domain hv => ColumnDomain.ofVariable_ok hv
  rw [← domains_of_columns costs domains, List.forall₂_map_right_iff] at read
  exact read

/-- A model has a column for each variable of the lowered problem. No value in range is lost, and none is added
exactly when a binary variable has the bounds zero and one. -/
theorem Reachable.columns_inRange {p : Problem Rat} (reachable : Reachable p) {config : SolverConfig Rat}
    {a : Assembled Rat} (assembled : (Assembly.ofProblem config p).result = .ok a) :
    a.names = (Assembly.ofProblem config p).problem.registered.map (·.name) ∧
      List.Forall₂ (fun v column =>
          (∀ x, v.InRange x → column.domain.Contains x) ∧
            ((∀ x, column.domain.Contains x ↔ v.InRange x) ↔
              (v.domain = .binary → v.lower.value = 0 ∧ v.upper.value = 1)))
        (Assembly.ofProblem config p).problem.registered a.model.columns := by
  obtain ⟨ready, model⟩ := Assembly.ofProblem_ok assembled
  have grounded := ((reachable.step (.built p config)).grounded).registry
  refine ⟨?_, ?_⟩
  · rw [(Assembled.ofProblem_faithful grounded model).names, Problem.names_registered grounded]
  · have columns := (List.forall₂_and_left _ _).mpr ⟨ready.bounds, Assembled.ofProblem_columns model⟩
    refine columns.imp fun v column ⟨checked, contains⟩ => ?_
    refine ⟨fun x range => (contains x).mpr (range.takes checked), ?_⟩
    simp only [contains]
    exact Variable.takes_inRange_iff checked

namespace Problem

/-- A variable alone as the objective. -/
def aimed (v : Variable Rat) : Problem Rat :=
  { Problem.empty with
    objective := some (.ofTerm (.single 1 v))
    registry := Registry.empty.insert v }

theorem aimed_reachable (v : Variable Rat) : Reachable (aimed v) := by
  have stated : (Problem.empty : Problem Rat).setObjective (.ofTerm (.single 1 v)) .minimise =
      .ok (aimed v, _) := rfl
  exact .step .start (.objective stated)

/-- Integers between bounds that are none. -/
def rounded : Variable Rat := (Variable.integer "n").between (1 / 2) (7 / 2)

theorem rounded_inRange :
    (Assembly.ofProblem .default (aimed rounded)).result =
        .ok ⟨⟨.minimise, [⟨1, .integer 1 3⟩], []⟩, ["n"], 0⟩ ∧
      ∀ x, (ColumnDomain.integer 1 3).Contains x ↔ rounded.InRange x := by
  have assembled : (Assembly.ofProblem .default (aimed rounded)).result =
      .ok ⟨⟨.minimise, [⟨1, .integer 1 3⟩], []⟩, ["n"], 0⟩ := by with_unfolding_all rfl
  have registered : (Assembly.ofProblem .default (aimed rounded)).problem.registered = [rounded] := by
    with_unfolding_all rfl
  obtain ⟨-, columns⟩ := (aimed_reachable rounded).columns_inRange assembled
  rw [registered] at columns
  cases columns with
  | cons column _ => exact ⟨assembled, column.2.mpr fun binary => nomatch binary⟩

/-- A binary variable fixed at one after it was registered. -/
def fixed : Problem Rat :=
  { aimed (.binary "b") with
    registry := (Registry.empty.insert (.binary "b")).replace "b" ((Variable.binary "b").between 1 1) }

theorem fixed_wider :
    ¬∀ (p : Problem Rat) (config : SolverConfig Rat) (a : Assembled Rat), Reachable p →
      (Assembly.ofProblem config p).result = .ok a →
      List.Forall₂ (fun v column => ∀ x, column.domain.Contains x ↔ v.InRange x)
        (Assembly.ofProblem config p).problem.registered a.model.columns := by
  intro claim
  have changed : (aimed (.binary "b")).changeBounds? "b" (.both 1 1) = some (.ok fixed) := rfl
  have reachable : Reachable fixed := .step (aimed_reachable (.binary "b")) (.boundsChanged changed)
  have assembled : (Assembly.ofProblem .default fixed).result =
      .ok ⟨⟨.minimise, [⟨1, .binary⟩], []⟩, ["b"], 0⟩ := rfl
  cases claim fixed .default _ reachable assembled with
  | cons column _ =>
    have zero : (1 : Rat) ≤ 0 := ((column 0).mp (.inl rfl)).lower
    exact absurd zero (by decide)

end Problem
end MixedInteger
