import Mathlib.Algebra.BigOperators.Group.List.Basic
import Mathlib.Tactic.Ring
import MixedInteger.Proofs.Auxiliaries
import MixedInteger.Proofs.FixedPoint

/-!
How large a lowered problem is. At a price for each row and each auxiliary, every constraint has a cost that is known
beforehand, whatever else is made of it on the way, and passes keep the sum of what is spent and what is still to pay.
-/

namespace MixedInteger

variable {α : Type}

def Relation.isInequality : Relation → Bool
  | .lt | .le | .ge | .gt => true
  | .eq | .ne => false

namespace Disjunction

/-- What an alternative costs with its sets, but for its share in the closing row. -/
def Alternative.cost (row auxiliary : Nat) (a : Alternative α) : Nat :=
  if a.relation = .eq then 10 * row + 6 * auxiliary else 15 * row + 8 * auxiliary

/-- A disequality costs its two sides. -/
theorem alternatives_cost (d : Disjunction α) (row auxiliary : Nat) : (d.alternatives.map (·.cost row auxiliary)).sum =
    (15 * row + 8 * auxiliary) * d.disjuncts.countP (·.relation.isInequality) +
      (10 * row + 6 * auxiliary) * d.disjuncts.countP (·.relation = .eq) +
      (30 * row + 16 * auxiliary) * d.disjuncts.countP (·.relation = .ne) := by
  obtain ⟨disjuncts, margin⟩ := d
  simp only [alternatives]
  induction disjuncts with
  | nil => simp
  | cons c cs ih =>
    rw [List.flatMap_cons, List.map_append, List.sum_append, ih]
    cases hr : c.relation <;> simp [alternativesOf, hr, Alternative.cost, Relation.isInequality] <;> ring

end Disjunction

/-- What a constraint costs until nothing is left of it but rows. -/
def Constraint.cost (row auxiliary : Nat) : Constraint α → Nat
  | comparison c => if c.relation = .ne then 8 * row + 4 * auxiliary else row
  | sos1 s => row * (2 * s.members.length + 1) + auxiliary * s.members.length
  | disjunction d => (d.alternatives.map (·.cost row auxiliary)).sum + row
  | binaryOr b => row * (b.operands.length + 1)

theorem Comparison.costs (cs : List (Comparison α)) (row auxiliary : Nat) :
    ((cs.map Constraint.comparison).map (·.cost row auxiliary)).sum =
      row * cs.countP (·.relation ≠ .ne) + (8 * row + 4 * auxiliary) * cs.countP (·.relation = .ne) := by
  induction cs with
  | nil => simp
  | cons c cs ih =>
    rw [List.map_cons, List.map_cons, List.sum_cons, ih]
    by_cases apart : c.relation = .ne <;> simp [Constraint.cost, apart] <;> ring

/-- Rows that no pass takes out cost a row each. -/
theorem Comparison.costs_canonical {cs : List (Comparison α)} (canonical : ∀ c ∈ cs, c.relation.isCanonical = true)
    (row auxiliary : Nat) : ((cs.map Constraint.comparison).map (·.cost row auxiliary)).sum = row * cs.length := by
  have never : ∀ c ∈ cs, c.relation ≠ .ne := by
    intro c hc excluding
    have := canonical c hc
    rw [excluding] at this
    cases this
  have all : cs.countP (·.relation ≠ .ne) = cs.length := List.countP_eq_length.mpr (by simpa using never)
  have none : cs.countP (·.relation = .ne) = 0 := List.countP_eq_zero.mpr (by simpa using never)
  rw [costs, all, none, Nat.mul_zero, Nat.add_zero]

namespace Problem

/-- What the constraints of a problem cost together. -/
def cost (p : Problem α) (row auxiliary : Nat) : Nat := (p.constraints.map (·.cost row auxiliary)).sum

/-- The cost of a problem, kind by kind. -/
theorem cost_eq (p : Problem α) (row auxiliary : Nat) : p.cost row auxiliary =
    row * p.comparisons.countP (·.relation ≠ .ne) +
      (8 * row + 4 * auxiliary) * p.comparisons.countP (·.relation = .ne) +
      (p.sos1s.map fun s => row * (2 * s.members.length + 1) + auxiliary * s.members.length).sum +
      (p.disjunctions.map fun d =>
        (15 * row + 8 * auxiliary) * d.disjuncts.countP (·.relation.isInequality) +
          (10 * row + 6 * auxiliary) * d.disjuncts.countP (·.relation = .eq) +
          (30 * row + 16 * auxiliary) * d.disjuncts.countP (·.relation = .ne) + row).sum +
      (p.binaryOrs.map fun b => row * (b.operands.length + 1)).sum := by
  simp only [cost, constraints, List.map_append, List.sum_append, Comparison.costs]
  simp only [List.map_map, Function.comp_def, Constraint.cost, Disjunction.alternatives_cost]

theorem constraintCount_eq (p : Problem α) : p.constraintCount = p.constraints.length := by
  simp only [constraintCount, constraints, List.length_append, List.length_map]

theorem insertProduced_count (p : Problem α) (cs : List (Constraint α)) :
    (cs.foldl insertProduced p).constraintCount = p.constraintCount + cs.length := by
  have stored := (p.insertProduced_fold cs).1.length_eq
  rwa [List.length_append, ← constraintCount_eq, ← constraintCount_eq] at stored

end Problem

variable [Scalar α]

/-- The rows of a choice cost what is left of the price of its alternative when its auxiliaries are paid. -/
theorem Disjunction.Choice.rows_cost (k : Choice α) (ordinary : k.alternative.relation ≠ .ne) (d : Disjunction α)
    (bigM : α) (row auxiliary : Nat) :
    ((k.rows d bigM).map (·.cost row auxiliary)).sum + auxiliary * (k.auxiliaries bigM).length =
      k.alternative.cost row auxiliary := by
  by_cases equality : k.alternative.relation = .eq
  · obtain ⟨drawn, made⟩ := Choice.of_equality equality d bigM
    rw [drawn, made]
    simp [equalityRows, Disjunction.row, exclusive, Constraint.cost, Comparison.ofLinear, Sos1.ofMembers,
      Sos1.weighted, Alternative.cost, equality]
    ring
  · obtain ⟨drawn, made⟩ := Choice.of_inequality equality d bigM
    have complement : k.alternative.relation.complement ≠ .ne := by
      cases hr : k.alternative.relation <;> simp_all [Relation.complement]
    rw [drawn, made]
    simp [inequalityRows, Disjunction.row, exclusive, Constraint.cost, Comparison.ofLinear, Sos1.ofMembers,
      Sos1.weighted, Alternative.cost, equality, ordinary, complement]
    ring

theorem Lowering.cost {bigM : α} {c : Constraint α} {vs : List (Variable α)} {rows : List (Constraint α)}
    (h : Lowering bigM c vs rows) (row auxiliary : Nat) :
    (rows.map (·.cost row auxiliary)).sum + auxiliary * vs.length = c.cost row auxiliary := by
  cases h with
  | below strict | above strict => simp [Constraint.cost, strict]
  | apart excluding above below =>
    simp [Comparison.separation, Comparison.derived, Constraint.cost, Sos1.ofMembers, Sos1.weighted, excluding]
    ring
  | sos1 s names positions =>
    have count : (s.rows (names.map .binary)).length = 2 * s.members.length + 1 :=
      s.length_rows (by rw [List.length_map, positions])
    rw [Comparison.costs_canonical s.rows_canonical, count, List.length_map, positions]
    rfl
  | binaryOr b =>
    rw [Comparison.costs_canonical b.lower_canonical]
    simp [BinaryOr.lower, Constraint.cost]
  | disjunction d ks choices =>
    have ordinary : ∀ k ∈ ks, k.alternative.relation ≠ .ne := by
      intro k hk
      have among : k.alternative ∈ d.alternatives := choices ▸ List.mem_map_of_mem hk
      obtain ⟨c, -, ha⟩ := List.mem_flatMap.mp among
      exact Disjunction.alternative_relation ha
    have each : ((ks.flatMap (·.rows d bigM)).map (·.cost row auxiliary)).sum +
        auxiliary * (ks.flatMap (·.auxiliaries bigM)).length =
          (ks.map (·.alternative.cost row auxiliary)).sum := by
      clear choices
      induction ks with
      | nil => simp
      | cons k ks ih =>
        obtain ⟨now, later⟩ := List.forall_mem_cons.mp ordinary
        have first := k.rows_cost now d bigM row auxiliary
        have rest := ih later
        simp only [List.flatMap_cons, List.map_append, List.sum_append, List.length_append, List.map_cons,
          List.sum_cons, Nat.mul_add]
        omega
    have closing : (d.closing ks).cost row auxiliary = row := rfl
    rw [Constraint.cost, ← choices, List.map_map, List.map_append, List.sum_append, List.map_singleton,
      List.sum_singleton, closing]
    simp only [Function.comp_def]
    omega

/-- What rewritings cost is what they took out, less the auxiliaries they drew. -/
theorem Rewriting.costs {bigM : α} (ws : List (Rewriting bigM)) (row auxiliary : Nat) :
    ((ws.flatMap (·.rows)).map (·.cost row auxiliary)).sum + auxiliary * (ws.flatMap (·.auxiliaries)).length =
      ((ws.map (·.source)).map (·.cost row auxiliary)).sum := by
  induction ws with
  | nil => simp
  | cons w ws ih =>
    have first := w.lowers.cost row auxiliary
    simp only [List.flatMap_cons, List.map_append, List.sum_append, List.length_append, List.map_cons, List.sum_cons,
      Nat.mul_add]
    omega

/-- A pass keeps what the constraints cost and the variables are worth together. -/
theorem Passed.cost {p q : Problem α} {pass : Pass} {kept : List (Constraint α)}
    {ws : List (Rewriting p.policy.bigM)} (h : Passed p pass kept ws q) (hp : p.Grounded) (row auxiliary : Nat) :
    q.cost row auxiliary + auxiliary * q.registered.length =
      p.cost row auxiliary + auxiliary * p.registered.length := by
  obtain ⟨news, drawn, entries⟩ := (h.enters hp).entries
  have registered : q.registered.length = p.registered.length + (ws.flatMap (·.auxiliaries)).length := by
    simp only [Problem.registered, Registry.toList, List.length_map, entries, List.length_append, drawn.length_eq]
  have after := (h.after.map (·.cost row auxiliary)).sum_eq
  have before := (h.before.map (·.cost row auxiliary)).sum_eq
  have rewritten := Rewriting.costs ws row auxiliary
  rw [List.map_append, List.sum_append] at after before
  rw [Problem.cost, Problem.cost, after, before, registered, Nat.mul_add]
  omega

namespace Problem

theorem Grounded.after_cost {p : Problem α} (h : p.Grounded) (passes : List Pass) (row auxiliary : Nat) :
    (p.after passes).cost row auxiliary + auxiliary * (p.after passes).registered.length =
      p.cost row auxiliary + auxiliary * p.registered.length := by
  refine (after_keeps (P := fun q => q.Grounded ∧ q.cost row auxiliary + auxiliary * q.registered.length =
    p.cost row auxiliary + auxiliary * p.registered.length) ⟨h, rfl⟩ ?_ passes).2
  rintro q r pass kept ws passed ⟨grounded, same⟩
  exact ⟨passed.grounded grounded, (passed.cost grounded row auxiliary).trans same⟩

/-- Lowered as far as possible, a problem has paid for everything. -/
theorem Grounded.lower_cost {p : Problem α} (h : p.Grounded) (noSets : p.policy.keepsSos1 = false)
    (noLinks : p.policy.keepsBinaryOr = false) (row auxiliary : Nat) :
    row * p.lower.1.comparisons.length + auxiliary * p.lower.1.registered.length =
      p.cost row auxiliary + auxiliary * p.registered.length := by
  obtain ⟨clear, -⟩ := isLowered_iff.mp p.lower_isLowered
  rw [lower_policy] at clear
  have runs (pass : Pass) : pass ∈ p.policy.passes := by
    cases pass <;> simp [LoweringPolicy.passes, noSets, noLinks]
  have disjunctions : p.lower.1.disjunctions = [] := clear_iff.mp (clear .disjunctions (runs _))
  have relations := clear_iff.mp (clear .relations (runs _))
  have binaryOrs : p.lower.1.binaryOrs = [] := clear_iff.mp (clear .binaryOrs (runs _))
  have sos1s : p.lower.1.sos1s = [] := clear_iff.mp (clear .sos1s (runs _))
  have left : p.lower.1.cost row auxiliary = row * p.lower.1.comparisons.length := by
    rw [cost, constraints, disjunctions, binaryOrs, sos1s, List.map_nil, List.map_nil, List.map_nil, List.append_nil,
      List.append_nil, List.append_nil]
    exact Comparison.costs_canonical relations row auxiliary
  have paid := h.after_cost p.policy.passes row auxiliary
  rw [← left, lower_after]
  exact paid

/-- A pass takes out all that is its own. -/
theorem replacement_counts (p : Problem α) (pass : Pass) :
    (p.replacement pass).consumed = p.constraints.countP (·.takenBy = some pass) ∧
      (p.replacement pass).rest.constraintCount + (p.replacement pass).consumed = p.constraintCount := by
  constructor
  · simp only [constraints, List.countP_append, List.countP_map, Function.comp_def, Constraint.takenBy]
    cases pass <;>
      simp [replacement, replaceDisjunctions, replaceRelations, replaceBinaryOrs, replaceSos1s, Function.comp_def,
        List.countP_eq_length_filter]
  · have parts := List.length_eq_length_filter_add (l := p.comparisons) (·.relation.isCanonical)
    cases pass <;>
      simp [replacement, replaceDisjunctions, replaceRelations, replaceBinaryOrs, replaceSos1s, constraintCount,
        Function.comp_def]
    all_goals omega

/-- The report of a pass balances the number of constraints. -/
theorem substitute_balance (p : Problem α) (pass : Pass) : ∃ consumed produced,
    (p.substitute pass).2 = [.passed pass consumed produced] ∧
      consumed = p.constraints.countP (·.takenBy = some pass) ∧ consumed ≤ p.constraintCount ∧
      (p.substitute pass).1.constraintCount = p.constraintCount - consumed + produced := by
  obtain ⟨consumed, balance⟩ := p.replacement_counts pass
  have stored := (p.replacement pass).rest.insertProduced_count (p.replacement pass).produced
  refine ⟨_, _, rfl, consumed, by omega, ?_⟩
  rw [← balance, Nat.add_sub_cancel]
  exact stored

end Problem

/-- How many rows and variables a lowered problem has is told by the constraints that went in. -/
theorem Reachable.lower_size {p : Problem α} (reachable : Reachable p) :
    (p.policy.keepsSos1 = false → p.policy.keepsBinaryOr = false →
      p.lower.1.comparisons.length =
          p.comparisons.countP (·.relation ≠ .ne) + 8 * p.comparisons.countP (·.relation = .ne) +
            (p.sos1s.map fun s => 2 * s.members.length + 1).sum +
            (p.disjunctions.map fun d => 15 * d.disjuncts.countP (·.relation.isInequality) +
              10 * d.disjuncts.countP (·.relation = .eq) + 30 * d.disjuncts.countP (·.relation = .ne) + 1).sum +
            (p.binaryOrs.map fun b => b.operands.length + 1).sum ∧
        p.lower.1.registered.length =
          p.registered.length + (4 * p.comparisons.countP (·.relation = .ne) +
            (p.sos1s.map fun s => s.members.length).sum +
            (p.disjunctions.map fun d => 8 * d.disjuncts.countP (·.relation.isInequality) +
              6 * d.disjuncts.countP (·.relation = .eq) + 16 * d.disjuncts.countP (·.relation = .ne)).sum)) ∧
    ∀ pass, ∃ consumed produced, (p.substitute pass).2 = [.passed pass consumed produced] ∧
      consumed = p.constraints.countP (·.takenBy = some pass) ∧ consumed ≤ p.constraintCount ∧
      (p.substitute pass).1.constraintCount = p.constraintCount - consumed + produced := by
  refine ⟨fun noSets noLinks => ⟨?_, ?_⟩, p.substitute_balance⟩
  · have rows := reachable.grounded.lower_cost noSets noLinks 1 0
    simpa only [Problem.cost_eq, Nat.one_mul, Nat.mul_one, Nat.mul_zero, Nat.zero_mul, Nat.add_zero] using rows
  · have drawn := reachable.grounded.lower_cost noSets noLinks 0 1
    have noRows : (p.binaryOrs.map fun _ => 0).sum = 0 := by simp
    simpa only [Problem.cost_eq, Nat.one_mul, Nat.mul_one, Nat.mul_zero, Nat.zero_mul, Nat.add_zero, Nat.zero_add,
      noRows, Nat.add_comm p.registered.length] using drawn

/-- Constraints of every kind, with a disjunct of every kind. -/
def Constraint.assorted : List (Constraint Rat) :=
  let x : Variable Rat := .real "x"
  let y : Variable Rat := .integer "y"
  let on (v : Variable Rat) (relation : Relation) : Comparison Rat := .ofLinear [.single 1 v] relation 2 (1 / 4)
  [ .comparison (on x .lt), .comparison (on y .ne), .sos1 (.ofMembers [x, y]),
    .disjunction ⟨[on x .ge, on x .eq, on y .ne], 1 / 4⟩, .binaryOr ⟨[.binary "a", .binary "b"], .binary "r"⟩ ]

def Problem.assorted : Problem Rat :=
  { Constraint.assorted.foldl push .empty with
    registry := Registry.empty.insertAll
      [.real "x", .integer "y", .binary "a", .binary "b", .binary "r"] }

theorem Problem.assorted_size :
    Reachable assorted ∧ assorted.lower.1.comparisons.length = 1 + 8 + 5 + (15 + 10 + 30 + 1) + 3 ∧
      assorted.lower.1.registered.length = 5 + (4 + 2 + (8 + 6 + 16)) := by
  have taken : Problem.empty.addAll Constraint.assorted = .ok assorted := rfl
  have reachable : Reachable assorted := .step .start (.posted taken)
  obtain ⟨rows, drawn⟩ := reachable.lower_size.1 rfl rfl
  exact ⟨reachable, rows, drawn⟩

end MixedInteger
