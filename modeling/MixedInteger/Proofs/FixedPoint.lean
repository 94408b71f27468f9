import MixedInteger.Proofs.Convergence

/-!
Lowered problems are where lowering rests. A pass that finds nothing of its own leaves everything but its flag, and
a lowered problem has nothing for the passes that its policy runs.
-/

namespace MixedInteger

variable {α : Type}

/-- Passes that ran set no further flag when they run again. -/
theorem LoweringPolicy.passes_mark (policy : LoweringPolicy α) (flags : PassFlags) :
    policy.passes.foldl .mark (policy.passes.foldl .mark flags) = policy.passes.foldl .mark flags := by
  obtain ⟨bigM, keepsSos1, keepsBinaryOr⟩ := policy
  cases keepsSos1 <;> cases keepsBinaryOr <;> rfl

namespace Problem

theorem insertProduced_flags (p : Problem α) (cs : List (Constraint α)) :
    (cs.foldl insertProduced p).flags = p.flags := by
  induction cs generalizing p with
  | nil => rfl
  | cons c cs ih =>
    rw [List.foldl_cons, ih]
    cases c <;> rfl

/-- What is left to no pass of the policy, nor to expansion. -/
theorem isLowered_iff {p : Problem α} : p.isLowered = true ↔
    (∀ pass ∈ p.policy.passes, p.Clear pass) ∧ ∀ e ∈ p.objective, e.isFlat = true := by
  have optional (keeps : Bool) (pass : Pass) :
      (∀ q ∈ if keeps then [] else [pass], p.Clear q) ↔ keeps = true ∨ p.Clear pass := by
    cases keeps <;> simp
  rw [LoweringPolicy.passes, List.forall_mem_append, List.forall_mem_append, optional, optional]
  simp only [isLowered, Bool.and_eq_true, Bool.or_eq_true, List.isEmpty_iff, List.all_eq_true,
    Option.all_eq_true, List.forall_mem_cons, List.not_mem_nil, IsEmpty.forall_iff, implies_true, clear_iff,
    Option.mem_def]
  tauto

end Problem

variable [Scalar α]

theorem Expression.expand_flat {e : Expression α} (flat : e.isFlat = true) : e.expand = e := by
  obtain ⟨degree, terms, constants, nested⟩ := e
  obtain rfl : nested = [] := List.isEmpty_iff.mp flat
  simp only [expand, flatDegree, nestedDegree, flatTerms, nestedTerms, flatConstants, nestedConstants,
    List.append_nil]

namespace Problem

variable {p : Problem α}

theorem substitute_flags (p : Problem α) (pass : Pass) :
    (p.substitute pass).1.flags = p.flags.mark pass := by
  have kept : (p.replacement pass).rest.flags = p.flags := by
    cases pass <;> rfl
  simp only [substitute, insertProduced_flags, kept]

theorem after_flags (p : Problem α) (passes : List Pass) :
    (p.after passes).flags = passes.foldl .mark p.flags := by
  induction passes generalizing p with
  | nil => rfl
  | cons pass passes ih => exact (ih _).trans (by rw [substitute_flags, List.foldl_cons])

/-- A pass without constraints of its own draws no name and replaces nothing. -/
theorem Clear.replacement {pass : Pass} (h : p.Clear pass) : p.replacement pass = ⟨p, 0, []⟩ := by
  rw [clear_iff] at h
  obtain ⟨objective, sense, comparisons, sos1s, disjunctions, binaryOrs, registry, policy, next, flags⟩ := p
  cases pass with
  | disjunctions =>
    obtain rfl : disjunctions = [] := h
    rfl
  | relations =>
    have kept : comparisons.filter (·.relation.isCanonical) = comparisons := List.filter_eq_self.mpr h
    have others : comparisons.filter (!·.relation.isCanonical) = [] := by
      simpa [List.filter_eq_nil_iff] using h
    simp only [replacement_relations, kept, others]
    rfl
  | binaryOrs =>
    obtain rfl : binaryOrs = [] := h
    rfl
  | sos1s =>
    obtain rfl : sos1s = [] := h
    rfl

theorem Clear.substitute_eq {pass : Pass} (h : p.Clear pass) :
    p.substitute pass = ({ p with flags := p.flags.mark pass }, [.passed pass 0 0]) := by
  simp only [Problem.substitute, h.replacement, List.foldl_nil, List.length_nil]

theorem after_clear {passes : List Pass} (clear : ∀ pass ∈ passes, p.Clear pass) :
    p.after passes = { p with flags := passes.foldl .mark p.flags } := by
  induction passes generalizing p with
  | nil => rfl
  | cons pass passes ih =>
    obtain ⟨now, later⟩ := List.forall_mem_cons.mp clear
    have first : (p.substitute pass).1 = { p with flags := p.flags.mark pass } :=
      congrArg Prod.fst now.substitute_eq
    change (p.substitute pass).1.after passes = _
    rw [first]
    exact ih (p := { p with flags := p.flags.mark pass }) later

theorem expandObjective_flat (flat : ∀ e ∈ p.objective, e.isFlat = true) : p.expandObjective = p := by
  have same : p.objective.map Expression.expand = p.objective := by
    cases h : p.objective with
    | none => rfl
    | some e => exact congrArg some (Expression.expand_flat (flat e h))
  simp only [expandObjective, same]

theorem lower_flags (p : Problem α) : p.lower.1.flags = p.policy.passes.foldl .mark p.flags := by
  rw [lower_after]
  exact p.after_flags p.policy.passes

theorem lower_policy (p : Problem α) : p.lower.1.policy = p.policy := by
  rw [lower_after]
  exact (p.after_frame p.policy.passes).2.2

theorem lower_of_isLowered (h : p.isLowered = true) :
    p.lower.1 = { p with flags := p.policy.passes.foldl .mark p.flags } := by
  obtain ⟨clear, flat⟩ := isLowered_iff.mp h
  rw [lower_after, after_clear clear]
  exact expandObjective_flat flat

/-- On a lowered problem lowering sets the flags of its passes and touches nothing else: no constraint moves, no name
is drawn and no number is used up. So lowering a second time gives what the first time gave, flags included. -/
theorem lower_fixed (p : Problem α) :
    (p.isLowered = true → p.lower.1 = { p with flags := p.policy.passes.foldl .mark p.flags }) ∧
      p.lower.1.lower.1 = p.lower.1 := by
  refine ⟨lower_of_isLowered, ?_⟩
  calc p.lower.1.lower.1
      = { p.lower.1 with flags := p.lower.1.policy.passes.foldl .mark p.lower.1.flags } :=
        lower_of_isLowered p.lower_isLowered
    _ = { p.lower.1 with flags := p.lower.1.flags } := by
        rw [lower_policy, lower_flags, LoweringPolicy.passes_mark]
    _ = p.lower.1 := rfl

/-- A row over a slack, and the set of that slack kept for an engine. -/
def resting : Problem Rat :=
  { ((withPolicy ⟨100, true, false⟩).push (.sos1 (.ofMembers [.real "psi#0", .real "psi_prime#1"]))).push
      (.comparison (.ofLinear [.single 1 (.real "x"), .single 1 (.real "psi#0")] .ge 6 (1 / 4))) with
    objective := some (.ofVariable (.real "x"))
    registry := ((Registry.empty.insert (.real "x")).insert (.real "psi#0")).insert (.real "psi_prime#1")
    nextAuxiliary := 2 }

theorem resting_fixed :
    resting.isLowered = true ∧ resting.lower.1 = { resting with flags := ⟨true, true, true, false⟩ } :=
  ⟨rfl, resting.lower_fixed.1 rfl⟩

end Problem
end MixedInteger
