import MixedInteger.Proofs.FixedPoint

/-!
Lowering in two stages. Sets that were kept for an engine can be lowered later: the passes that run a second time find
nothing and draw no name, so the problem becomes what it would have become at once.
-/

namespace MixedInteger

variable {α : Type}

theorem Expression.expand_expand [Scalar α] (e : Expression α) : e.expand.expand = e.expand :=
  expand_flat rfl

namespace Problem

/-- The same constraints over the same variables, under another objective and policy. -/
def restate (p : Problem α) (objective : Option (Expression α)) (policy : LoweringPolicy α) : Problem α :=
  { p with objective, policy }

variable {objective : Option (Expression α)} {policy : LoweringPolicy α}

theorem restate_insertProduced (p : Problem α) (c : Constraint α) :
    (p.restate objective policy).insertProduced c = (p.insertProduced c).restate objective policy := by
  cases c <;> rfl

theorem restate_insertAllProduced (p : Problem α) (cs : List (Constraint α)) :
    cs.foldl insertProduced (p.restate objective policy) = (cs.foldl insertProduced p).restate objective policy :=
  List.foldl_hom (restate · objective policy) fun p c => restate_insertProduced p c

variable [Scalar α] {p : Problem α}

/-- Of objective and policy a pass reads the bound alone. -/
theorem restate_replacement (bound : policy.bigM = p.policy.bigM) (pass : Pass) :
    (p.restate objective policy).replacement pass =
      { p.replacement pass with rest := (p.replacement pass).rest.restate objective policy } := by
  cases pass with
  | disjunctions =>
    simp only [replacement, replaceDisjunctions, restate, bound]
    rfl
  | relations =>
    simp only [replacement, replaceRelations, restate, bound]
    rfl
  | binaryOrs | sos1s => rfl

theorem restate_substitute (bound : policy.bigM = p.policy.bigM) (pass : Pass) :
    ((p.restate objective policy).substitute pass).1 = (p.substitute pass).1.restate objective policy := by
  simp only [substitute, restate_replacement bound, restate_insertAllProduced]
  rfl

theorem restate_after (bound : policy.bigM = p.policy.bigM) (passes : List Pass) :
    (p.restate objective policy).after passes = (p.after passes).restate objective policy := by
  induction passes generalizing p with
  | nil => rfl
  | cons pass passes ih =>
    have kept : (p.substitute pass).1.policy = p.policy := (p.after_frame [pass]).2.2
    calc ((p.restate objective policy).substitute pass).1.after passes
        = ((p.substitute pass).1.restate objective policy).after passes := by rw [restate_substitute bound]
      _ = ((p.substitute pass).1.after passes).restate objective policy := ih (bound.trans (by rw [kept]))

/-- Lowering under another policy of the same bound: its passes, and then the rest restated. -/
theorem lower_configure (bound : policy.bigM = p.policy.bigM) : (p.configure policy).lower.1 =
    (p.after policy.passes).restate (p.objective.map Expression.expand) policy := by
  have dressed : (p.configure policy).after policy.passes = (p.after policy.passes).restate p.objective policy :=
    restate_after bound policy.passes
  rw [lower_after]
  exact congrArg expandObjective dressed

/-- The passes of a policy that ran leave nothing to be done by running again. -/
theorem lower_again (p : Problem α) : p.lower.1.after p.policy.passes = p.lower.1 := by
  have clear := (isLowered_iff.mp p.lower_isLowered).1
  rw [lower_policy] at clear
  rw [after_clear clear, lower_flags, LoweringPolicy.passes_mark, ← lower_flags]

/-- Lowering with sets kept, and once more without keeping them, is lowering without keeping them. Constraints come in
the same order under the same names, and the next auxiliary gets the same number. -/
theorem lower_deferred (p : Problem α) (policy : LoweringPolicy α) :
    ((p.configure { policy with keepsSos1 := true }).lower.1.configure { policy with keepsSos1 := false }).lower.1 =
      (p.configure { policy with keepsSos1 := false }).lower.1 := by
  let kept : LoweringPolicy α := { policy with keepsSos1 := true }
  let plain : LoweringPolicy α := { policy with keepsSos1 := false }
  let flat := p.objective.map Expression.expand
  have passes : plain.passes = kept.passes ++ [.sos1s] := by
    simp [LoweringPolicy.passes, plain, kept]
  have first : (p.configure kept).lower.1 = ((p.configure plain).after kept.passes).restate flat kept :=
    lower_configure (p := p.configure plain) rfl
  have expanded : flat.map Expression.expand = flat := by
    rw [Option.map_map]
    exact congrArg (p.objective.map ·) (funext Expression.expand_expand)
  have bound : kept.bigM = ((p.configure plain).after kept.passes).policy.bigM := by
    rw [((p.configure plain).after_frame kept.passes).2.2]
    rfl
  have again : (p.configure kept).lower.1.after kept.passes = (p.configure kept).lower.1 :=
    (p.configure kept).lower_again
  -- Of the second stage only the pass over sets does anything.
  have second : (p.configure kept).lower.1.after plain.passes =
      ((p.configure plain).after plain.passes).restate flat kept := by
    rw [passes, after_append, after_append, again, first]
    exact restate_after bound [.sos1s]
  have rebound : plain.bigM = (p.configure kept).lower.1.policy.bigM := by
    rw [lower_policy]
    rfl
  calc ((p.configure kept).lower.1.configure plain).lower.1
      = ((p.configure kept).lower.1.after plain.passes).restate (flat.map Expression.expand) plain := by
        rw [lower_configure rebound, first]
        rfl
    _ = ((p.configure plain).after plain.passes).restate flat plain := by
        rw [second, expanded]
        rfl
    _ = (p.configure plain).lower.1 := (lower_configure (p := p.configure plain) rfl).symm

end Problem
end MixedInteger
