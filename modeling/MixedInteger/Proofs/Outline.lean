import MixedInteger.Proofs.Reachable
import MixedInteger.Proofs.Staging

/-!
Outlines: a problem as far as passes and later definitions read it. Bounds and values of variables in use, the
objective, the sense and the flags are no part of it, and what is done to a problem is done to its outline.
-/

namespace MixedInteger

variable {α : Type}

namespace Registry

/-- Every variable in use as it was declared. -/
def asDeclared (r : Registry α) : Registry α := ⟨r.entries.map fun e => ⟨e.declared, e.declared⟩⟩

variable {r : Registry α}

theorem asDeclared_asDeclared : r.asDeclared.asDeclared = r.asDeclared := r.recast_recast _ _

theorem names_asDeclared : r.asDeclared.names = r.names := r.names_recast _

theorem declarations_asDeclared : r.asDeclared.declarations = r.declarations := r.declarations_recast _

theorem asDeclared_mapCurrent (f : Variable α → Variable α) : (r.mapCurrent f).asDeclared = r.asDeclared :=
  r.recast_recast _ _

theorem asDeclared_replace (name : String) (v : Variable α) : (r.replace name v).asDeclared = r.asDeclared := by
  rw [replace_eq_recast]
  exact r.recast_recast _ _

theorem asDeclared_insertAll (vs : List (Variable α)) :
    (r.insertAll vs).asDeclared = r.asDeclared.insertAll vs :=
  (recast_insertAll fun _ _ _ => rfl).symm

end Registry

namespace Problem

def outline (p : Problem α) : Problem α :=
  { p with objective := none, sense := .minimise, registry := p.registry.asDeclared, flags := .none }

theorem outline_outline (p : Problem α) : p.outline.outline = p.outline := by
  simp only [outline, Registry.asDeclared_asDeclared]

theorem outline_declarations (p : Problem α) : p.outline.registry.declarations = p.registry.declarations :=
  Registry.declarations_asDeclared

/-- Problems of one outline have the same first definitions. -/
theorem declarations_of_outline {p q : Problem α} (same : p.outline = q.outline) :
    p.registry.declarations = q.registry.declarations := by
  rw [← outline_declarations, same, outline_declarations]

theorem outline_push (p : Problem α) (c : Constraint α) : (p.push c).outline = p.outline.push c := by
  cases c <;> rfl

theorem outline_pushAll (p : Problem α) (cs : List (Constraint α)) :
    (cs.foldl push p).outline = cs.foldl push p.outline :=
  (List.foldl_hom outline fun p c => (outline_push p c).symm).symm

theorem outline_insertProduced (p : Problem α) (c : Constraint α) :
    (p.insertProduced c).outline = p.outline.insertProduced c := by
  rw [insertProduced, outline_push]
  simp only [insertProduced, outline, Registry.asDeclared_insertAll]

theorem outline_insertAllProduced (p : Problem α) (cs : List (Constraint α)) :
    (cs.foldl insertProduced p).outline = cs.foldl insertProduced p.outline :=
  (List.foldl_hom outline fun p c => (outline_insertProduced p c).symm).symm

variable [Scalar α]

/-- A pass reads the outline, and the names are in it. -/
theorem outline_replacement (p : Problem α) (pass : Pass) : p.outline.replacement pass =
    { p.replacement pass with rest := (p.replacement pass).rest.outline } := by
  have drawn {β : Type} (names : Naming β) : p.outline.draw names = p.draw names := by
    simp only [draw, outline, Registry.names_asDeclared]
  cases pass
  · simp only [replacement, replaceDisjunctions, drawn]
    rfl
  · simp only [replacement, replaceRelations, drawn]
    rfl
  · rfl
  · simp only [replacement, replaceSos1s, drawn]
    rfl

theorem outline_substitute (p : Problem α) (pass : Pass) :
    (p.substitute pass).1.outline = (p.outline.substitute pass).1.outline := by
  have flagless (q : Problem α) (flags : PassFlags) : { q with flags }.outline = q.outline := rfl
  simp only [substitute, flagless, outline_replacement, outline_insertAllProduced, outline_outline]

theorem outline_after (p : Problem α) (passes : List Pass) :
    (p.after passes).outline = (p.outline.after passes).outline := by
  induction passes generalizing p with
  | nil => exact (outline_outline p).symm
  | cons pass passes ih =>
    calc ((p.substitute pass).1.after passes).outline
        = ((p.substitute pass).1.outline.after passes).outline := ih _
      _ = ((p.outline.substitute pass).1.after passes).outline := by rw [outline_substitute, ← ih]

theorem outline_lower (p : Problem α) : p.lower.1.outline = p.outline.lower.1.outline := by
  rw [lower_after, lower_after]
  exact outline_after p p.policy.passes

theorem outline_applyGlobalBounds {p q : Problem α} {low high : α} (ok : p.applyGlobalBounds low high = .ok q) :
    q.outline = p.outline := by
  rw [applyGlobalBounds_ok ok, outline, Registry.asDeclared_mapCurrent]
  rfl

theorem outline_setValue {p q : Problem α} {name : String} {x : α} (ok : p.setValue name x = .ok q) :
    q.outline = p.outline := by
  obtain ⟨v, -, rfl⟩ := setValue_ok ok
  simp only [outline, Registry.asDeclared_replace]

theorem outline_changeBounds {p q : Problem α} {name : String} {change : Variable.BoundChange α}
    (ok : p.changeBounds? name change = some (.ok q)) : q.outline = p.outline := by
  obtain ⟨v, w, -, -, -, rfl⟩ := changeBounds?_ok ok
  simp only [outline, Registry.asDeclared_replace]

theorem outline_setValues (p : Problem α) (values : Assignment α) : (p.setValues values).outline = p.outline := by
  simp only [outline, setValues, Registry.asDeclared_mapCurrent]

theorem outline_assembly (config : SolverConfig α) (p : Problem α) :
    (Assembly.ofProblem config p).problem.outline = p.lower.1.outline := by
  rcases assembly_problem config p with left | ⟨low, high, bounded⟩
  · rw [left]
  · exact outline_applyGlobalBounds bounded

/-- What passes put in the place of what they take out, one pass after the other. -/
def produced (p : Problem α) : List Pass → List (Constraint α)
  | [] => []
  | pass :: passes => (p.replacement pass).produced ++ (p.substitute pass).1.produced passes

/-- Passes register the variables of what they produce. -/
theorem after_registry (p : Problem α) (passes : List Pass) : (p.after passes).registry =
    p.registry.insertAll ((p.produced passes).flatMap Constraint.occurrences) := by
  induction passes generalizing p with
  | nil => rfl
  | cons pass passes ih =>
    have one : (p.substitute pass).1.registry =
        p.registry.insertAll ((p.replacement pass).produced.flatMap Constraint.occurrences) := by
      have kept : (p.replacement pass).rest.registry = p.registry := by
        cases pass <;> rfl
      have inserted := ((p.replacement pass).rest.insertProduced_fold (p.replacement pass).produced).2.1
      exact inserted.trans (by rw [kept])
    rw [produced, List.flatMap_append, Registry.insertAll, List.foldl_append]
    exact (ih _).trans (by rw [one]; rfl)

end Problem

end MixedInteger
