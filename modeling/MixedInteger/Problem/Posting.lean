import MixedInteger.Constraint.Statement
import MixedInteger.Event

/-!
Changes to a problem from outside. Every check comes before the first change.
-/

namespace MixedInteger.Problem

variable {α : Type}

def removeComparison (p : Problem α) (i : Nat) : Option (Comparison α) × Problem α :=
  (p.comparisons[i]?, { p with comparisons := p.comparisons.eraseIdx i })

def removeSos1 (p : Problem α) (i : Nat) : Option (Sos1 α) × Problem α :=
  (p.sos1s[i]?, { p with sos1s := p.sos1s.eraseIdx i })

def removeDisjunction (p : Problem α) (i : Nat) : Option (Disjunction α) × Problem α :=
  (p.disjunctions[i]?, { p with disjunctions := p.disjunctions.eraseIdx i })

def removeBinaryOr (p : Problem α) (i : Nat) : Option (BinaryOr α) × Problem α :=
  (p.binaryOrs[i]?, { p with binaryOrs := p.binaryOrs.eraseIdx i })

variable [Scalar α]

def setObjective (p : Problem α) (objective : Expression α) (sense : Sense) :
    Except (Refusal α) (Problem α × List (Event α)) := do
  let staged ← p.registry.stage objective.occurrences
  return ({ p with objective := some objective, sense, registry := p.registry.insertAll staged },
    if objective.hasNoTerms then [.constantObjective] else [])

/-- Takes all the constraints or none of them. What the passes achieved no longer counts. -/
def addAll (p : Problem α) (cs : List (Constraint α)) : Except (Refusal α) (Problem α) := do
  cs.forM Constraint.validate
  let staged ← p.registry.stage (cs.flatMap Constraint.occurrences)
  let p := { p with registry := p.registry.insertAll staged, flags := .none }
  return cs.foldl push p

def add (p : Problem α) (c : Constraint α) : Except (Refusal α) (Problem α) := p.addAll [c]

/-- An engine needs an objective, and bounds in order. -/
def validate (p : Problem α) : Except (Refusal α) Unit := do
  if p.objective.isNone then throw .noObjective
  p.registered.forM Variable.checkBounds

/-- Bounds for every integer and real variable whose bounds nobody chose. -/
def applyGlobalBounds (p : Problem α) (low high : α) : Except (Refusal α) (Problem α) :=
  if high < low then throw (.globalBoundsReversed low high)
  else pure { p with registry := p.registry.mapCurrent (·.overrideBounds low high) }

def setValues (p : Problem α) (values : Assignment α) : Problem α :=
  { p with registry := p.registry.mapCurrent fun v => v.store (values v.name) }

def setValue (p : Problem α) (name : String) (value : α) : Except (Refusal α) (Problem α) :=
  match p.lookup name with
  | none => throw (.unknownVariable name)
  | some v => pure { p with registry := p.registry.replace name (v.store value) }

/-- Changes the bounds of a variable in use, none for a name that is not registered. -/
def changeBounds? (p : Problem α) (name : String) (change : Variable.BoundChange α) :
    Option (Except (Refusal α) (Problem α)) :=
  (p.lookup name).map fun v => do
    let changed ← v.changeBounds change
    return { p with registry := p.registry.replace name changed }

end MixedInteger.Problem
