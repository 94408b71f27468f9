import MixedInteger.Refusal

/-!
Checked changes of bounds. Bounds of a binary variable stay inside `[0, 1]`.
-/

namespace MixedInteger.Variable

variable {α : Type} [Scalar α]

def checkBound (v : Variable α) (bound : α) : Except (Refusal α) Unit :=
  if v.domain = .binary ∧ ¬(0 ≤ bound ∧ bound ≤ 1) then throw (.boundOutsideUnit v.name bound)
  else pure ()

/-- An interval must not be reversed, and both its ends must fit the domain. -/
def checkInterval (v : Variable α) (low high : α) : Except (Refusal α) Unit := do
  if high < low then throw (.boundsReversed v.name low high)
  v.checkBound low
  v.checkBound high

def checkBounds (v : Variable α) : Except (Refusal α) Unit :=
  v.checkInterval v.lower.value v.upper.value

def setLower (v : Variable α) (bound : α) : Except (Refusal α) (Variable α) := do
  v.checkBound bound
  return v.atLeast bound

def setUpper (v : Variable α) (bound : α) : Except (Refusal α) (Variable α) := do
  v.checkBound bound
  return v.atMost bound

def setBounds (v : Variable α) (low high : α) : Except (Refusal α) (Variable α) := do
  v.checkInterval low high
  return v.between low high

/-- The changes of bounds open to a variable that is in use. -/
inductive BoundChange (α : Type) where
  | lower (bound : α)
  | upper (bound : α)
  | both (low high : α)

def changeBounds (v : Variable α) : BoundChange α → Except (Refusal α) (Variable α)
  | .lower bound => v.setLower bound
  | .upper bound => v.setUpper bound
  | .both low high => v.setBounds low high

/-- Checks a later declaration of the same name against the first one. -/
def checkRedefinition (declared later : Variable α) : Except (Refusal α) Unit :=
  if declared.domain ≠ later.domain then throw (.domainRedefined declared later)
  else if declared.lower.accepts later.lower && declared.upper.accepts later.upper then pure ()
  else throw (.boundsRedefined declared later)

end MixedInteger.Variable
