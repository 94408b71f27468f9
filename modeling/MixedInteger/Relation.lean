import MixedInteger.Scalar

/-!
Relations between two numbers, up to a tolerance.
-/

namespace MixedInteger

inductive Relation where
  | lt
  | le
  | eq
  | ge
  | gt
  | ne
  deriving DecidableEq

namespace Relation

/-- Canonical relations are the ones a search understands as they are. -/
def isCanonical : Relation → Bool
  | le | eq | ge => true
  | lt | gt | ne => false

/-- The relation that holds exactly when this one does not. -/
def complement : Relation → Relation
  | lt => ge
  | le => gt
  | eq => ne
  | ge => lt
  | gt => le
  | ne => eq

theorem complement_complement (r : Relation) : r.complement.complement = r := by
  cases r <;> rfl

/-- A relation that admits equality forgives a violation up to the tolerance, the others ask for
a separation beyond it. -/
def holds {α : Type} [Scalar α] (r : Relation) (lhs rhs tolerance : α) : Bool :=
  let gap := lhs - rhs
  match r with
  | lt => gap < -tolerance
  | le => gap ≤ tolerance
  | eq => Scalar.abs gap ≤ tolerance
  | ge => -tolerance ≤ gap
  | gt => tolerance < gap
  | ne => tolerance < Scalar.abs gap

def text : Relation → String
  | lt => "<"
  | le => "<="
  | eq => "="
  | ge => ">="
  | gt => ">"
  | ne => "!="

end Relation

end MixedInteger
