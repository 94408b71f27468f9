import MixedInteger.Comparison

/-!
Special ordered sets of type one: at most one position of the list is away from zero.
-/

namespace MixedInteger

structure Sos1 (α : Type) where
  members : List (Variable α)
  /-- Order of the members for engines that branch on the set. They are no coefficients. -/
  weights : List α
  /-- Reach of the members, used when the set is lowered. -/
  bound : α
  margin : α
  deriving BEq

namespace Sos1

variable {α : Type} [Scalar α]

def weighted (members : List (Variable α)) (weights : List α) : Sos1 α :=
  ⟨members, weights, defaultBigM, defaultMargin⟩

/-- Members weighted one, two, three and so on. -/
def ofMembers (members : List (Variable α)) : Sos1 α :=
  weighted members ((List.range members.length).map fun i => Scalar.ofRat (i + 1 : Nat))

/-- Some neighbours are equal. -/
def hasEqualNeighbours : List α → Bool
  | x :: y :: rest => x == y || hasEqualNeighbours (y :: rest)
  | _ => false

/-- Equal weights leave the order open. Sorting brings them together. -/
def hasDuplicateWeights (s : Sos1 α) : Bool :=
  hasEqualNeighbours (s.weights.mergeSort Scalar.precedes)

def isSatisfied (s : Sos1 α) (values : Assignment α) (tolerance : α) : Bool :=
  s.members.countP (fun v => tolerance < Scalar.abs (values v.name)) ≤ 1

end Sos1

end MixedInteger
