import MixedInteger.Comparison

/-!
Logical links between binary variables: one is the disjunction of others.
-/

namespace MixedInteger

structure BinaryOr (α : Type) where
  operands : List (Variable α)
  /-- One exactly when an operand is. -/
  result : Variable α
  deriving BEq

namespace BinaryOr

variable {α : Type}

/-- The operands and then the result. -/
def occurrences (b : BinaryOr α) : List (Variable α) := b.operands ++ [b.result]

variable [Scalar α]

/-- Values between which a binary variable counts as zero or one. -/
def half : α := Scalar.ofRat (1 / 2)

def isSatisfied (b : BinaryOr α) (values : Assignment α) (tolerance : α) : Bool :=
  let expected := if b.operands.any (fun v => half < values v.name) then 1 else 0
  Scalar.abs (values b.result.name - expected) ≤ tolerance

end BinaryOr

end MixedInteger
