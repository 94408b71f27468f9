import MixedInteger.Comparison

/-!
Disjunctions of linear comparisons: at least one of them holds.
-/

namespace MixedInteger

structure Disjunction (α : Type) where
  disjuncts : List (Comparison α)
  /-- Separation used by every row that lowering makes, whatever the disjuncts carry. -/
  margin : α
  deriving BEq

namespace Disjunction

variable {α : Type}

def occurrences (d : Disjunction α) : List (Variable α) := d.disjuncts.flatMap Comparison.occurrences

variable [Scalar α]

def empty : Disjunction α := ⟨[], defaultMargin⟩

def isSatisfied (d : Disjunction α) (values : Assignment α) (tolerance : α) : Bool :=
  d.disjuncts.any (·.isSatisfied values tolerance)

end Disjunction

end MixedInteger
