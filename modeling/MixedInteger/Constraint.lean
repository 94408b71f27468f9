import MixedInteger.BinaryOr
import MixedInteger.Disjunction
import MixedInteger.Sos1

/-!
Every kind of constraint a problem holds.
-/

namespace MixedInteger

inductive Constraint (α : Type) where
  | comparison (c : Comparison α)
  | sos1 (s : Sos1 α)
  | disjunction (d : Disjunction α)
  | binaryOr (b : BinaryOr α)
  deriving BEq

namespace Constraint

variable {α : Type}

/-- The variables that occur, in order and with repetitions. -/
def occurrences : Constraint α → List (Variable α)
  | comparison c => c.occurrences
  | sos1 s => s.members
  | disjunction d => d.occurrences
  | binaryOr b => b.occurrences

def isSatisfied [Scalar α] (values : Assignment α) (tolerance : α) : Constraint α → Bool
  | comparison c => c.isSatisfied values tolerance
  | sos1 s => s.isSatisfied values tolerance
  | disjunction d => d.isSatisfied values tolerance
  | binaryOr b => b.isSatisfied values tolerance

end Constraint

end MixedInteger
