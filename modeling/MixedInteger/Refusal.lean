import MixedInteger.Constraint

/-!
Why an operation on a model is refused. A refusal carries what its message names; whoever refuses leaves
everything as it was.
-/

namespace MixedInteger

/-- The stable classes of refusals, for programs that react to them. -/
inductive RefusalCode where
  | shape
  | argument
  | unsupported
  deriving DecidableEq

namespace RefusalCode

def text : RefusalCode → String
  | shape => "SHAPE_INVALID"
  | argument => "ARGUMENT_INVALID"
  | unsupported => "UNSUPPORTED"

end RefusalCode

inductive Refusal (α : Type) where
  /-- A quadratic term for an expression that is to stay linear. -/
  | quadraticTerm (e : Expression α)
  /-- A quadratic inner expression for an expression that is to stay linear. -/
  | quadraticNested (e : Expression α)
  /-- A linear comparison stated over an expanded left-hand side with a quadratic term. -/
  | quadraticStated (lhs : Expression α) (relation : Relation) (rhs : α) (term : Term α)
  /-- A quadratic term for a linear comparison. -/
  | quadraticAdded (term : Term α) (c : Comparison α)
  | quadraticDisjunct (c : Comparison α)
  | boundsReversed (name : String) (lower upper : α)
  | boundOutsideUnit (name : String) (bound : α)
  | domainRedefined (declared later : Variable α)
  | boundsRedefined (declared later : Variable α)
  | emptyLhs (c : Comparison α)
  | noMembers
  | weightCount (s : Sos1 α)
  | noDisjuncts
  | noOperand (b : BinaryOr α)
  | notBinary (b : BinaryOr α) (v : Variable α)
  | noObjective
  | globalBoundsReversed (lower upper : α)
  | unknownVariable (name : String)
  | foreignVariable (name : String)
  /-- A set or a logical link left for an engine that takes rows only. -/
  | nativeLeft
  | termNotLinear (t : Term α)
  | relationLeft (c : Comparison α)
  | integerRange (v : Variable α)
  /-- A refusal of the caller's own, in its words. -/
  | stated (code : RefusalCode) (words : String)

namespace Refusal

variable {α : Type}

def code : Refusal α → RefusalCode
  | quadraticTerm _ | quadraticNested _ | quadraticStated .. | quadraticAdded .. | quadraticDisjunct _ => .shape
  | nativeLeft | termNotLinear _ | relationLeft _ | integerRange _ => .unsupported
  | stated code _ => code
  | _ => .argument

end Refusal

end MixedInteger
