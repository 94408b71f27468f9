import MixedInteger.Expression.Addition

/-!
Checked statement of comparisons, and what a constraint needs before a problem takes it.
-/

namespace MixedInteger

namespace Comparison

variable {α : Type}

def addTerm (c : Comparison α) (t : Term α) : Except (Refusal α) (Comparison α) :=
  if c.degree.admits t.degree then pure { c with lhs := c.lhs ++ [t] }
  else throw (.quadraticAdded t c)

def validate (c : Comparison α) : Except (Refusal α) Unit :=
  if c.lhs.isEmpty then throw (.emptyLhs c) else pure ()

variable [Scalar α]

/-- The comparison that holds linear terms only. What counts are the terms found in the expression, not
the degree that it declares. -/
def linear (lhs : Expression α) (relation : Relation) (rhs : α) :
    Except (Refusal α) (Comparison α) :=
  let flat := lhs.expand
  match flat.terms.find? (·.degree == .quadratic) with
  | some term => throw (.quadraticStated flat relation rhs term)
  | none => pure (ofFlat .linear flat relation rhs)

end Comparison

namespace Sos1

variable {α : Type}

def validate (s : Sos1 α) : Except (Refusal α) Unit :=
  if s.members.isEmpty then throw .noMembers
  else if s.members.length ≠ s.weights.length then throw (.weightCount s)
  else pure ()

end Sos1

namespace Disjunction

variable {α : Type}

/-- The rows that stand for a disjunct are stated as linear ones. -/
def push (d : Disjunction α) (c : Comparison α) : Except (Refusal α) (Disjunction α) :=
  if c.degree = .linear then pure { d with disjuncts := d.disjuncts ++ [c] }
  else throw (.quadraticDisjunct c)

def validate (d : Disjunction α) : Except (Refusal α) Unit :=
  if d.disjuncts.isEmpty then throw .noDisjuncts else d.disjuncts.forM Comparison.validate

def ofDisjuncts [Scalar α] (cs : List (Comparison α)) : Except (Refusal α) (Disjunction α) :=
  cs.foldlM push empty

end Disjunction

namespace BinaryOr

variable {α : Type}

def validate (b : BinaryOr α) : Except (Refusal α) Unit :=
  if b.operands.isEmpty then throw (.noOperand b)
  else match b.occurrences.find? (·.domain != .binary) with
    | some v => throw (.notBinary b v)
    | none => pure ()

end BinaryOr

namespace Constraint

variable {α : Type}

def validate : Constraint α → Except (Refusal α) Unit
  | comparison c => c.validate
  | sos1 s => s.validate
  | disjunction d => d.validate
  | binaryOr b => b.validate

end Constraint

end MixedInteger
