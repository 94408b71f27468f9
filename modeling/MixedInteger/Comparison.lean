import MixedInteger.Expression
import MixedInteger.Relation

/-!
Comparisons of a flat sum of terms with a number.
-/

namespace MixedInteger

/-- Separation that stands for strictness unless a constraint names its own. -/
def defaultMargin {α : Type} [Scalar α] : α := Scalar.ofRat (1 / 10000)

/-- Reach given to switched rows unless a constraint names its own. -/
def defaultBigM {α : Type} [Scalar α] : α := Scalar.ofRat 100000

structure Comparison (α : Type) where
  degree : Degree
  lhs : List (Term α)
  relation : Relation
  rhs : α
  /-- Separation that stands for strictness when the comparison is lowered. -/
  margin : α
  label : Option String
  deriving BEq

namespace Comparison

variable {α : Type}

/-- An unnamed comparison of linear terms. -/
def ofLinear (lhs : List (Term α)) (relation : Relation) (rhs margin : α) : Comparison α :=
  ⟨.linear, lhs, relation, rhs, margin, none⟩

def occurrences (c : Comparison α) : List (Variable α) := c.lhs.flatMap Term.occurrences

variable [Scalar α]

def evalLhs (c : Comparison α) (values : Assignment α) : α := sumTerms c.lhs values

def isSatisfied (c : Comparison α) (values : Assignment α) (tolerance : α) : Bool :=
  c.relation.holds (c.evalLhs values) c.rhs tolerance

/-- Constants of a flat left-hand side move to the right. -/
def ofFlat (degree : Degree) (lhs : Expression α) (relation : Relation) (rhs : α) : Comparison α :=
  ⟨degree, lhs.terms, relation, rhs - lhs.constant, defaultMargin, none⟩

/-- The comparison that may hold terms of either degree. -/
def quadratic (lhs : Expression α) (relation : Relation) (rhs : α) : Comparison α :=
  ofFlat .quadratic lhs.expand relation rhs

end Comparison

end MixedInteger
