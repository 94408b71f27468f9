import MixedInteger.Variable

/-!
Weighted products of one or two variables.
-/

namespace MixedInteger

/-- The degree an expression may reach. -/
inductive Degree where
  | linear
  | quadratic
  deriving DecidableEq

namespace Degree

def join : Degree → Degree → Degree
  | linear, linear => linear
  | _, _ => quadratic

def text : Degree → String
  | linear => "linear"
  | quadratic => "quadratic"

end Degree

inductive Monomial (α : Type) where
  | single (v : Variable α)
  | product (v w : Variable α)
  deriving BEq

namespace Monomial

variable {α : Type}

def degree : Monomial α → Degree
  | single _ => .linear
  | product _ _ => .quadratic

/-- A square lists its variable twice. -/
def occurrences : Monomial α → List (Variable α)
  | single v => [v]
  | product v w => [v, w]

end Monomial

structure Term (α : Type) where
  weight : α
  monomial : Monomial α
  deriving BEq

namespace Term

variable {α : Type}

def single (weight : α) (v : Variable α) : Term α := ⟨weight, .single v⟩

def product (weight : α) (v w : Variable α) : Term α := ⟨weight, .product v w⟩

def degree (t : Term α) : Degree := t.monomial.degree

def occurrences (t : Term α) : List (Variable α) := t.monomial.occurrences

variable [Scalar α]

def scale (t : Term α) (factor : α) : Term α := { t with weight := t.weight * factor }

def neg (t : Term α) : Term α := t.scale (-1)

/-- The weight is multiplied by the first variable and then by the second. -/
def eval (t : Term α) (values : Assignment α) : α :=
  match t.monomial with
  | .single v => t.weight * values v.name
  | .product v w => t.weight * values v.name * values w.name

end Term

/-- Value of a list of terms as a sum. -/
def sumTerms {α : Type} [Scalar α] (terms : List (Term α)) (values : Assignment α) : α :=
  Scalar.sum (terms.map (·.eval values))

end MixedInteger
