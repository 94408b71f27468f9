import MixedInteger.Term

/-!
Expressions are sums of terms, constants and weighted inner expressions, kept nested the way they were
written. `expand` flattens one without merging anything; variables that repeat stay apart.
-/

namespace MixedInteger

structure Expression (α : Type) where
  degree : Degree
  terms : List (Term α)
  constants : List α
  nested : List (α × Expression α)

namespace Expression

variable {α : Type}

def empty (degree : Degree) : Expression α := ⟨degree, [], [], []⟩

instance : Inhabited (Expression α) := ⟨empty .linear⟩

def isFlat (e : Expression α) : Bool := e.nested.isEmpty

mutual

/-- Every variable with repetitions, the ones of a level before those of its inner expressions. -/
def occurrences : Expression α → List (Variable α)
  | ⟨_, terms, _, nested⟩ => terms.flatMap Term.occurrences ++ nestedOccurrences nested

def nestedOccurrences : List (α × Expression α) → List (Variable α)
  | [] => []
  | (_, e) :: rest => e.occurrences ++ nestedOccurrences rest

end

mutual

/-- No term at any level. -/
def hasNoTerms : Expression α → Bool
  | ⟨_, terms, _, nested⟩ => terms.isEmpty && nestedHaveNoTerms nested

def nestedHaveNoTerms : List (α × Expression α) → Bool
  | [] => true
  | (_, e) :: rest => e.hasNoTerms && nestedHaveNoTerms rest

end

mutual

/-- Degree that covers every level. -/
def flatDegree : Expression α → Degree
  | ⟨degree, _, _, nested⟩ => nestedDegree degree nested

/-- The degrees of the inner expressions joined onto the one outside them. -/
def nestedDegree (outer : Degree) : List (α × Expression α) → Degree
  | [] => outer
  | (_, e) :: rest => nestedDegree (outer.join e.flatDegree) rest

end

section Equality

variable [BEq α]

mutual

/-- Equality of structure, nesting included. -/
def agrees : Expression α → Expression α → Bool
  | ⟨d, ts, cs, ns⟩, ⟨d', ts', cs', ns'⟩ => d == d' && ts == ts' && cs == cs' && nestedAgree ns ns'

def nestedAgree : List (α × Expression α) → List (α × Expression α) → Bool
  | [], [] => true
  | (w, e) :: rest, (w', e') :: rest' => w == w' && e.agrees e' && nestedAgree rest rest'
  | _, _ => false

end

instance : BEq (Expression α) := ⟨agrees⟩

end Equality

variable [Scalar α]

mutual

/-- Terms of every level, the inner ones scaled by the weights around them from the inside out. -/
def flatTerms : Expression α → List (Term α)
  | ⟨_, terms, _, nested⟩ => terms ++ nestedTerms nested

def nestedTerms : List (α × Expression α) → List (Term α)
  | [] => []
  | (weight, e) :: rest => e.flatTerms.map (·.scale weight) ++ nestedTerms rest

end

mutual

def flatConstants : Expression α → List α
  | ⟨_, _, constants, nested⟩ => constants ++ nestedConstants nested

def nestedConstants : List (α × Expression α) → List α
  | [] => []
  | (weight, e) :: rest => e.flatConstants.map (· * weight) ++ nestedConstants rest

end

/-- The same sum without inner expressions. -/
def expand (e : Expression α) : Expression α :=
  ⟨e.flatDegree, e.flatTerms, e.flatConstants, []⟩

/-- Sum of the constants of the outer level. -/
def constant (e : Expression α) : α := Scalar.sum e.constants

mutual

def eval (values : Assignment α) : Expression α → α
  | ⟨_, terms, constants, nested⟩ =>
    sumTerms terms values + Scalar.sum constants + Scalar.sum (nestedValues values nested)

def nestedValues (values : Assignment α) : List (α × Expression α) → List α
  | [] => []
  | (weight, e) :: rest => weight * e.eval values :: nestedValues values rest

end

end Expression

end MixedInteger
