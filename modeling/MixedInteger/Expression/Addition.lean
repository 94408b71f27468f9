import MixedInteger.Refusal

/-!
Checked additions to an expression. A linear expression takes nothing quadratic.
-/

namespace MixedInteger

/-- A quadratic part does not fit into a linear whole. -/
def Degree.admits : (whole part : Degree) → Bool
  | .linear, .quadratic => false
  | _, _ => true

namespace Expression

variable {α : Type}

def addTerm (e : Expression α) (t : Term α) : Except (Refusal α) (Expression α) :=
  if e.degree.admits t.degree then pure { e with terms := e.terms ++ [t] }
  else throw (.quadraticTerm e)

/-- A linear term fits into every expression. -/
def addLinear (e : Expression α) (v : Variable α) (weight : α) : Expression α :=
  { e with terms := e.terms ++ [.single weight v] }

def addQuadratic (e : Expression α) (v w : Variable α) (weight : α) :
    Except (Refusal α) (Expression α) :=
  e.addTerm (.product weight v w)

def addConstant (e : Expression α) (c : α) : Expression α :=
  { e with constants := e.constants ++ [c] }

def addNested (e inner : Expression α) (weight : α) : Except (Refusal α) (Expression α) :=
  if e.degree.admits inner.degree then pure { e with nested := e.nested ++ [(weight, inner)] }
  else throw (.quadraticNested e)

end Expression

end MixedInteger
