import MixedInteger.Expression.Addition

/-!
Checked additions as they are carried out, on the expression itself. A refusal takes nothing back, so an addition
that is to leave no trace must check the degree first.
-/

namespace MixedInteger

/-- What can be added to an expression. -/
inductive Addition (α : Type) where
  | term (t : Term α)
  | linear (v : Variable α) (weight : α)
  | quadratic (v w : Variable α) (weight : α)
  | constant (c : α)
  | nested (inner : Expression α) (weight : α)

/-- Work on an expression in place. -/
abbrev Draft (α : Type) := ExceptT (Refusal α) (StateM (Expression α))

namespace Draft

variable {α β : Type}

/-- What the work answers, and the expression it leaves. -/
def on (draft : Draft α β) (e : Expression α) : Except (Refusal α) β × Expression α := draft.run.run e

def checkDegree (part : Degree) (refusal : Expression α → Refusal α) : Draft α Unit := ExceptT.mk do
  let e ← get
  return if e.degree.admits part then pure () else throw (refusal e)

def append (t : Term α) : Draft α Unit := modify fun e => { e with terms := e.terms ++ [t] }

def addTerm (t : Term α) : Draft α Unit := do
  checkDegree t.degree .quadraticTerm
  append t

def addLinear (v : Variable α) (weight : α) : Draft α Unit := append (.single weight v)

def addQuadratic (v w : Variable α) (weight : α) : Draft α Unit := addTerm (.product weight v w)

def addConstant (c : α) : Draft α Unit := modify fun e => { e with constants := e.constants ++ [c] }

def addNested (inner : Expression α) (weight : α) : Draft α Unit := do
  checkDegree inner.degree .quadraticNested
  modify fun e => { e with nested := e.nested ++ [(weight, inner)] }

end Draft

namespace Addition

variable {α : Type}

/-- What an addition makes of an expression. -/
def apply (a : Addition α) (e : Expression α) : Except (Refusal α) (Expression α) :=
  match a with
  | term t => e.addTerm t
  | linear v weight => .ok (e.addLinear v weight)
  | quadratic v w weight => e.addQuadratic v w weight
  | constant c => .ok (e.addConstant c)
  | nested inner weight => e.addNested inner weight

def draft : Addition α → Draft α Unit
  | term t => .addTerm t
  | linear v weight => .addLinear v weight
  | quadratic v w weight => .addQuadratic v w weight
  | constant c => .addConstant c
  | nested inner weight => .addNested inner weight

/-- The expression that enters, if one does. -/
def inner? : Addition α → Option (Expression α)
  | nested inner _ => some inner
  | _ => none

end Addition

end MixedInteger
