import MixedInteger.Problem
import MixedInteger.Text.Decimal

/-!
How the pieces of a model are written for a reader.
-/

namespace MixedInteger

/-- Summands, or a zero where there is none. -/
def sumText (summands : List String) : String :=
  if summands.isEmpty then "0" else " + ".intercalate summands

def listText (items : List String) : String := "(" ++ ", ".intercalate items ++ ")"

def Sense.text : Sense → String
  | maximise => "maximise"
  | minimise => "minimise"

variable {α : Type}

def Monomial.text : Monomial α → String
  | single v => v.name
  | product v w => v.name ++ "*" ++ w.name

def Sos1.text (s : Sos1 α) : String := "SOS1" ++ listText (s.members.map (·.name))

def BinaryOr.text (b : BinaryOr α) : String :=
  b.result.name ++ " = OR" ++ listText (b.operands.map (·.name))

variable [Scalar α] [DecimalText α]

/-- A factor in front of what it multiplies. One is left out, and so is whatever cannot be told from one at
the precision of a double. -/
def factorText (weight : α) : String :=
  if Scalar.ofRat ((2 : Rat) ^ (-52 : Int)) < Scalar.abs (weight - 1) then DecimalText.text weight ++ " "
  else ""

def Term.text (t : Term α) : String := factorText t.weight ++ t.monomial.text

namespace Expression

mutual

def text : Expression α → String
  | ⟨_, terms, constants, nested⟩ =>
    sumText (terms.map Term.text ++ constants.map DecimalText.text ++ nestedTexts nested)

def nestedTexts : List (α × Expression α) → List String
  | [] => []
  | (weight, e) :: rest => (factorText weight ++ "(" ++ e.text ++ ")") :: nestedTexts rest

end

end Expression

def Comparison.text (c : Comparison α) : String :=
  c.label.elim "" (· ++ ": ") ++ sumText (c.lhs.map Term.text) ++ " " ++ c.relation.text ++ " " ++
    DecimalText.text c.rhs

def Disjunction.text (d : Disjunction α) : String := "OR" ++ listText (d.disjuncts.map Comparison.text)

def Constraint.text : Constraint α → String
  | comparison c => c.text
  | sos1 s => s.text
  | disjunction d => d.text
  | binaryOr b => b.text

/-- The line that declares a variable with its bounds and domain. -/
def Variable.boundsText (v : Variable α) : String :=
  DecimalText.text v.lower.value ++ " <= " ++ v.name ++ " <= " ++ DecimalText.text v.upper.value ++
    " " ++ v.domain.text

/-- One line for the objective, for each constraint and for each variable. -/
def Problem.text (p : Problem α) : String :=
  let lines :=
    [p.sense.text ++ ": " ++ p.objective.elim "0" Expression.text, "subject to"] ++
      p.constraints.map (fun c => "  " ++ c.text) ++
      ["bounds"] ++ p.registered.map (fun v => "  " ++ v.boundsText)
  String.join (lines.map (· ++ "\n"))

end MixedInteger
