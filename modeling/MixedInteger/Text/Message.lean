import MixedInteger.Solver.Session
import MixedInteger.Text.Display

/-!
Messages of refusals and errors, and the fields of events.
-/

namespace MixedInteger

variable {α : Type} [Scalar α] [DecimalText α]

/-- The interval of two bounds. -/
def intervalText (low high : α) : String :=
  "[" ++ DecimalText.text low ++ ", " ++ DecimalText.text high ++ "]"

namespace Refusal

def words : Refusal α → String
  | quadraticTerm e => "cannot add a quadratic term to the linear function " ++ e.text
  | quadraticNested e => "cannot add a quadratic function to the linear function " ++ e.text
  | quadraticStated lhs relation rhs term =>
    "the linear constraint " ++ lhs.text ++ " " ++ relation.text ++ " " ++ DecimalText.text rhs ++
      " contains the quadratic term " ++ term.text
  | quadraticAdded term c =>
    "cannot add the quadratic term " ++ term.text ++ " to the linear constraint " ++ c.text
  | quadraticDisjunct c => "a disjunction only accepts linear constraints, got " ++ c.text
  | boundsReversed name lower upper =>
    "variable " ++ name ++ ": lower bound " ++ DecimalText.text lower ++
      " is greater than upper bound " ++ DecimalText.text upper
  | boundOutsideUnit name bound =>
    "binary variable " ++ name ++ " cannot have the bound " ++ DecimalText.text bound
  | domainRedefined declared later =>
    "variable " ++ declared.name ++ " is declared as " ++ declared.domain.text ++
      " and cannot be redefined as " ++ later.domain.text
  | boundsRedefined declared later =>
    "variable " ++ declared.name ++ " is declared with bounds " ++
      intervalText declared.lower.value declared.upper.value ++ " and cannot be redefined with " ++
      intervalText later.lower.value later.upper.value
  | emptyLhs c => "constraint " ++ c.text ++ " has an empty left-hand side"
  | noMembers => "SOS1 constraint without variables"
  | weightCount s =>
    s.text ++ " has " ++ s.members.length.repr ++ " variables but " ++ s.weights.length.repr ++ " weights"
  | noDisjuncts => "disjunction without sub-constraints"
  | noOperand b => b.text ++ " has no operand"
  | notBinary b v => b.text ++ ": " ++ v.name ++ " is " ++ v.domain.text ++ ", only binaries are allowed"
  | noObjective => "the problem has no objective"
  | globalBoundsReversed lower upper =>
    "global lower bound " ++ DecimalText.text lower ++ " is greater than global upper bound " ++
      DecimalText.text upper
  | unknownVariable name => "unknown variable " ++ name
  | foreignVariable name => "variable " ++ name ++ " is not part of the problem"
  | nativeLeft => "microlp has no native SOS1 or general constraints, lower them first"
  | termNotLinear t => "microlp cannot handle the quadratic term " ++ t.text
  | relationLeft c => "operator " ++ c.relation.text ++ " left in " ++ c.text ++ " after lowering"
  | integerRange v =>
    "microlp needs the bounds " ++ intervalText v.lower.value v.upper.value ++ " of integer variable " ++
      v.name ++ " to fit in an i32"
  | stated _ words => words

def message (r : Refusal α) : String := "[" ++ r.code.text ++ "] " ++ r.words

end Refusal

namespace SolverError

/-- A search without a solution is one of the errors that only words tell apart. -/
def message : SolverError α → String
  | refused r => r.message
  | notBuilt => "The problem was not built before solving it"
  | noSolution => "An error occurred: no solution to read values from"
  | sinkClosed reason => "An error occurred: cannot write the model: " ++ reason
  | other words => "An error occurred: " ++ words

/-- The refusal behind an error. -/
def source : SolverError α → Option (Refusal α)
  | refused r => some r
  | _ => none

end SolverError

/-- Whether an event asks for attention. -/
inductive EventLevel where
  | warn
  | debug
  deriving DecidableEq

namespace EventLevel

def text : EventLevel → String
  | warn => "WARN"
  | debug => "DEBUG"

end EventLevel

/-- The value of an event's field. -/
inductive FieldValue where
  | text (s : String)
  | count (n : Nat)

namespace Pass

def operation : Pass → String
  | disjunctions => "substitute_or"
  | relations => "substitute_operator"
  | binaryOrs => "substitute_general"
  | sos1s => "substitute_sos1"

def message : Pass → String
  | disjunctions => "Lowered disjunctions"
  | relations => "Lowered strict and non-equality operators"
  | binaryOrs => "Lowered general constraints"
  | sos1s => "Lowered SOS1 constraints"

end Pass

namespace Event

def level : Event α → EventLevel
  | constantObjective | duplicateWeights _ | optionIgnored _ => .warn
  | passed .. | modelHanded _ | modelBuilt .. | searched _ => .debug

/-- Who reports, during what, and how it went. -/
def heading (component operation status : String) : List (String × FieldValue) :=
  [("component", .text component), ("operation", .text operation), ("status", .text status)]

def engine : String × FieldValue := ("solver", .text "microlp")

def fields : Event α → List (String × FieldValue)
  | constantObjective =>
    heading "problem" "set_objective" "warning" ++
      [("message", .text "The objective does not depend on any variable")]
  | passed pass consumed produced =>
    heading "lowering" pass.operation "success" ++
      [("consumed", .count consumed), ("produced", .count produced), ("message", .text pass.message)]
  | duplicateWeights s =>
    heading "lowering" "lower" "warning" ++
      [("constraint", .text s.text),
       ("message", .text "SOS1 constraint with duplicate weights kept for a native solver")]
  | optionIgnored option =>
    heading "solver" "build" "warning" ++
      [engine, ("option", .text option.text),
       ("message", .text "microlp does not support this option, ignoring it")]
  | modelHanded p =>
    heading "solver" "build" "ok" ++
      [engine, ("model", .text p.text), ("message", .text "Model handed to microlp")]
  | modelBuilt columns rows =>
    heading "solver" "build" "success" ++
      [engine, ("variables", .count columns), ("constraints", .count rows),
       ("message", .text "Built microlp model")]
  | searched status =>
    heading "solver" "solve" status.text ++ [engine, ("message", .text "microlp finished")]

end Event

end MixedInteger
