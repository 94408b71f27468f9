import MixedInteger.Problem

/-!
What an engine searches: columns with a domain each, rows over column numbers, and costs. And what it
answers.
-/

namespace MixedInteger

/-- The values a column may take. -/
inductive ColumnDomain (α : Type) where
  | binary
  | integer (low high : Int)
  | real (low high : α)
  deriving DecidableEq

structure Column (α : Type) where
  cost : α
  domain : ColumnDomain α
  deriving DecidableEq

/-- A canonical relation between a weighted sum of columns and a number. -/
structure Row (α : Type) where
  coefficients : List (Nat × α)
  relation : Relation
  rhs : α
  deriving DecidableEq

structure Model (α : Type) where
  sense : Sense
  columns : List (Column α)
  rows : List (Row α)
  deriving DecidableEq

inductive Answer (α : Type) where
  /-- The least or the greatest cost, and a value for each column. -/
  | optimal (cost : α) (values : List α)
  | infeasible
  | unbounded
  | failed (reason : String)
  deriving DecidableEq

abbrev Engine (α : Type) := Model α → Answer α

namespace Sense

/-- How engines call it. -/
def direction : Sense → String
  | maximise => "Maximize"
  | minimise => "Minimize"

end Sense

/-- The size of a model in one line. -/
def Model.summary {α : Type} (m : Model α) : String :=
  "Problem \x7b direction: " ++ m.sense.direction ++ ", num_vars: " ++ m.columns.length.repr ++
    ", num_constraints: " ++ m.rows.length.repr ++ " \x7d"

end MixedInteger
