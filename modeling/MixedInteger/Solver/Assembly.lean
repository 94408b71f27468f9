import MixedInteger.Problem.Passes
import MixedInteger.Problem.Posting
import MixedInteger.Solver.Model

/-!
Assembly of a model from a problem. The problem is lowered as far as its policy goes, its open bounds are
set, and what is left must be rows over columns.
-/

namespace MixedInteger

/-- Why a search cannot be made or its outcome not used. -/
inductive SolverError (α : Type) where
  | refused (r : Refusal α)
  | notBuilt
  | noSolution
  | sinkClosed (reason : String)
  | other (words : String)

/-- A model with the names of its columns. The constant of the objective is no part of the costs and is
handed back with the answer. -/
structure Assembled (α : Type) where
  model : Model α
  names : List String
  objectiveConstant : α
  deriving DecidableEq

/-- What an assembly leaves: the problem as it was changed, whether or not a model came of it. -/
structure Assembly (α : Type) where
  problem : Problem α
  result : Except (SolverError α) (Assembled α)
  /-- The problem as it was written to the sink. -/
  written : Option (Problem α)
  events : List (Event α)

namespace Row

variable {α : Type} [Scalar α]

/-- Adds a weight to the coefficient of a column, or lists the column last. -/
def accumulate (coefficients : List (Nat × α)) (column : Nat) (weight : α) : List (Nat × α) :=
  match coefficients with
  | [] => [(column, weight)]
  | (j, w) :: rest =>
    if j = column then (j, w + weight) :: rest else (j, w) :: accumulate rest column weight

def addTerm (names : List String) (coefficients : List (Nat × α)) (t : Term α) :
    Except (Refusal α) (List (Nat × α)) :=
  match t.monomial with
  | .product _ _ => throw (.termNotLinear t)
  | .single v =>
    match names.idxOf? v.name with
    | none => throw (.foreignVariable v.name)
    | some column => return accumulate coefficients column t.weight

/-- One coefficient for each column that occurs, in the order of first appearance. -/
def consolidate (names : List String) (terms : List (Term α)) :
    Except (Refusal α) (List (Nat × α)) :=
  terms.foldlM (addTerm names) []

def ofComparison (names : List String) (c : Comparison α) : Except (Refusal α) (Row α) := do
  unless c.relation.isCanonical do throw (.relationLeft c)
  return ⟨← consolidate names c.lhs, c.relation, c.rhs⟩

end Row

namespace ColumnDomain

variable {α : Type} [Scalar α]

/-- The integers that an engine counts in. -/
def fits (n : Int) : Bool := -2147483648 ≤ n && n ≤ 2147483647

/-- Bounds of an integer column are rounded into the interval. -/
def ofVariable (v : Variable α) : Except (Refusal α) (ColumnDomain α) :=
  match v.domain with
  | .binary => pure .binary
  | .real => pure (.real v.lower.value v.upper.value)
  | .integer =>
    match (Scalar.toRat? v.lower.value).map Rat.ceil, (Scalar.toRat? v.upper.value).map Rat.floor with
    | some low, some high =>
      if fits low && fits high then pure (.integer low high) else throw (.integerRange v)
    | _, _ => throw (.integerRange v)

end ColumnDomain

namespace Assembled

variable {α : Type} [Scalar α]

/-- The cost of a column, zero where the objective leaves it out. -/
def costOf (coefficients : List (Nat × α)) (column : Nat) : α :=
  ((coefficients.find? (·.1 == column)).map (·.2)).getD 0

/-- A model of a lowered problem: a column for each variable and a row for each comparison, in order. -/
def ofProblem (p : Problem α) : Except (Refusal α) (Assembled α) := do
  let names := p.registry.names
  let objective := p.objective.getD (.empty .linear)
  let costs ← Row.consolidate names objective.terms
  let domains ← p.registered.mapM ColumnDomain.ofVariable
  let rows ← p.comparisons.mapM (Row.ofComparison names)
  let columns := domains.zipIdx.map fun (domain, j) => ⟨costOf costs j, domain⟩
  return ⟨⟨p.sense, columns, rows⟩, names, objective.constant⟩

end Assembled

namespace Assembly

variable {α : Type} [Scalar α]

/-- What a problem must be before a model is made of it. -/
def checkReady (p : Problem α) : Except (Refusal α) Unit := do
  unless p.sos1s.isEmpty && p.binaryOrs.isEmpty do throw .nativeLeft
  p.validate

def applyBounds (config : SolverConfig α) (p : Problem α) : Except (Refusal α) (Problem α) :=
  match config.bounds with
  | none => pure p
  | some (low, high) => p.applyGlobalBounds low high

/-- Writes a checked problem and makes the model. -/
def ofReady (config : SolverConfig α) (p : Problem α) (events : List (Event α)) : Assembly α :=
  match config.sink with
  | some (.closed reason) => ⟨p, .error (.sinkClosed reason), none, events⟩
  | sink =>
    let written := sink.map fun _ => p
    let events := if config.debugOutput then events ++ [.modelHanded p] else events
    match Assembled.ofProblem p with
    | .error r => ⟨p, .error (.refused r), written, events⟩
    | .ok a =>
      ⟨p, .ok a, written, events ++ [.modelBuilt a.model.columns.length a.model.rows.length]⟩

/-- Auxiliaries have bounds of their own, so global bounds can wait until they exist. -/
def ofProblem (config : SolverConfig α) (p : Problem α) : Assembly α :=
  let (p, lowering) := p.lower
  let events := config.ignored.map .optionIgnored ++ lowering
  match applyBounds config p with
  | .error r => ⟨p, .error (.refused r), none, events⟩
  | .ok p =>
    match checkReady p with
    | .error r => ⟨p, .error (.refused r), none, events⟩
    | .ok () => ofReady config p events

end Assembly

end MixedInteger
