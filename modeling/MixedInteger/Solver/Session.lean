import MixedInteger.Solver.Assembly

/-!
A solver between calls: the last model that was built, and the solution of it that was found last.
-/

namespace MixedInteger

structure Loaded (α : Type) extends Assembled α where
  solution : Option (List α)

structure SearchReport (α : Type) where
  status : Status
  /-- Zero when there is no solution. -/
  objective : α
  solutions : Nat

structure Solver (α : Type) where
  config : SolverConfig α
  loaded : Option (Loaded α)

/-- What a complete run leaves. -/
structure Run (α : Type) where
  solver : Solver α
  problem : Problem α
  result : Except (SolverError α) (SearchReport α)
  written : Option (Problem α)
  events : List (Event α)

namespace Solver

variable {α : Type} [Scalar α]

def ofConfig (config : SolverConfig α) : Solver α := ⟨config, none⟩

def name : String := "Microlp"

/-- A model that was not built leaves the one before it in place. -/
def build (s : Solver α) (p : Problem α) : Solver α × Assembly α :=
  let assembly := Assembly.ofProblem s.config p
  match assembly.result with
  | .error _ => (s, assembly)
  | .ok a => ({ s with loaded := some { a with solution := none } }, assembly)

/-- The report on an answer, and the solution to keep. -/
def read (constant : α) : Answer α → Except (SolverError α) (SearchReport α) × Option (List α)
  | .optimal cost values => (.ok ⟨.optimal, cost + constant, 1⟩, some values)
  | .infeasible => (.ok ⟨.infeasible, 0, 0⟩, none)
  | .unbounded => (.ok ⟨.unbounded, 0, 0⟩, none)
  | .failed reason => (.error (.other reason), none)

def solve (engine : Engine α) (s : Solver α) :
    Solver α × Except (SolverError α) (SearchReport α) × List (Event α) :=
  match s.loaded with
  | none => (s, .error .notBuilt, [])
  | some l =>
    let (result, solution) := read l.objectiveConstant (engine l.model)
    let events := match result with
      | .ok report => [.searched report.status]
      | .error _ => []
    ({ s with loaded := some { l with solution } }, result, events)

/-- Writes values one after the other, up to the first name that the problem does not know. -/
def writeBack : List (String × α) → Problem α → Except (SolverError α) Unit × Problem α
  | [], p => (.ok (), p)
  | (name, value) :: rest, p =>
    match p.setValue name value with
    | .error r => (.error (.refused r), p)
    | .ok p => writeBack rest p

def updateValues (s : Solver α) (p : Problem α) : Except (SolverError α) Unit × Problem α :=
  match s.loaded with
  | none => (.error .notBuilt, p)
  | some l =>
    match l.solution with
    | none => (.error .noSolution, p)
    | some values => writeBack (l.names.zip values) p

/-- Builds, searches, and writes the values back when there are any. -/
def run (engine : Engine α) (s : Solver α) (p : Problem α) : Run α :=
  let (s, assembly) := s.build p
  match assembly.result with
  | .error e => ⟨s, assembly.problem, .error e, assembly.written, assembly.events⟩
  | .ok _ =>
    let (s, result, events) := s.solve engine
    let events := assembly.events ++ events
    match result with
    | .error e => ⟨s, assembly.problem, .error e, assembly.written, events⟩
    | .ok report =>
      if report.status.hasSolution then
        let (updated, p) := s.updateValues assembly.problem
        ⟨s, p, updated.map fun _ => report, assembly.written, events⟩
      else ⟨s, assembly.problem, .ok report, assembly.written, events⟩

end Solver

end MixedInteger
