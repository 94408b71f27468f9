import MixedInteger.Problem.Change
import MixedInteger.Solver.Session

/-!
Building as it is carried out: on the problem and on the solver themselves, one statement after the other. Nothing is
put back when a check fails, so what a failed build leaves is decided by the order of the statements.
-/

namespace MixedInteger

namespace Edit

variable {α : Type} [Scalar α]

/-- The constraints of a kind are taken out before the first of those that replace them comes in. -/
def substitute (pass : Pass) : Edit α Unit := do
  let r ← check fun p => pure (p.replacement pass)
  write fun _ => r.rest
  r.produced.forM fun c => write (·.insertProduced c)
  write fun p => { p with flags := p.flags.mark pass }
  report (.passed pass r.consumed r.produced.length)

def lower : Edit α Unit := do
  substitute .disjunctions
  substitute .relations
  let keepsBinaryOr ← check fun p => pure p.policy.keepsBinaryOr
  unless keepsBinaryOr do substitute .binaryOrs
  let keepsSos1 ← check fun p => pure p.policy.keepsSos1
  if keepsSos1 then
    let duplicate ← check fun p => pure p.duplicateWeights?
    duplicate.toList.forM fun s => report (.duplicateWeights s)
  else substitute .sos1s
  write (·.expandObjective)

end Edit

/-- A solver and the problem it is given, what the sink holds, and the events so far. -/
structure Bench (α : Type) where
  solver : Solver α
  problem : Problem α
  sunk : Option (Problem α)
  events : List (Event α)

abbrev Procedure (α : Type) := ExceptT (SolverError α) (StateM (Bench α))

namespace Procedure

variable {α β : Type}

/-- What a procedure answers, and the bench it leaves. -/
def on (x : Procedure α β) (b : Bench α) : Except (SolverError α) β × Bench α := x.run.run b

/-- Work on the problem. What the work refuses the procedure refuses. -/
def edit (x : Edit α β) : Procedure α β := ExceptT.mk fun b =>
  let (result, desk) := x.on ⟨b.problem, b.events⟩
  (result.mapError .refused, { b with problem := desk.problem, events := desk.events })

def store (config : SolverConfig α) : Procedure α Unit :=
  match config.sink with
  | none => pure ()
  | some .open => modify fun b => { b with sunk := some b.problem }
  | some (.closed reason) => throw (.sinkClosed reason)

/-- The model comes without a solution. -/
def load (a : Assembled α) : Procedure α Unit :=
  modify fun b => { b with solver := { b.solver with loaded := some { a with solution := none } } }

def handOver (config : SolverConfig α) : Procedure α Unit := do
  let p := (← get).problem
  if config.debugOutput then edit (.report (.modelHanded p))

variable [Scalar α]

def makeModel : Procedure α Unit := do
  let a ← edit (.check Assembled.ofProblem)
  edit (.report (.modelBuilt a.model.columns.length a.model.rows.length))
  load a

def setBounds (config : SolverConfig α) : Procedure α Unit :=
  match config.bounds with
  | none => pure ()
  | some (low, high) => edit (.applyGlobalBounds low high)

def checkReady : Procedure α Unit := do
  edit (.check fun p => if p.sos1s.isEmpty && p.binaryOrs.isEmpty then pure () else throw .nativeLeft)
  edit (.check Problem.validate)

def build : Procedure α Unit := do
  let config := (← get).solver.config
  config.ignored.forM fun option => edit (.report (.optionIgnored option))
  edit .lower
  setBounds config
  checkReady
  store config
  handOver config
  makeModel

end Procedure

end MixedInteger
