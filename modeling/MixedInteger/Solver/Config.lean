import MixedInteger.Scalar

/-!
Options of a search and how one ends.
-/

namespace MixedInteger

inductive Status where
  | optimal
  | feasible
  | infeasible
  | unbounded
  | infeasibleOrUnbounded
  | timedOut
  deriving DecidableEq

namespace Status

/-- Whether the values of the variables mean anything. -/
def hasSolution : Status → Bool
  | optimal | feasible => true
  | _ => false

def text : Status → String
  | optimal => "optimal"
  | feasible => "feasible"
  | infeasible => "infeasible"
  | unbounded => "unbounded"
  | infeasibleOrUnbounded => "infeasible or unbounded"
  | timedOut => "timed out"

end Status

/-- Where the model is written before a search, as it is found when it comes to that. Somewhere that cannot be written
has the reason why. -/
inductive Sink where
  | open
  | closed (reason : String)
  deriving DecidableEq

structure SolverConfig (α : Type) where
  timeLimit : Option Nat
  randomSeed : Option Nat
  tolerance : α
  /-- Bounds for the variables whose bounds nobody chose. -/
  bounds : Option (α × α)
  presolve : Bool
  debugOutput : Bool
  sink : Option Sink

/-- The options that an exact search has no use for. -/
inductive IgnoredOption where
  | timeLimit
  | randomSeed
  | tolerance
  | presolve
  deriving DecidableEq

namespace IgnoredOption

def text : IgnoredOption → String
  | timeLimit => "time_limit"
  | randomSeed => "random_seed"
  | tolerance => "tolerance"
  | presolve => "presolve"

end IgnoredOption

namespace SolverConfig

variable {α : Type} [Scalar α]

def default : SolverConfig α := ⟨none, none, Scalar.ofRat (1 / 1000000), none, true, false, none⟩

/-- The same options with the sink found otherwise. Without a sink there is nothing to find. -/
def facing (c : SolverConfig α) (sink : Sink) : SolverConfig α := { c with sink := c.sink.map fun _ => sink }

/-- Options set to something other than their default that the search passes over. -/
def ignored (c : SolverConfig α) : List IgnoredOption :=
  (if c.timeLimit.isSome then [.timeLimit] else []) ++
  (if c.randomSeed.isSome then [.randomSeed] else []) ++
  (if c.tolerance != (default : SolverConfig α).tolerance then [.tolerance] else []) ++
  (if c.presolve then [] else [.presolve])

end SolverConfig

end MixedInteger
