import MixedInteger.NameSupply
import MixedInteger.Registry

/-!
Problems: an objective, constraints of every kind, and the variables they use.
-/

namespace MixedInteger

inductive Sense where
  | maximise
  | minimise
  deriving DecidableEq

/-- How far a problem is lowered. -/
structure LoweringPolicy (α : Type) where
  /-- Reach of the slacks and sets that lowering makes. It must exceed whatever they bridge. -/
  bigM : α
  /-- Sets stay for an engine that branches on them. -/
  keepsSos1 : Bool
  /-- Logical links stay for an engine that knows them. -/
  keepsBinaryOr : Bool

def LoweringPolicy.default {α : Type} [Scalar α] : LoweringPolicy α := ⟨defaultBigM, false, false⟩

/-- The passes of lowering, each named for what it takes out. -/
inductive Pass where
  | disjunctions
  | relations
  | binaryOrs
  | sos1s
  deriving DecidableEq

/-- Which passes ran since a batch of constraints was last accepted, be it an empty one. -/
structure PassFlags where
  disjunctions : Bool
  relations : Bool
  binaryOrs : Bool
  sos1s : Bool
  deriving DecidableEq

namespace PassFlags

def none : PassFlags := ⟨false, false, false, false⟩

def mark (flags : PassFlags) : Pass → PassFlags
  | .disjunctions => { flags with disjunctions := true }
  | .relations => { flags with relations := true }
  | .binaryOrs => { flags with binaryOrs := true }
  | .sos1s => { flags with sos1s := true }

end PassFlags

structure Problem (α : Type) where
  objective : Option (Expression α)
  sense : Sense
  comparisons : List (Comparison α)
  sos1s : List (Sos1 α)
  disjunctions : List (Disjunction α)
  binaryOrs : List (BinaryOr α)
  registry : Registry α
  policy : LoweringPolicy α
  nextAuxiliary : Nat
  flags : PassFlags

namespace Problem

variable {α : Type}

def withPolicy (policy : LoweringPolicy α) : Problem α :=
  ⟨none, .minimise, [], [], [], [], .empty, policy, 0, .none⟩

def empty [Scalar α] : Problem α := withPolicy .default

def configure (p : Problem α) (policy : LoweringPolicy α) : Problem α := { p with policy }

def setSense (p : Problem α) (sense : Sense) : Problem α := { p with sense }

def registered (p : Problem α) : List (Variable α) := p.registry.toList

def lookup (p : Problem α) (name : String) : Option (Variable α) := p.registry.get? name

def constraintCount (p : Problem α) : Nat :=
  p.comparisons.length + p.sos1s.length + p.disjunctions.length + p.binaryOrs.length

/-- Every constraint, kind by kind. -/
def constraints (p : Problem α) : List (Constraint α) :=
  p.comparisons.map .comparison ++ p.sos1s.map .sos1 ++ p.disjunctions.map .disjunction ++
    p.binaryOrs.map .binaryOr

/-- Stores a constraint at the end of its kind. -/
def push (p : Problem α) : Constraint α → Problem α
  | .comparison c => { p with comparisons := p.comparisons ++ [c] }
  | .sos1 s => { p with sos1s := p.sos1s ++ [s] }
  | .disjunction d => { p with disjunctions := p.disjunctions ++ [d] }
  | .binaryOr b => { p with binaryOrs := p.binaryOrs ++ [b] }

/-- Only what the policy leaves to an engine is left. -/
def isLowered (p : Problem α) : Bool :=
  p.disjunctions.isEmpty && p.comparisons.all (·.relation.isCanonical) &&
    (p.policy.keepsSos1 || p.sos1s.isEmpty) && (p.policy.keepsBinaryOr || p.binaryOrs.isEmpty) &&
    p.objective.all (·.isFlat)

/-- Draws names against the registered ones, going on from the last auxiliary. -/
def draw {β : Type} (p : Problem α) (names : Naming β) : β × Nat :=
  let (drawn, supply) := names.run ⟨p.registry.names, p.nextAuxiliary⟩
  (drawn, supply.next)

variable [Scalar α]

/-- The values in store, zero for a name that is not registered. -/
def stored (p : Problem α) : Assignment α := fun name => ((p.lookup name).map (·.value)).getD 0

end Problem

end MixedInteger
