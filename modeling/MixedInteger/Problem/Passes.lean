import MixedInteger.Event
import MixedInteger.Lowering.BinaryOr
import MixedInteger.Lowering.Disjunction
import MixedInteger.Lowering.Sos1

/-!
The passes that lower a problem. A pass takes one kind of constraint out and puts what it stands for at
the end of the kinds it is made of, so passes that produce for others run first.
-/

namespace MixedInteger

/-- A problem without what a pass took out, and what comes in its place. -/
structure Replacement (α : Type) where
  rest : Problem α
  consumed : Nat
  produced : List (Constraint α)

namespace Problem

variable {α : Type}

/-- Stores a constraint made by a pass. Of its variables only the auxiliaries are new. -/
def insertProduced (p : Problem α) (c : Constraint α) : Problem α :=
  { p with registry := p.registry.insertAll c.occurrences }.push c

variable [Scalar α]

def replaceDisjunctions (p : Problem α) : Replacement α :=
  let (produced, next) := p.draw (p.disjunctions.mapM (·.lower p.policy.bigM))
  ⟨{ p with disjunctions := [], nextAuxiliary := next }, p.disjunctions.length, produced.flatten⟩

/-- Canonical comparisons keep their order; what the others stand for comes after them. -/
def replaceRelations (p : Problem α) : Replacement α :=
  let (kept, others) := p.comparisons.partition (·.relation.isCanonical)
  let (produced, next) := p.draw (others.mapM (·.lower p.policy.bigM))
  ⟨{ p with comparisons := kept, nextAuxiliary := next }, others.length, produced.flatten⟩

def replaceBinaryOrs (p : Problem α) : Replacement α :=
  ⟨{ p with binaryOrs := [] }, p.binaryOrs.length,
    (p.binaryOrs.flatMap BinaryOr.lower).map .comparison⟩

def replaceSos1s (p : Problem α) : Replacement α :=
  let (produced, next) := p.draw (p.sos1s.mapM Sos1.lower)
  ⟨{ p with sos1s := [], nextAuxiliary := next }, p.sos1s.length, produced.flatten.map .comparison⟩

def replacement (p : Problem α) : Pass → Replacement α
  | .disjunctions => p.replaceDisjunctions
  | .relations => p.replaceRelations
  | .binaryOrs => p.replaceBinaryOrs
  | .sos1s => p.replaceSos1s

/-- One pass, and the report on it. -/
def substitute (p : Problem α) (pass : Pass) : Problem α × List (Event α) :=
  let r := p.replacement pass
  let p := r.produced.foldl insertProduced r.rest
  ({ p with flags := p.flags.mark pass }, [.passed pass r.consumed r.produced.length])

def substituteAll (p : Problem α) (passes : List Pass) : Problem α × List (Event α) :=
  passes.foldl (fun (p, events) pass =>
    let (p, more) := p.substitute pass
    (p, events ++ more)) (p, [])

/-- The first kept set with two equal weights. -/
def duplicateWeights? (p : Problem α) : Option (Sos1 α) := p.sos1s.find? (·.hasDuplicateWeights)

def expandObjective (p : Problem α) : Problem α :=
  { p with objective := p.objective.map Expression.expand }

/-- Disjunctions first, then relations, then logical links, and the sets that all of them may have left. -/
def lower (p : Problem α) : Problem α × List (Event α) :=
  let (q, events) := p.substituteAll
    ([.disjunctions, .relations] ++ if p.policy.keepsBinaryOr then [] else [.binaryOrs])
  if p.policy.keepsSos1 then
    (q.expandObjective, events ++ (q.duplicateWeights?.map Event.duplicateWeights).toList)
  else
    let (q, more) := q.substitute .sos1s
    (q.expandObjective, events ++ more)

end Problem

end MixedInteger
