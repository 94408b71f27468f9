import MixedInteger.Problem.Posting

/-!
Checked changes of a problem, as values and as they are carried out: in place, one assignment after the other. A
refusal ends an edit where it stands and takes nothing back, so an edit that is to leave no trace must check first.
-/

namespace MixedInteger

/-- What brings variables into a problem. -/
inductive Intake (α : Type) where
  | objective (e : Expression α) (sense : Sense)
  | constraints (cs : List (Constraint α))

/-- Changes that may be refused. -/
inductive Change (α : Type) where
  | intake (i : Intake α)
  | globalBounds (low high : α)
  | bounds (name : String) (change : Variable.BoundChange α)
  | value (name : String) (x : α)

/-- A problem under change, and the events so far. -/
structure Desk (α : Type) where
  problem : Problem α
  events : List (Event α)

abbrev Edit (α : Type) := ExceptT (Refusal α) (StateM (Desk α))

namespace Registry

variable {α : Type}

/-- Changes the variable in use under a name, if there is one. -/
def revise (r : Registry α) (name : String) (f : Variable α → Variable α) : Registry α :=
  match r.get? name with
  | some v => r.replace name (f v)
  | none => r

/-- Changes the variable in use at a place. -/
def reviseAt (r : Registry α) (place : Nat) (f : Variable α → Variable α) : Registry α :=
  ⟨r.entries.modify place fun e => { e with current := f e.current }⟩

end Registry

namespace Edit

variable {α β : Type}

/-- What an edit answers, and the desk it leaves. -/
def on (edit : Edit α β) (d : Desk α) : Except (Refusal α) β × Desk α := edit.run.run d

def check (test : Problem α → Except (Refusal α) β) : Edit α β := ExceptT.mk do
  return test (← get).problem

def write (f : Problem α → Problem α) : Edit α Unit := modify fun d => { d with problem := f d.problem }

def report (e : Event α) : Edit α Unit := modify fun d => { d with events := d.events ++ [e] }

def register (v : Variable α) : Edit α Unit :=
  write fun p => { p with registry := p.registry.insert v }

def revise (name : String) (f : Variable α → Variable α) : Edit α Unit :=
  write fun p => { p with registry := p.registry.revise name f }

variable [Scalar α]

def setObjective (e : Expression α) (sense : Sense) : Edit α Unit := do
  let staged ← check fun p => p.registry.stage e.occurrences
  if e.hasNoTerms then report .constantObjective
  staged.forM register
  write fun p => { p with objective := some e }
  write fun p => { p with sense }

def addAll (cs : List (Constraint α)) : Edit α Unit := do
  cs.forM fun c => check fun _ => c.validate
  let staged ← check fun p => p.registry.stage (cs.flatMap Constraint.occurrences)
  staged.forM register
  cs.forM fun c => write (·.push c)
  write fun p => { p with flags := .none }

def applyGlobalBounds (low high : α) : Edit α Unit := do
  check fun _ => if high < low then throw (.globalBoundsReversed low high) else pure ()
  let places ← check fun p => pure p.registry.entries.length
  (List.range places).forM fun place =>
    write fun p => { p with registry := p.registry.reviseAt place (·.overrideBounds low high) }

def setValue (name : String) (value : α) : Edit α Unit := do
  check fun p => if (p.lookup name).isNone then throw (.unknownVariable name) else pure ()
  revise name (·.store value)

/-- Assigns the bounds of a variable in use, one end after the other. -/
def changeBounds (name : String) (change : Variable.BoundChange α) : Edit α Unit := do
  match ← check fun p => pure (p.lookup name) with
  | none => return
  | some v =>
    match change with
    | .lower bound =>
      check fun _ => v.checkBound bound
      revise name (·.atLeast bound)
    | .upper bound =>
      check fun _ => v.checkBound bound
      revise name (·.atMost bound)
    | .both low high =>
      check fun _ => v.checkInterval low high
      revise name (·.atLeast low)
      revise name (·.atMost high)

end Edit

variable {α : Type} [Scalar α]

namespace Intake

def occurrences : Intake α → List (Variable α)
  | objective e _ => e.occurrences
  | constraints cs => cs.flatMap Constraint.occurrences

def apply (i : Intake α) (p : Problem α) : Except (Refusal α) (Problem α × List (Event α)) :=
  match i with
  | objective e sense => p.setObjective e sense
  | constraints cs => (p.addAll cs).map fun q => (q, [])

end Intake

namespace Change

/-- What a change makes of a problem. Nothing, where the variable whose bounds it is about does not exist. -/
def apply (c : Change α) (p : Problem α) : Except (Refusal α) (Problem α × List (Event α)) :=
  match c with
  | intake i => i.apply p
  | globalBounds low high => (p.applyGlobalBounds low high).map fun q => (q, [])
  | bounds name change => ((p.changeBounds? name change).getD (.ok p)).map fun q => (q, [])
  | value name x => (p.setValue name x).map fun q => (q, [])

def edit : Change α → Edit α Unit
  | intake (.objective e sense) => .setObjective e sense
  | intake (.constraints cs) => .addAll cs
  | globalBounds low high => .applyGlobalBounds low high
  | bounds name change => .changeBounds name change
  | value name x => .setValue name x

end Change

end MixedInteger
