import Mathlib.Data.List.Nodup
import MixedInteger.Problem.Change
import MixedInteger.Solver.Assembly

/-!
The registry and the rows of a model as they are kept: lists, and beside each list a hash map that leads to a place in
it, so that nothing is searched for.
-/

namespace MixedInteger

/-- What is checked before any variable is looked at. -/
def Intake.validate {α : Type} : Intake α → Except (Refusal α) Unit
  | objective _ _ => pure ()
  | constraints cs => cs.forM Constraint.validate

/-- The variables in use and their first declarations, at the same places, and the place of each name. -/
structure Tables (α : Type) where
  current : List (Variable α)
  declared : List (Variable α)
  places : Std.HashMap String Nat

/-- New variables that wait to be registered, and the place of each name among them. -/
structure Waiting (α : Type) where
  staged : List (Variable α)
  places : Std.HashMap String Nat

namespace Tables

variable {α : Type}

def empty : Tables α := ⟨[], [], ∅⟩

def lookup (t : Tables α) (name : String) : Option (Variable α) :=
  t.places[name]?.bind fun place => t.current[place]?

def register (t : Tables α) (v : Variable α) : Tables α :=
  if t.places.contains v.name then t
  else ⟨t.current ++ [v], t.declared ++ [v], t.places.insert v.name t.current.length⟩

def commit (t : Tables α) (vs : List (Variable α)) : Tables α := vs.foldl register t

/-- The variables of a constraint that a pass made. The new ones are picked before the first of them comes in. -/
def enter (t : Tables α) (vs : List (Variable α)) : Tables α :=
  t.commit (vs.filter fun v => !t.places.contains v.name)

def enterAll (t : Tables α) (cs : List (Constraint α)) : Tables α :=
  cs.foldl (fun t c => t.enter c.occurrences) t

/-- Changes all variables in use. -/
def renew (t : Tables α) (f : Variable α → Variable α) : Tables α :=
  { t with current := t.current.map f }

/-- Changes the variable in use under a name, if there is one. -/
def revise (t : Tables α) (name : String) (f : Variable α → Variable α) : Tables α :=
  match t.places[name]? with
  | some place => { t with current := t.current.modify place f }
  | none => t

variable [Scalar α]

def declaration? (t : Tables α) (w : Waiting α) (name : String) : Option (Variable α) :=
  match t.places[name]? with
  | some place => t.declared[place]?
  | none => w.places[name]?.bind fun place => w.staged[place]?

def stageOne (t : Tables α) (w : Waiting α) (v : Variable α) : Except (Refusal α) (Waiting α) :=
  match t.declaration? w v.name with
  | some declared => do
    declared.checkRedefinition v
    return w
  | none => return ⟨w.staged ++ [v], w.places.insert v.name w.staged.length⟩

def stage (t : Tables α) (incoming : List (Variable α)) : Except (Refusal α) (List (Variable α)) :=
  (incoming.foldlM t.stageOne ⟨[], ∅⟩).map (·.staged)

/-- All the variables of an intake, or the refusal of the first check that fails. -/
def take (t : Tables α) (i : Intake α) : Except (Refusal α) (Tables α) := do
  i.validate
  let staged ← t.stage i.occurrences
  return t.commit staged

def overrideBounds (t : Tables α) (low high : α) : Tables α :=
  if high < low then t else t.renew (·.overrideBounds low high)

def bounded (t : Tables α) (bounds : Option (α × α)) : Tables α :=
  match bounds with
  | none => t
  | some (low, high) => t.overrideBounds low high

def changeBounds (t : Tables α) (name : String) (change : Variable.BoundChange α) : Tables α :=
  match t.lookup name with
  | none => t
  | some v =>
    match v.changeBounds change with
    | .ok changed => t.revise name fun _ => changed
    | .error _ => t

end Tables

namespace Row

/-- Coefficients, and the place of each column among them. -/
structure Tally (α : Type) where
  coefficients : List (Nat × α)
  places : Std.HashMap Nat Nat

/-- The place of each variable. -/
def columnsOf {α : Type} (vs : List (Variable α)) : Std.HashMap String Nat :=
  .ofList (vs.map (·.name)).zipIdx

namespace Tally

variable {α : Type} [Scalar α]

def add (t : Tally α) (column : Nat) (weight : α) : Tally α :=
  match t.places[column]? with
  | some place => { t with coefficients := t.coefficients.modify place fun c => (c.1, c.2 + weight) }
  | none => ⟨t.coefficients ++ [(column, weight)], t.places.insert column t.coefficients.length⟩

def addTerm (columns : Std.HashMap String Nat) (tally : Tally α) (t : Term α) :
    Except (Refusal α) (Tally α) :=
  match t.monomial with
  | .product _ _ => throw (.termNotLinear t)
  | .single v =>
    match columns[v.name]? with
    | none => throw (.foreignVariable v.name)
    | some column => return tally.add column t.weight

def consolidate (columns : Std.HashMap String Nat) (terms : List (Term α)) :
    Except (Refusal α) (List (Nat × α)) :=
  (terms.foldlM (addTerm columns) ⟨[], ∅⟩).map (·.coefficients)

end Tally

end Row

end MixedInteger
