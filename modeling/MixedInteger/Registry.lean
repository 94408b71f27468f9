import MixedInteger.Variable.Bounds

/-!
The variables of a problem in the order in which they came. The first declaration of a name is kept beside
the variable in use, so that later declarations are judged by it whatever happened to the bounds since.
-/

namespace MixedInteger

structure Registration (α : Type) where
  declared : Variable α
  current : Variable α

structure Registry (α : Type) where
  entries : List (Registration α)

namespace Registry

variable {α : Type}

def empty : Registry α := ⟨[]⟩

def names (r : Registry α) : List String := r.entries.map (·.declared.name)

/-- The variables in use. -/
def toList (r : Registry α) : List (Variable α) := r.entries.map (·.current)

def find? (r : Registry α) (name : String) : Option (Registration α) :=
  r.entries.find? (·.declared.name == name)

def get? (r : Registry α) (name : String) : Option (Variable α) := (r.find? name).map (·.current)

/-- A name that is known stays with its first declaration. -/
def insert (r : Registry α) (v : Variable α) : Registry α :=
  if (r.find? v.name).isSome then r else ⟨r.entries ++ [⟨v, v⟩]⟩

def insertAll (r : Registry α) (vs : List (Variable α)) : Registry α := vs.foldl insert r

/-- Changes the variables in use and no declaration. -/
def mapCurrent (r : Registry α) (f : Variable α → Variable α) : Registry α :=
  ⟨r.entries.map fun e => { e with current := f e.current }⟩

def replace (r : Registry α) (name : String) (v : Variable α) : Registry α :=
  ⟨r.entries.map fun e => if e.declared.name == name then { e with current := v } else e⟩

theorem find?_eq_none_iff {r : Registry α} {name : String} :
    r.find? name = none ↔ name ∉ r.names := by
  simp only [find?, names, List.find?_eq_none, List.mem_map, not_exists, not_and, beq_iff_eq]

/-- A name enters once, after the others. -/
theorem names_insert (r : Registry α) (v : Variable α) :
    (r.insert v).names = if v.name ∈ r.names then r.names else r.names ++ [v.name] := by
  by_cases h : v.name ∈ r.names
  · have known : (r.find? v.name).isSome :=
      Option.isSome_iff_ne_none.mpr fun hn => find?_eq_none_iff.mp hn h
    simp only [insert, known, h, ↓reduceIte]
  · have unknown := find?_eq_none_iff.mpr h
    rw [if_neg h]
    simp only [insert, unknown, Option.isSome_none, Bool.false_eq_true, ↓reduceIte, names,
      List.map_append, List.map_cons, List.map_nil]

theorem names_replace (r : Registry α) (name : String) (v : Variable α) :
    (r.replace name v).names = r.names := by
  simp only [names, replace, List.map_map]
  refine List.map_congr_left fun e _ => ?_
  simp only [Function.comp]
  split <;> rfl

variable [Scalar α]

/-- The declaration that binds a name: the registered one, or the first among the staged. -/
def declaration? (r : Registry α) (staged : List (Variable α)) (name : String) :
    Option (Variable α) :=
  match r.find? name with
  | some e => some e.declared
  | none => staged.find? (·.name == name)

/-- One incoming variable, checked if its name is bound and staged if it is not. -/
def stageOne (r : Registry α) (staged : List (Variable α)) (v : Variable α) :
    Except (Refusal α) (List (Variable α)) :=
  match r.declaration? staged v.name with
  | some declared => do
    declared.checkRedefinition v
    return staged
  | none => return staged ++ [v]

/-- The variables that are new, once every incoming one agrees with the first declaration of its name. -/
def stage (r : Registry α) (incoming : List (Variable α)) : Except (Refusal α) (List (Variable α)) :=
  incoming.foldlM r.stageOne []

end Registry

end MixedInteger
