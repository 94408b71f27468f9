/-!
Linear programs in exact arithmetic. Every row has a variable of its own for its value, so that a row is a
bound on a variable; the tableau expresses the basic variables by the others and keeps a value for each.
-/

namespace MixedInteger

/-- A weighted sum of variables, by increasing number and without zero weights. -/
abbrev Form := List (Nat × Rat)

namespace Form

def coefficient (f : Form) (j : Nat) : Rat :=
  match f with
  | [] => 0
  | (i, a) :: rest => if i < j then coefficient rest j else if i = j then a else 0

def erase (f : Form) (j : Nat) : Form := f.filter (·.1 ≠ j)

def scale (f : Form) (k : Rat) : Form := f.map fun (i, a) => (i, k * a)

/-- The sum of the first form and `k` times the second. -/
def addScaled (k : Rat) : Form → Form → Form
  | f, [] => f
  | [], g => scale g k
  | (i, a) :: f, (j, b) :: g =>
    if i < j then (i, a) :: addScaled k f ((j, b) :: g)
    else if j < i then (j, k * b) :: addScaled k ((i, a) :: f) g
    else
      let c := a + k * b
      if c = 0 then addScaled k f g else (i, c) :: addScaled k f g
termination_by f g => f.length + g.length

/-- A form from weights in any order. -/
def ofWeights (weights : List (Nat × Rat)) : Form :=
  weights.foldl (fun f (j, a) => if a = 0 then f else addScaled 1 f [(j, a)]) []

def eval (f : Form) (value : Nat → Rat) : Rat := f.foldl (fun s (i, a) => s + a * value i) 0

/-- The form with variable `j` replaced by another form. -/
def substitute (f : Form) (j : Nat) (g : Form) : Form :=
  let a := f.coefficient j
  if a = 0 then f else addScaled a (f.erase j) g

end Form

/-- The numbers a variable may take, an absent end being open. -/
structure Range where
  lower : Option Rat
  upper : Option Rat

namespace Range

def free : Range := ⟨none, none⟩

def allowsMore (r : Range) (x : Rat) : Bool := r.upper.all (x < ·)

def allowsLess (r : Range) (x : Rat) : Bool := r.lower.all (· < x)

/-- A number to start from: an end when there is one. -/
def start (r : Range) : Rat := (r.lower <|> r.upper).getD 0

/-- How far a number inside must move to be allowed. -/
def gap (r : Range) (x : Rat) : Rat :=
  match r.lower, r.upper with
  | some l, some u => if x < l then l - x else if u < x then u - x else 0
  | some l, none => if x < l then l - x else 0
  | none, some u => if u < x then u - x else 0
  | none, none => 0

/-- How far a number may move at the given rate, none if forever. -/
def room (r : Range) (x rate : Rat) : Option Rat :=
  if 0 < rate then r.upper.map fun u => (u - x) / rate
  else if rate < 0 then r.lower.map fun l => (l - x) / rate
  else none

end Range

structure Tableau where
  /-- Basic variables with the forms they are equal to. -/
  rows : List (Nat × Form)
  /-- What is to be made small, over the same variables. -/
  cost : Form
  ranges : Array Range
  values : Array Rat

namespace Tableau

def range (t : Tableau) (j : Nat) : Range := t.ranges.getD j .free

def value (t : Tableau) (j : Nat) : Rat := t.values.getD j 0

/-- Moves a variable that is not basic, and every basic one with it. -/
def shift (t : Tableau) (j : Nat) (distance : Rat) : Tableau :=
  let add (values : Array Rat) (i : Nat) (x : Rat) := values.setIfInBounds i (values.getD i 0 + x)
  let values := t.rows.foldl (fun values (b, f) =>
    let a := f.coefficient j
    if a = 0 then values else add values b (a * distance)) t.values
  { t with values := add values j distance }

/-- Solves the row of `b` for `j`, which takes its place in the basis. -/
def pivot (t : Tableau) (b : Nat) (f : Form) (j : Nat) : Tableau :=
  let a := f.coefficient j
  let solved := Form.addScaled a⁻¹ ((f.erase j).scale (-a⁻¹)) [(b, 1)]
  { t with
    rows := t.rows.map fun (c, g) => if c = b then (j, solved) else (c, g.substitute j solved)
    cost := t.cost.substitute j solved }

/-- The lesser of two candidates by their first component. -/
def least {β : Type} (candidates : List (Nat × β)) : Option (Nat × β) :=
  candidates.foldl (fun best c =>
    match best with
    | none => some c
    | some b => if c.1 < b.1 then some c else some b) none

/-- The first basic variable outside its range. -/
def violated? (t : Tableau) : Option (Nat × Form × Rat) :=
  least (t.rows.filterMap fun (b, f) =>
    let gap := (t.range b).gap (t.value b)
    if gap = 0 then none else some (b, f, gap))

/-- Whether a variable may move so that a form grows or falls. -/
def canMove (t : Tableau) (upwards : Bool) (j : Nat) (a : Rat) : Bool :=
  if decide (0 < a) == upwards then (t.range j).allowsMore (t.value j)
  else (t.range j).allowsLess (t.value j)

/-- Brings every variable into its range, taking the first variable where there is a choice, so that no
basis comes back. None if a row cannot be met. -/
def repair : (fuel : Nat) → Tableau → Option Tableau
  | 0, _ => none
  | fuel + 1, t =>
    match t.violated? with
    | none => some t
    | some (b, f, gap) =>
      match f.find? fun (j, a) => t.canMove (0 < gap) j a with
      | none => none
      | some (j, a) => repair fuel ((t.shift j (gap / a)).pivot b f j)

/-- The first variable whose move lowers the cost, and its direction. -/
def entering? (t : Tableau) : Option (Nat × Rat) :=
  (t.cost.find? fun (j, a) => t.canMove false j a).map fun (j, a) => (j, if 0 < a then -1 else 1)

/-- The basic variables that stop a move, with the distance at which they do. -/
def stops (t : Tableau) (j : Nat) (direction : Rat) : List (Nat × Form × Rat) :=
  t.rows.filterMap fun (b, f) =>
    ((t.range b).room (t.value b) (f.coefficient j * direction)).map fun d => (b, f, d)

/-- The nearest stop, the first variable among equals. -/
def nearest (stops : List (Nat × Form × Rat)) : Option (Nat × Form × Rat) :=
  stops.foldl (fun best s =>
    match best with
    | none => some s
    | some b =>
      if b.2.2 < s.2.2 then some b
      else if s.2.2 < b.2.2 || s.1 < b.1 then some s
      else some b) none

/-- Lowers the cost as far as it goes from values inside their ranges. None if it falls forever. -/
def minimise : (fuel : Nat) → Tableau → Option Tableau
  | 0, t => some t
  | fuel + 1, t =>
    match t.entering? with
    | none => some t
    | some (j, direction) =>
      let own := (t.range j).room (t.value j) direction
      match nearest (t.stops j direction), own with
      | none, none => none
      | none, some d => minimise fuel (t.shift j (d * direction))
      | some (b, f, d), own =>
        if own.any (· ≤ d) then minimise fuel (t.shift j (own.getD 0 * direction))
        else minimise fuel ((t.shift j (d * direction)).pivot b f j)

/-- No basis comes back, and a basis is a choice among the variables together with the end at which each of
the others rests. -/
def fuel (t : Tableau) : Nat := Nat.pow 3 t.ranges.size + 1

end Tableau

end MixedInteger
