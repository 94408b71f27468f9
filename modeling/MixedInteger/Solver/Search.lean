import MixedInteger.Solver.Model
import MixedInteger.Solver.Simplex

/-!
Exact search for the best values of a model: linear programs, split where an integer column is off the
integers.
-/

namespace MixedInteger

/-- A model over the rationals, its cost to be made small. Columns come before the variables of the rows. -/
structure Program where
  costs : List Rat
  /-- The range of each column, and whether only integers of it count. -/
  columns : List (Range × Bool)
  rows : List (Form × Range)

namespace Program

/-- A number as an end of a range. -/
inductive Limit where
  | at (x : Rat)
  | below
  | above

variable {α : Type} [Scalar α]

/-- None for what is not a number. -/
def limit? (x : α) : Option Limit :=
  match Scalar.toRat? x with
  | some r => some (.at r)
  | none => if x < 0 then some .below else if 0 < x then some .above else none

/-- A range that no number is in. -/
def nowhere : Range := ⟨some 1, some 0⟩

def rangeOf (low high : Limit) : Range :=
  match low, high with
  | .at l, .at u => ⟨some l, some u⟩
  | .at l, .above => ⟨some l, none⟩
  | .below, .at u => ⟨none, some u⟩
  | .below, .above => .free
  | .above, _ | _, .below => nowhere

def columnRange? : ColumnDomain α → Option (Range × Bool)
  | .binary => some (⟨some 0, some 1⟩, true)
  | .integer low high => some (⟨some low, some high⟩, true)
  | .real low high => do return (rangeOf (← limit? low) (← limit? high), false)

def rowRange? (relation : Relation) (rhs : α) : Option Range := do
  let limit ← limit? rhs
  match relation with
  | .le => return rangeOf .below limit
  | .ge => return rangeOf limit .above
  | .eq => return rangeOf limit limit
  | _ => none

def form? (coefficients : List (Nat × α)) : Option Form := do
  let weights ← coefficients.mapM fun (j, a) => (Scalar.toRat? a).map fun r => (j, r)
  return .ofWeights weights

/-- The exact reading of a model, none if some number of it is not one. -/
def ofModel? (m : Model α) : Option Program := do
  let costs ← m.columns.mapM (Scalar.toRat? ·.cost)
  let columns ← m.columns.mapM (columnRange? ·.domain)
  let rows ← m.rows.mapM fun r => do return (← form? r.coefficients, ← rowRange? r.relation r.rhs)
  return ⟨match m.sense with | .minimise => costs | .maximise => costs.map (-·), columns, rows⟩

/-- Some range holds no number. -/
def hasEmptyRange (p : Program) : Bool :=
  let isEmpty (r : Range) := match r.lower, r.upper with
    | some l, some u => u < l
    | _, _ => false
  p.columns.any (isEmpty ·.1) || p.rows.any (isEmpty ·.2)

/-- Columns rest at an end of their range, and the variables of the rows are basic. -/
def tableau (p : Program) : Tableau :=
  let n := p.columns.length
  let starts := p.columns.map (·.1.start)
  let startAt (j : Nat) := starts.getD j 0
  { rows := p.rows.zipIdx.map fun ((f, _), i) => (n + i, f)
    cost := .ofWeights (p.costs.zipIdx.map fun (c, j) => (j, c))
    ranges := (p.columns.map (·.1) ++ p.rows.map (·.2)).toArray
    values := (starts ++ p.rows.map (Form.eval ·.1 startAt)).toArray }

def cost (p : Program) (values : List Rat) : Rat :=
  (p.costs.zipWith (· * ·) values).foldl (· + ·) 0

/-- What a search knows so far: the best cost with its values. -/
abbrev Best := Option (Rat × List Rat)

/-- How a search ends. -/
inductive Outcome where
  | unbounded
  | found (best : Best)

/-- The last integer column off the integers. Auxiliaries come last, and settling them settles the columns
they were made for. -/
def fractional? (p : Program) (t : Tableau) : Option (Nat × Rat) :=
  p.columns.zipIdx.reverse.findSome? fun ((_, isIntegral), j) =>
    let x := t.value j
    if isIntegral && x.den != 1 then some (j, x) else none

def withRange (t : Tableau) (j : Nat) (range : Range) : Tableau :=
  { t with ranges := t.ranges.setIfInBounds j range }

/-- The two parts of a range on either side of a number that is no integer, the nearer one first. -/
def split (r : Range) (x : Rat) : Range × Range :=
  let below := { r with upper := some x.floor }
  let above := { r with lower := some x.ceil }
  if x - x.floor < 1 / 2 then (below, above) else (above, below)

/-- Searches below a tableau for something better than what is known. A split leaves every integer in one
of the parts and makes the range of a column smaller, which bounds the depth. -/
def search (p : Program) : (fuel : Nat) → Tableau → Best → Outcome
  | 0, _, best => .found best
  | fuel + 1, t, best =>
    match t.repair t.fuel with
    | none => .found best
    | some t =>
      match t.minimise t.fuel with
      | none => .unbounded
      | some t =>
        let values := (List.range p.columns.length).map t.value
        let cost := p.cost values
        if best.any (·.1 ≤ cost) then .found best
        else
          match p.fractional? t with
          | none => .found (some (cost, values))
          | some (j, x) =>
            let (first, second) := split (t.range j) x
            match search p fuel (withRange t j first) best with
            | .unbounded => .unbounded
            | .found best => search p fuel (withRange t j second) best

/-- More than the number of times that integer columns can be split. -/
def depth (p : Program) : Nat :=
  p.columns.foldl (fun s (r, isIntegral) =>
    match isIntegral, r.lower, r.upper with
    | true, some l, some u => s + (u - l).ceil.toNat
    | _, _, _ => s) 1

/-- The outcome for a model whose cost falls forever as a linear program: it does so for the integers too,
unless they meet no point at all. -/
def solve (p : Program) : Outcome :=
  if p.hasEmptyRange then .found none
  else
    match search p p.depth p.tableau none with
    | .found best => .found best
    | .unbounded =>
      let still := { p with costs := p.costs.map fun _ => 0 }
      match search still still.depth still.tableau none with
      | .found none => .found none
      | _ => .unbounded

end Program

/-- Exact search in the numbers of the model. -/
def exactEngine {α : Type} [Scalar α] : Engine α := fun m =>
  match Program.ofModel? m with
  | none => .failed "the model has a coefficient or a bound that is not a number"
  | some p =>
    match p.solve with
    | .unbounded => .unbounded
    | .found none => .infeasible
    | .found (some (cost, values)) =>
      let cost := match m.sense with
        | .minimise => cost
        | .maximise => -cost
      .optimal (Scalar.ofRat cost) (values.map Scalar.ofRat)

end MixedInteger
