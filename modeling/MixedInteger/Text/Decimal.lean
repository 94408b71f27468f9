import MixedInteger.Scalar.Double

/-!
Decimal text of numbers. A double is written with the fewest digits that read back as itself, always
positionally; results of a search are written with a fixed number of places.
-/

namespace MixedInteger.Decimal

/-- The reals that read back as one double. A real half-way between two doubles reads as the one with the
even significand, so the ends belong to the interval exactly then. -/
structure Interval where
  value : Rat
  lower : Rat
  upper : Rat
  closed : Bool

namespace Interval

def ofDyadic (d : Dyadic) : Interval :=
  let quarter := (2 : Rat) ^ (d.exponent - 2)
  let value := d.toRat
  { value
    lower := value - (if d.isPowerOfTwo then quarter else 2 * quarter)
    upper := value + 2 * quarter
    closed := d.significand % 2 == 0 }

def contains (i : Interval) (x : Rat) : Bool :=
  if i.closed then i.lower ≤ x && x ≤ i.upper else i.lower < x && x < i.upper

/-- The multiple of `10 ^ k` nearest to the value among those that read back, as a count of steps. If any
multiple reads back then so does one of the two around the value. A tie goes up. -/
def nearest? (i : Interval) (k : Int) : Option Nat :=
  let step := (10 : Rat) ^ k
  let below := (i.value / step).floor
  let low := below * step
  let high := (below + 1) * step
  match i.contains low, i.contains high with
  | true, true => some (if i.value - low < high - i.value then below else below + 1).toNat
  | true, false => some below.toNat
  | false, true => some (below + 1).toNat
  | false, false => none

/-- The coarsest grid with a hit, trying `fuel` grids from `10 ^ k` down. Seventeen digits always read back. -/
def shortest (i : Interval) : (fuel : Nat) → (k : Int) → Nat × Int
  | 0, k => ((i.value / (10 : Rat) ^ k).floor.toNat, k)
  | fuel + 1, k =>
    match i.nearest? k with
    | some count => (count, k)
    | none => shortest i fuel (k - 1)

end Interval

/-- Exponent of a power of ten above every double with 53 bits at the given binary exponent: 0.30103 is
just above the decimal logarithm of two. -/
def firstGrid (exponent : Int) : Int := (exponent + 53) * 30103 / 100000 + 1

def digits (n : Nat) : List Char := Nat.toDigits 10 n

/-- `count * 10 ^ (-places)` with a point before the last `places` digits. -/
def withPoint (count places : Nat) : List Char :=
  if places = 0 then digits count
  else
    let ds := digits count
    let ds := List.replicate (places + 1 - ds.length) '0' ++ ds
    ds.take (ds.length - places) ++ '.' :: ds.drop (ds.length - places)

/-- `count * 10 ^ k` without an exponent. -/
def positional (count : Nat) : (k : Int) → List Char
  | .ofNat zeros => digits count ++ List.replicate zeros '0'
  | .negSucc places => withPoint count (places + 1)

def ofDyadic (d : Dyadic) : List Char :=
  if d.significand = 0 then ['0']
  else
    let (count, k) := (Interval.ofDyadic d).shortest 25 (firstGrid d.exponent)
    positional count k

/-- Text of a double that has no digits. -/
def special (x : Float) : String :=
  if x.isNaN then "NaN" else if Double.isNegative x then "-inf" else "inf"

def ofFloat (x : Float) : String :=
  match Double.magnitude? x with
  | none => special x
  | some d => String.ofList (if Double.isNegative x then '-' :: ofDyadic d else ofDyadic d)

/-- A rational with exactly `places` decimals. What rounds to zero has no sign. -/
def fixed (places : Nat) (x : Rat) : String :=
  let scaled := Rational.roundHalfEven (x.abs * (10 : Rat) ^ places)
  let text := withPoint scaled.toNat places
  String.ofList (if x < 0 ∧ scaled ≠ 0 then '-' :: text else text)

/-- A double with exactly `places` decimals. -/
def fixedFloat (places : Nat) (x : Float) : String :=
  match Double.toRat? x with
  | none => special x
  | some r => fixed places r

end MixedInteger.Decimal

namespace MixedInteger

/-- Numbers that can be written in messages and displayed models. -/
class DecimalText (α : Type) where
  text : α → String

instance : DecimalText Float := ⟨Decimal.ofFloat⟩

end MixedInteger
