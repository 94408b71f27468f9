import MixedInteger.Scalar

/-!
Doubles as numbers of a model, and their exact values as significand and binary exponent.
-/

namespace MixedInteger

/-- The value `significand * 2 ^ exponent`. -/
structure Dyadic where
  significand : Nat
  exponent : Int

namespace Dyadic

def toRat (d : Dyadic) : Rat := d.significand * (2 : Rat) ^ d.exponent

/-- Least exponent of a double. Below the first power of two that needs it the significands have
fewer than 53 bits. -/
def leastExponent : Int := -1074

/-- The first of the significands with 53 bits. -/
def leadingBit : Nat := 0x10000000000000

/-- The significand with its leading bit alone: the next double below is only half a step away,
unless the exponent is already the least. -/
def isPowerOfTwo (d : Dyadic) : Bool :=
  d.significand == leadingBit && d.exponent != leastExponent

/-- The bits of infinity: all those of the exponent. -/
def infiniteBits : Nat := 0x7ff0000000000000

/-- The bits of a magnitude. A significand that has the leading bit counts the exponent up by itself, and what
is beyond the last double is infinite. -/
def bits (d : Dyadic) : Nat :=
  min ((d.exponent - leastExponent).toNat * leadingBit + d.significand) infiniteBits

end Dyadic

namespace Double

def signBit : Nat := 0x8000000000000000

def isNegative (x : Float) : Bool := x.toBits >>> 63 == 1

/-- Magnitude of a double, none for an infinity and for what is not a number. -/
def magnitude? (x : Float) : Option Dyadic :=
  let exponent := ((x.toBits >>> 52) &&& 0x7ff).toNat
  let fraction := (x.toBits &&& 0xfffffffffffff).toNat
  if exponent = 0x7ff then none
  else if exponent = 0 then some ⟨fraction, Dyadic.leastExponent⟩
  else some ⟨fraction + Dyadic.leadingBit, Dyadic.leastExponent + (exponent - 1 : Nat)⟩

def toRat? (x : Float) : Option Rat :=
  (magnitude? x).map fun d => if isNegative x then -d.toRat else d.toRat

/-- Bit patterns in the order of the numbers they stand for: negative ones reversed and below the
positive ones. -/
def rank (x : Float) : UInt64 :=
  if isNegative x then ~~~x.toBits else x.toBits ||| 0x8000000000000000

/-- Exponent of the last place that a double keeps of a positive rational. -/
def lastPlace (x : Rat) : Int :=
  let estimate := (x.num.natAbs.log2 : Int) - x.den.log2
  let leading := if (2 : Rat) ^ estimate ≤ x then estimate else estimate - 1
  max (leading - 52) Dyadic.leastExponent

/-- The nearest double, a tie going to the even significand. -/
def ofRat (x : Rat) : Float :=
  if x = 0 then 0
  else
    let place := lastPlace x.abs
    let significand := Rational.roundHalfEven (x.abs * (2 : Rat) ^ (-place))
    let magnitude := Dyadic.bits ⟨significand.toNat, place⟩
    .ofBits (.ofNat (if x < 0 then signBit + magnitude else magnitude))

end Double

instance : Scalar Float where
  zero := 0
  one := 1
  emptySum := -0
  abs := Float.abs
  round := Float.round
  ofRat := Double.ofRat
  toRat? := Double.toRat?
  precedes x y := Double.rank x ≤ Double.rank y
  decLE := inferInstance
  decLT := inferInstance

end MixedInteger
