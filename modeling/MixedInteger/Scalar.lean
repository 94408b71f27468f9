/-!
The numbers a model is written in. A model only adds, multiplies, compares and rounds, so every
definition of the library is stated over `Scalar`: doubles run, exact rationals are reasoned about.
-/

namespace MixedInteger

class Scalar (α : Type) extends Zero α, One α, Add α, Sub α, Mul α, Neg α, LE α, LT α, BEq α where
  /-- The unit of addition, from which a sum starts. Doubles have two zeros and only the negative one
  leaves every summand as it is. -/
  emptySum : α
  abs : α → α
  /-- The nearest integer, a half going away from zero. -/
  round : α → α
  /-- The nearest number. -/
  ofRat : Rat → α
  /-- The exact value, when the number has one. -/
  toRat? : α → Option Rat
  /-- A total order that refines `≤`. Sorting needs one even where `≤` leaves numbers apart. -/
  precedes : α → α → Bool
  decLE : DecidableLE α
  decLT : DecidableLT α

namespace Scalar

variable {α : Type} [Scalar α]

instance : DecidableLE α := Scalar.decLE
instance : DecidableLT α := Scalar.decLT

def two : α := 1 + 1

/-- Summands are added from the left. -/
def sum (xs : List α) : α := xs.foldl (· + ·) emptySum

end Scalar

namespace Rational

/-- The nearest integer, a half going away from zero. -/
def roundHalfAway (x : Rat) : Int := if x < 0 then -(-x + 1 / 2).floor else (x + 1 / 2).floor

/-- The nearest integer, a half going to the even neighbour. -/
def roundHalfEven (x : Rat) : Int :=
  let below := x.floor
  let rest := x - below
  if rest < 1 / 2 then below
  else if rest > 1 / 2 then below + 1
  else if below % 2 = 0 then below
  else below + 1

end Rational

instance : Scalar Rat where
  zero := 0
  one := 1
  emptySum := 0
  abs := Rat.abs
  round x := Rational.roundHalfAway x
  ofRat x := x
  toRat? := some
  precedes x y := decide (x ≤ y)
  decLE := inferInstance
  decLT := inferInstance

theorem Scalar.sum_rat (xs : List Rat) : Scalar.sum xs = xs.sum := by
  have from_start : ∀ a : Rat, xs.foldl (· + ·) a = a + xs.sum := by
    induction xs with
    | nil => exact fun a => (Rat.add_zero a).symm
    | cons x xs ih =>
      intro a
      rw [List.foldl_cons, ih, List.sum_cons, Rat.add_assoc]
  exact (from_start 0).trans (Rat.zero_add _)

end MixedInteger
