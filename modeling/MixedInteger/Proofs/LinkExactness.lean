import MixedInteger.Lowering.BinaryOr
import MixedInteger.Proofs.Doubles

/-!
Links are lowered exactly, over doubles as over rationals. The closing sum runs over any number of operands and may
round, and it may count one variable several times or the result itself; but once it is at most zero no operand can
lift it again.
-/

namespace MixedInteger

open Scalar

section Bits

variable {α : Type} [Scalar α]

/-- A value that a binary variable may take. Doubles have two zeros. -/
def Scalar.IsZeroOrOne (x : α) : Prop := (x == 0) = true ∨ (x == 1) = true

instance (x : α) : Decidable (IsZeroOrOne x) := inferInstanceAs (Decidable (_ ∨ _))

/-- What a closing sum has come to: it is one as long as nothing but the result has been counted, and then at most
zero. -/
def Scalar.ComesTo (alone : Bool) (s : α) : Prop := if alone then s = 1 else s ≤ 0

instance [DecidableEq α] (alone : Bool) (s : α) : Decidable (ComesTo alone s) :=
  inferInstanceAs (Decidable (if alone then s = 1 else s ≤ 0))

/-- Arithmetic that tells bits apart, as far as rows of links need it. -/
structure Scalar.TellsBits (bits : List α) : Prop where
  all : ∀ x : α, IsZeroOrOne x → x ∈ bits
  half : ∀ x ∈ bits, BinaryOr.half < x ↔ (x == 1) = true
  near : ∀ x ∈ bits, ∀ on : Bool, Scalar.abs (x - if on then 1 else 0) ≤ 0 ↔ (x == 1) = on
  covers : ∀ x ∈ bits, ∀ y ∈ bits,
    Relation.ge.holds (Scalar.sum [1 * x, -1 * y]) 0 0 = true ↔ ((y == 1) = true → (x == 1) = true)
  start : ∀ x ∈ bits, ComesTo (x == 1) (emptySum + 1 * x)
  strike : ∀ x ∈ bits, ComesTo (!(x == 1)) (1 + -1 * x)
  lowers : ∀ x ∈ bits, -1 * x ≤ 0
  above : ¬ (1 - 0 : α) ≤ 0
  add : ∀ s t : α, s ≤ 0 → t ≤ 0 → s + t ≤ 0
  sub : ∀ s : α, s ≤ 0 → s - 0 ≤ 0

namespace Scalar.TellsBits

variable {bits : List α} {alone : Bool} {s : α}

theorem step (tells : TellsBits bits) (h : ComesTo alone s) {x : α} (hx : x ∈ bits) :
    ComesTo (alone && !(x == 1)) (s + -1 * x) := by
  cases alone with
  | true =>
    obtain rfl : s = 1 := h
    exact tells.strike x hx
  | false => exact tells.add _ _ h (tells.lowers x hx)

theorem finish (tells : TellsBits bits) (h : ComesTo alone s) :
    Relation.le.holds s 0 0 = true ↔ alone = false := by
  cases alone with
  | true =>
    obtain rfl : s = 1 := h
    exact iff_of_false (fun held => tells.above (of_decide_eq_true held)) nofun
  | false => exact iff_of_true (decide_eq_true (tells.sub s h)) rfl

/-- Each operand that is one strikes the result off, and the end of the sum tells whether there was any. -/
theorem closing_iff (tells : TellsBits bits) {xs : List α} (inside : ∀ x ∈ xs, x ∈ bits) (h : ComesTo alone s) :
    Relation.le.holds ((xs.map (-1 * ·)).foldl (· + ·) s) 0 0 = true ↔
      (alone = true → ∃ x ∈ xs, (x == 1) = true) := by
  induction xs generalizing alone s with
  | nil =>
    rw [List.map_nil, List.foldl_nil, tells.finish h]
    simp
  | cons x xs ih =>
    obtain ⟨hx, inside⟩ := List.forall_mem_cons.mp inside
    rw [List.map_cons, List.foldl_cons, ih inside (tells.step h hx)]
    cases one : x == 1 <;> simp [one]

end Scalar.TellsBits

end Bits

theorem Double.bits {x : Float} (h : IsZeroOrOne x) : x ∈ [0, -0, (1 : Float)] := by
  have others : (1 : Float) ≠ 0 ∧ (1 : Float) ≠ -0 := by decide +kernel
  rcases h with h | h
  all_goals
    rw [Float.beq_iff_ne_nan_and_eq] at h
    obtain ⟨-, -, rfl | ⟨rfl, other⟩ | ⟨rfl, other⟩⟩ := h
  all_goals first | exact absurd other others.1 | exact absurd other others.2 | simp

theorem Double.tellsBits : TellsBits [0, -0, (1 : Float)] where
  all _ := bits
  half := by decide +kernel
  near := by decide +kernel
  covers := by decide +kernel
  start := by decide +kernel
  strike := by decide +kernel
  lowers := by decide +kernel
  above := by decide +kernel
  add _ _ := add_nonpositive
  sub _ := sub_zero_nonpositive

theorem Rational.tellsBits : TellsBits [0, (1 : Rat)] where
  all x h := by simpa [IsZeroOrOne] using h
  half := by decide +kernel
  near := by decide +kernel
  covers := by decide +kernel
  start := by decide +kernel
  strike := by decide +kernel
  lowers := by decide +kernel
  above := by decide +kernel
  add s t := add_nonpos
  sub s h := by rwa [sub_zero]

namespace BinaryOr

variable {α : Type} [Scalar α]

/-- The rows hold exactly when the link does, and the link holds when the result is one just as some operand is. -/
def LowersExactly (b : BinaryOr α) (values : Assignment α) : Prop :=
  ((∀ r ∈ b.lower, r.isSatisfied values 0 = true) ↔ b.isSatisfied values 0 = true) ∧
    (b.isSatisfied values 0 = true ↔
      ((values b.result.name == 1) = true ↔ ∃ v ∈ b.operands, (values v.name == 1) = true))

theorem lowersExactly {bits : List α} (tells : TellsBits bits) {b : BinaryOr α} {values : Assignment α}
    (binary : ∀ v ∈ b.occurrences, IsZeroOrOne (values v.name)) : b.LowersExactly values := by
  have operand {v : Variable α} (hv : v ∈ b.operands) : values v.name ∈ bits :=
    tells.all _ (binary v (List.mem_append_left _ hv))
  have result : values b.result.name ∈ bits :=
    tells.all _ (binary _ (List.mem_append_right _ List.mem_cons_self))
  have covered (v : Variable α) (hv : v ∈ b.operands) :
      (Comparison.ofLinear [.single 1 b.result, .single (-1) v] .ge 0 defaultMargin).isSatisfied values 0 = true ↔
        ((values v.name == 1) = true → (values b.result.name == 1) = true) :=
    tells.covers _ result _ (operand hv)
  have closed : (Comparison.ofLinear (.single 1 b.result :: b.operands.map (.single (-1))) .le 0
      defaultMargin).isSatisfied values 0 = true ↔
        ((values b.result.name == 1) = true → ∃ v ∈ b.operands, (values v.name == 1) = true) := by
    have inside : ∀ x ∈ b.operands.map fun v => values v.name, x ∈ bits := List.forall_mem_map.mpr fun v => operand
    have summed := tells.closing_iff inside (tells.start _ result)
    simp only [List.map_map, List.mem_map, exists_exists_and_eq_and] at summed
    have terms : (b.operands.map (Term.single (-1))).map (fun t => t.eval values) =
        b.operands.map ((-1 * ·) ∘ fun v => values v.name) := List.map_map
    rw [← summed, ← terms]
    rfl
  have rows : (∀ r ∈ b.lower, r.isSatisfied values 0 = true) ↔
      ((values b.result.name == 1) = true ↔ ∃ v ∈ b.operands, (values v.name == 1) = true) := by
    rw [lower, List.forall_mem_append, List.forall_mem_map, List.forall_mem_singleton, closed, forall₂_congr covered]
    constructor
    · rintro ⟨covers, closes⟩
      refine ⟨closes, ?_⟩
      rintro ⟨v, hv, on⟩
      exact covers v hv on
    · exact fun same => ⟨fun v hv on => same.mpr ⟨v, hv, on⟩, same.mp⟩
  have link : b.isSatisfied values 0 = true ↔
      ((values b.result.name == 1) = true ↔ ∃ v ∈ b.operands, (values v.name == 1) = true) := by
    have any : b.operands.any (fun v => half < values v.name) = true ↔
        ∃ v ∈ b.operands, (values v.name == 1) = true := by
      simp only [List.any_eq_true, decide_eq_true_eq]
      exact exists_congr fun v => and_congr_right fun hv => tells.half _ (operand hv)
    unfold isSatisfied
    rw [← any, ← Bool.eq_iff_iff, decide_eq_true_iff]
    exact tells.near _ result _
  exact ⟨rows.trans link.symm, link⟩

/-- Over bits the rows of a link hold exactly when the link does. Nothing is asked of the operands: they may be none
or any number, with repetitions, and the result may be one of them. -/
theorem lower_agrees :
    (∀ (b : BinaryOr Float) (values : Assignment Float),
      (∀ v ∈ b.occurrences, IsZeroOrOne (values v.name)) → b.LowersExactly values) ∧
    ∀ (b : BinaryOr Rat) (values : Assignment Rat),
      (∀ v ∈ b.occurrences, IsZeroOrOne (values v.name)) → b.LowersExactly values :=
  ⟨fun _ _ => lowersExactly Double.tellsBits, fun _ _ => lowersExactly Rational.tellsBits⟩

section Entangled

variable {α : Type} [Scalar α]

/-- An operand is repeated, and the result is an operand of its own. -/
def entangled : BinaryOr α := ⟨[.binary "a", .binary "a", .binary "r"], .binary "r"⟩

/-- Only `a` is one. -/
def withoutResult : Assignment α := fun name => if name == "a" then 1 else 0

end Entangled

theorem entangled_exact :
    (∀ v ∈ (entangled : BinaryOr Float).occurrences, IsZeroOrOne (withoutResult v.name : Float)) ∧
      (entangled : BinaryOr Float).LowersExactly withoutResult ∧
      (entangled : BinaryOr Float).isSatisfied withoutResult 0 = false ∧
      (∀ v ∈ (entangled : BinaryOr Rat).occurrences, IsZeroOrOne (withoutResult v.name : Rat)) ∧
      (entangled : BinaryOr Rat).LowersExactly withoutResult := by
  have binary : ∀ v ∈ (entangled : BinaryOr Float).occurrences, IsZeroOrOne (withoutResult v.name : Float) := by
    decide +kernel
  have binary' : ∀ v ∈ (entangled : BinaryOr Rat).occurrences, IsZeroOrOne (withoutResult v.name : Rat) := by
    decide +kernel
  exact ⟨binary, lower_agrees.1 _ _ binary, by decide +kernel, binary', lower_agrees.2 _ _ binary'⟩

end BinaryOr
end MixedInteger
