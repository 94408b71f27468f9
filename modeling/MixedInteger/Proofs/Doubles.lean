import Mathlib
import MixedInteger.Scalar.Double
import MixedInteger.Solver.Search

/-!
Doubles read through their bits: which of them are equal, which whole numbers are among them, and the sign of a sum.
-/

namespace MixedInteger

/-- The one way in which a double writes a magnitude: with the leading bit, unless the exponent is the least. -/
structure Dyadic.Normal (d : Dyadic) : Prop where
  fits : d.significand < 2 * leadingBit
  least : leastExponent ≤ d.exponent
  leading : leadingBit ≤ d.significand ∨ d.exponent = leastExponent

namespace Dyadic

theorem toRat_nonneg (d : Dyadic) : 0 ≤ d.toRat := by
  unfold toRat
  positivity

/-- Below the leading bit of the greater exponent there is nothing of the smaller one left. -/
theorem Normal.toRat_lt {d e : Dyadic} (hd : d.Normal) (he : e.Normal) (less : d.exponent < e.exponent) :
    d.toRat < e.toRat := by
  have leading : leadingBit ≤ e.significand := he.leading.resolve_right fun least => by
    have := hd.least
    omega
  have step : (2 : Rat) ^ e.exponent = 2 ^ (e.exponent - d.exponent - 1).toNat * 2 * 2 ^ d.exponent := by
    rw [← pow_succ, ← zpow_natCast, ← zpow_add₀ (by norm_num)]
    congr 1
    omega
  have positive : (0 : Rat) < 2 ^ d.exponent := by positivity
  unfold toRat
  rw [step, ← mul_assoc]
  refine mul_lt_mul_of_pos_right ?_ positive
  have carried : d.significand < e.significand * (2 ^ (e.exponent - d.exponent - 1).toNat * 2) := by
    calc d.significand < leadingBit * 2 := by rw [Nat.mul_comm]; exact hd.fits
      _ ≤ e.significand * 2 := Nat.mul_le_mul_right 2 leading
      _ ≤ e.significand * (2 ^ (e.exponent - d.exponent - 1).toNat * 2) :=
          Nat.mul_le_mul_left _ (Nat.le_mul_of_pos_left 2 (by positivity))
  exact_mod_cast carried

theorem Normal.eq_of_toRat {d e : Dyadic} (hd : d.Normal) (he : e.Normal) (same : d.toRat = e.toRat) : d = e := by
  rcases lt_trichotomy d.exponent e.exponent with less | exponents | greater
  · exact absurd same (hd.toRat_lt he less).ne
  · unfold toRat at same
    rw [exponents, mul_left_inj' (by positivity)] at same
    have significands : d.significand = e.significand := Nat.cast_inj.mp same
    cases d
    cases e
    simp only at exponents significands
    rw [exponents, significands]
  · exact absurd same.symm (he.toRat_lt hd greater).ne

theorem Normal.bits_eq_zero {d : Dyadic} (h : d.Normal) (zero : d.toRat = 0) : d.bits = 0 := by
  have significand : d.significand = 0 := by
    have nonzero : (2 : Rat) ^ d.exponent ≠ 0 := by positivity
    exact_mod_cast (mul_eq_zero.mp zero).resolve_right nonzero
  have least : d.exponent = leastExponent := h.leading.resolve_left fun leading => by
    rw [significand] at leading
    exact absurd leading (by decide)
  rw [bits, significand, least, Int.sub_self]
  rfl

end Dyadic

namespace Double

theorem toNat_toBits_inj {x y : Float} : x.toBits.toNat = y.toBits.toNat ↔ x = y :=
  UInt64.toNat_inj.trans Float.toBits_inj

theorem isNegative_iff {x : Float} : isNegative x = true ↔ signBit ≤ x.toBits.toNat := by
  have bound := x.toBits.toNat_lt
  rw [isNegative, beq_iff_eq, ← UInt64.toNat_inj, UInt64.toNat_shiftRight, Nat.shiftRight_eq_div_pow]
  change x.toBits.toNat / 2 ^ 63 = 1 ↔ 2 ^ 63 ≤ x.toBits.toNat
  omega

/-- The fields of a double, without the sign. -/
theorem magnitude?_eq (x : Float) : magnitude? x =
    let exponent := x.toBits.toNat / 0x10000000000000 % 0x800
    let fraction := x.toBits.toNat % 0x10000000000000
    if exponent = 0x7ff then none
    else if exponent = 0 then some ⟨fraction, Dyadic.leastExponent⟩
    else some ⟨fraction + Dyadic.leadingBit, Dyadic.leastExponent + (exponent - 1 : Nat)⟩ := by
  have exponent : ((x.toBits >>> 52) &&& 0x7ff).toNat = x.toBits.toNat / 0x10000000000000 % 0x800 := by
    rw [UInt64.toNat_and, UInt64.toNat_shiftRight, Nat.shiftRight_eq_div_pow]
    exact Nat.and_two_pow_sub_one_eq_mod _ 11
  have fraction : (x.toBits &&& 0xfffffffffffff).toNat = x.toBits.toNat % 0x10000000000000 := by
    rw [UInt64.toNat_and]
    exact Nat.and_two_pow_sub_one_eq_mod _ 52
  simp only [magnitude?, exponent, fraction]

/-- A magnitude is written in one way, and its bits are those of the double. -/
theorem magnitude?_normal {x : Float} {d : Dyadic} (h : magnitude? x = some d) :
    d.Normal ∧ d.bits = x.toBits.toNat % signBit := by
  rw [magnitude?_eq] at h
  generalize x.toBits.toNat = n at h ⊢
  dsimp only at h
  split at h
  · cases h
  split at h
  · obtain rfl := Option.some.inj h
    refine ⟨⟨?_, le_rfl, .inr rfl⟩, ?_⟩
    all_goals simp only [Dyadic.bits, Dyadic.leadingBit, Dyadic.infiniteBits, signBit]
    all_goals omega
  · obtain rfl := Option.some.inj h
    refine ⟨⟨?_, ?_, .inl (Nat.le_add_left _ _)⟩, ?_⟩
    all_goals simp only [Dyadic.bits, Dyadic.leadingBit, Dyadic.infiniteBits, signBit]
    all_goals omega

open Float.Model.UnpackedFloat in
/-- Only one double is no number. -/
theorem eq_nan_of_fields {x : Float} (exponent : x.toBits.toNat / 0x10000000000000 % 0x800 = 0x7ff)
    (fraction : x.toBits.toNat % 0x10000000000000 ≠ 0) : x = Float.nan := by
  refine Float.toBits_inj.mp (UInt64.toBitVec_inj.mp (x.toModel.valid.eq_packedNaN ?_ ?_))
  · rw [unpackExponent_def, ← BitVec.toNat_inj, BitVec.extractLsb'_toNat, Nat.shiftRight_eq_div_pow]
    exact exponent
  · rw [unpackMantissa_def, Ne, ← BitVec.toNat_inj, BitVec.extractLsb'_toNat, Nat.shiftRight_zero]
    exact fraction

/-- Beside the finite doubles there are two infinities and one double that is no number. -/
theorem magnitude?_eq_none {x : Float} (h : magnitude? x = none) :
    x = Float.nan ∨ x = Float.inf ∨ x = -Float.inf := by
  have bound := x.toBits.toNat_lt
  rw [magnitude?_eq] at h
  dsimp only at h
  have exponent : x.toBits.toNat / 0x10000000000000 % 0x800 = 0x7ff := by
    by_contra finite
    rw [if_neg finite] at h
    split at h <;> cases h
  by_cases fraction : x.toBits.toNat % 0x10000000000000 = 0
  · have bits : x.toBits.toNat = Dyadic.infiniteBits ∨ x.toBits.toNat = signBit + Dyadic.infiniteBits := by
      simp only [Dyadic.infiniteBits, signBit]
      omega
    exact .inr (bits.imp (fun h => toNat_toBits_inj.mp (h.trans (by decide +kernel)))
      fun h => toNat_toBits_inj.mp (h.trans (by decide +kernel)))
  · exact .inl (eq_nan_of_fields exponent fraction)

theorem limit?_nan : Program.limit? Float.nan = none := by
  with_unfolding_all rfl

theorem limit?_inf : Program.limit? Float.inf = some .above := by
  with_unfolding_all rfl

theorem limit?_neg_inf : Program.limit? (-Float.inf) = some .below := by
  with_unfolding_all rfl

theorem limit?_of_toRat? {x : Float} {r : Rat} (h : toRat? x = some r) : Program.limit? x = some (.at r) := by
  have value : Scalar.toRat? x = some r := h
  rw [Program.limit?, value]

theorem limit?_finite {x : Float} {d : Dyadic} (h : magnitude? x = some d) :
    Program.limit? x = some (.at (if isNegative x then -d.toRat else d.toRat)) :=
  limit?_of_toRat? (congrArg (Option.map fun d : Dyadic => if isNegative x then -d.toRat else d.toRat) h)

theorem eq_zero_of_bits {x : Float} (h : x.toBits.toNat % signBit = 0) :
    x = if isNegative x then -0 else 0 := by
  have bound := x.toBits.toNat_lt
  refine toNat_toBits_inj.mp ?_
  split
  · rename_i negative
    rw [isNegative_iff] at negative
    have zero : x.toBits.toNat = signBit := by
      simp only [signBit] at *
      omega
    exact zero.trans (by decide +kernel)
  · rename_i positive
    rw [isNegative_iff] at positive
    have zero : x.toBits.toNat = 0 := by
      simp only [signBit] at *
      omega
    exact zero.trans (by decide +kernel)

/-- Finite doubles of one value are one double, or they are the two zeros. -/
theorem eq_of_toRat? {x y : Float} {r : Rat} (hx : toRat? x = some r) (hy : toRat? y = some r) :
    x = y ∨ x = 0 ∧ y = -0 ∨ x = -0 ∧ y = 0 := by
  obtain ⟨d, hd, value⟩ := Option.map_eq_some_iff.mp hx
  obtain ⟨e, he, value'⟩ := Option.map_eq_some_iff.mp hy
  obtain ⟨normal, bits⟩ := magnitude?_normal hd
  obtain ⟨normal', bits'⟩ := magnitude?_normal he
  have bound := x.toBits.toNat_lt
  have bound' := y.toBits.toNat_lt
  have nonneg := d.toRat_nonneg
  have nonneg' := e.toRat_nonneg
  have alike (magnitudes : d.toRat = e.toRat) (signs : isNegative x = isNegative y) : x = y := by
    rw [← normal.eq_of_toRat normal' magnitudes, bits] at bits'
    rw [Bool.eq_iff_iff, isNegative_iff, isNegative_iff] at signs
    refine toNat_toBits_inj.mp ?_
    simp only [signBit] at *
    omega
  have zeros (zero : d.toRat = 0) (zero' : e.toRat = 0) :
      x = (if isNegative x then -0 else 0) ∧ y = if isNegative y then -0 else 0 :=
    ⟨eq_zero_of_bits (bits.symm.trans (normal.bits_eq_zero zero)),
      eq_zero_of_bits (bits'.symm.trans (normal'.bits_eq_zero zero'))⟩
  -- Of opposite signs the values can only agree at zero.
  cases signX : isNegative x <;> cases signY : isNegative y <;>
    simp only [signX, signY, Bool.false_eq_true, ↓reduceIte] at value value' zeros
  · exact .inl (alike (value.trans value'.symm) (signX.trans signY.symm))
  · exact .inr (.inl (zeros (by linarith) (by linarith)))
  · exact .inr (.inr (zeros (by linarith) (by linarith)))
  · exact .inl (alike (by linarith) (signX.trans signY.symm))

/-- A double is no number, or infinite, or it has a rational value. -/
theorem limit?_cases (x : Float) : x = Float.nan ∨ x = Float.inf ∨ x = -Float.inf ∨
    ∃ r, toRat? x = some r ∧ Program.limit? x = some (.at r) := by
  cases h : magnitude? x with
  | some d => exact .inr (.inr (.inr ⟨_, congrArg (Option.map _) h, limit?_finite h⟩))
  | none => exact (magnitude?_eq_none h).imp_right (Or.imp_right .inl)

theorem exists_limit? {x : Float} (number : x ≠ Float.nan) : ∃ l, Program.limit? x = some l := by
  rcases limit?_cases x with rfl | rfl | rfl | ⟨r, -, reads⟩
  · exact absurd rfl number
  · exact ⟨_, limit?_inf⟩
  · exact ⟨_, limit?_neg_inf⟩
  · exact ⟨_, reads⟩

theorem of_limit? {x : Float} {l : Program.Limit} (h : Program.limit? x = some l) :
    match l with
    | .at r => toRat? x = some r
    | .below => x = -Float.inf
    | .above => x = Float.inf := by
  rcases limit?_cases x with rfl | rfl | rfl | ⟨r, value, reads⟩
  · rw [limit?_nan] at h
    cases h
  · obtain rfl := Option.some.inj (limit?_inf.symm.trans h)
    rfl
  · obtain rfl := Option.some.inj (limit?_neg_inf.symm.trans h)
    rfl
  · obtain rfl := Option.some.inj (reads.symm.trans h)
    exact value

theorem limit?_zeros : Program.limit? (0 : Float) = Program.limit? (-0 : Float) := by
  have plus : magnitude? 0 = some ⟨0, Dyadic.leastExponent⟩ := by with_unfolding_all rfl
  have minus : magnitude? (-0) = some ⟨0, Dyadic.leastExponent⟩ := by with_unfolding_all rfl
  rw [limit?_finite plus, limit?_finite minus]
  simp [Dyadic.toRat]

/-- One number, be it an infinity. What is no number is not the same as anything. -/
def SameNumber (x y : Float) : Prop := ∃ l, Program.limit? x = some l ∧ Program.limit? y = some l

theorem beq_iff_sameNumber {x y : Float} : (x == y) = true ↔ SameNumber x y := by
  rw [Float.beq_iff_ne_nan_and_eq]
  constructor
  · rintro ⟨number, -, same⟩
    obtain ⟨l, hl⟩ := exists_limit? number
    refine ⟨l, hl, ?_⟩
    rcases same with rfl | ⟨rfl, rfl⟩ | ⟨rfl, rfl⟩
    · exact hl
    · exact limit?_zeros ▸ hl
    · exact limit?_zeros ▸ hl
  · rintro ⟨l, hx, hy⟩
    have number {z : Float} (hz : Program.limit? z = some l) : z ≠ Float.nan := by
      rintro rfl
      rw [limit?_nan] at hz
      cases hz
    refine ⟨number hx, number hy, ?_⟩
    cases l with
    | «at» r => exact eq_of_toRat? (of_limit? hx) (of_limit? hy)
    | below => exact .inl ((of_limit? hx).trans (of_limit? hy).symm)
    | above => exact .inl ((of_limit? hx).trans (of_limit? hy).symm)

section Order

theorem toNat_rank (x : Float) : (rank x).toNat =
    if signBit ≤ x.toBits.toNat then 2 * signBit - 1 - x.toBits.toNat else x.toBits.toNat + signBit := by
  have bound := x.toBits.toNat_lt
  unfold rank
  rw [if_congr isNegative_iff rfl rfl]
  split
  · rw [UInt64.toNat_not]
    rfl
  · rename_i positive
    rw [UInt64.toNat_or]
    simp only [signBit] at *
    have := Nat.two_pow_add_eq_or_of_lt (i := 63) (b := x.toBits.toNat) (by omega) 1
    rw [Nat.or_comm]
    exact this.symm.trans (by omega)

theorem rank_inj {x y : Float} : rank x = rank y ↔ x = y := by
  have bound := x.toBits.toNat_lt
  have bound' := y.toBits.toNat_lt
  refine ⟨fun h => toNat_toBits_inj.mp ?_, fun h => h ▸ rfl⟩
  rw [← UInt64.toNat_inj, toNat_rank, toNat_rank] at h
  split at h <;> split at h <;> simp only [signBit] at * <;> omega

/-- The two zeros are neighbours, so what stands between equal doubles is equal to them. -/
theorem beq_of_between {x y z : Float} (low : rank x ≤ rank y) (high : rank y ≤ rank z) (h : (x == z) = true) :
    (x == y) = true := by
  rw [Float.beq_iff_ne_nan_and_eq] at h
  obtain ⟨number, -, same⟩ := h
  have self : (x == x) = true := Float.beq_self_iff.mpr number
  rcases same with rfl | ⟨rfl, rfl⟩ | ⟨rfl, rfl⟩
  · rwa [rank_inj.mp (UInt64.le_antisymm high low)]
  · exact absurd (UInt64.le_trans low high) (by decide +kernel)
  · have zeros : (rank (-0)).toNat + 1 = (rank 0).toNat := by decide +kernel
    rw [UInt64.le_iff_toNat_le] at low high
    have near : (rank y).toNat = (rank (-0)).toNat ∨ (rank y).toNat = (rank 0).toNat := by omega
    rcases near with near | near
    · rwa [rank_inj.mp (UInt64.toNat_inj.mp near)]
    · rw [rank_inj.mp (UInt64.toNat_inj.mp near)]
      decide +kernel

end Order

section Whole

open Float.Model.UnpackedFloat in
theorem toBits_ofBits {b : UInt64} (finite : b.toNat / 0x10000000000000 % 0x800 ≠ 0x7ff) :
    (Float.ofBits b).toBits = b := by
  have number : @isNaNBits .binary64 b.toBitVec = false := by
    rw [isNaNBits, decide_eq_false_iff_not]
    rintro ⟨exponent, -⟩
    rw [unpackExponent_def, ← BitVec.toNat_inj, BitVec.extractLsb'_toNat, Nat.shiftRight_eq_div_pow] at exponent
    exact finite exponent
  refine UInt64.toBitVec_inj.mp ((@pack_unpack .binary64 b.toBitVec (by decide)).trans ?_)
  rw [number]
  rfl

/-- A magnitude can be read back from its bits. -/
theorem magnitude?_ofBits {d : Dyadic} (normal : d.Normal) (finite : d.bits < Dyadic.infiniteBits) :
    magnitude? (.ofBits (.ofNat d.bits)) = some d ∧ isNegative (.ofBits (.ofNat d.bits)) = false := by
  obtain ⟨significand, exponent⟩ := d
  obtain ⟨fits, least, leading⟩ := normal
  obtain ⟨places, rfl⟩ : ∃ places : Nat, exponent = Dyadic.leastExponent + places :=
    ⟨(exponent - Dyadic.leastExponent).toNat, by simp only at least; omega⟩
  simp only [Dyadic.leadingBit] at fits leading
  have bits : (Dyadic.mk significand (Dyadic.leastExponent + places)).bits =
      min (places * 0x10000000000000 + significand) Dyadic.infiniteBits := by
    rw [Dyadic.bits, add_sub_cancel_left]
    rfl
  rw [bits, Nat.min_eq_left (Nat.le_of_not_ge fun h => by rw [bits, Nat.min_eq_right h] at finite; omega)]
  rw [bits] at finite
  generalize written : places * 0x10000000000000 + significand = n at finite ⊢
  have small : n < Dyadic.infiniteBits := by omega
  simp only [Dyadic.infiniteBits] at small
  have word : (UInt64.ofNat n).toNat = n := UInt64.toNat_ofNat_of_lt' (by simp only [UInt64.size]; omega)
  have kept : (Float.ofBits (.ofNat n)).toBits.toNat = n := by
    rw [toBits_ofBits (by rw [word]; omega), word]
  constructor
  · rw [magnitude?_eq, kept]
    dsimp only
    rw [if_neg (by omega)]
    split
    · obtain rfl : places = 0 := by omega
      rw [Nat.zero_mul, Nat.zero_add] at written
      rw [Nat.mod_eq_of_lt (by omega), written, Nat.cast_zero, add_zero]
    · -- The leading bit is added to the exponent's field and counts it up by one.
      have leads : 0x10000000000000 ≤ significand := by
        refine leading.elim id fun least => ?_
        rw [add_eq_left, Nat.cast_eq_zero] at least
        omega
      congr 2
      · simp only [Dyadic.leadingBit]
        omega
      · simp only [add_right_inj, Nat.cast_inj]
        omega
  · rw [← Bool.not_eq_true, isNegative_iff, kept]
    simp only [signBit]
    omega

theorem lastPlace_natCast {n : Nat} (pos : 0 < n) : lastPlace n = max ((n.log2 : Int) - 52) Dyadic.leastExponent := by
  have one : Nat.log2 1 = 0 := by decide
  have leading : (2 : Rat) ^ ((n.log2 : Int) - (1 : Nat).log2) ≤ n := by
    rw [one, Nat.cast_zero, sub_zero, zpow_natCast]
    exact_mod_cast Nat.log2_self_le pos.ne'
  unfold lastPlace
  rw [Rat.num_natCast, Rat.den_natCast, Int.natAbs_natCast]
  dsimp only
  rw [if_pos leading, one, Nat.cast_zero, sub_zero]

theorem roundHalfEven_natCast (n : Nat) : Rational.roundHalfEven n = n := by
  unfold Rational.roundHalfEven
  have below : (n : Rat).floor = n := Rat.floor_intCast n
  dsimp only
  rw [below, Int.cast_natCast, sub_self, if_pos (by norm_num)]

/-- A whole number, shifted until its first digit is the leading bit. -/
def wholeDyadic (n : Nat) : Dyadic := ⟨n * 2 ^ (52 - n.log2), -(52 - n.log2 : Nat)⟩

theorem wholeDyadic_normal {n : Nat} (pos : 0 < n) (fits : n < 2 * Dyadic.leadingBit) : (wholeDyadic n).Normal := by
  have places : n.log2 ≤ 52 := Nat.lt_succ_iff.mp ((Nat.log2_lt pos.ne').mpr fits)
  have low : Dyadic.leadingBit ≤ n * 2 ^ (52 - n.log2) := by
    calc Dyadic.leadingBit = 2 ^ n.log2 * 2 ^ (52 - n.log2) := by
          rw [← pow_add, Nat.add_sub_cancel' places]
          rfl
      _ ≤ n * 2 ^ (52 - n.log2) := Nat.mul_le_mul_right _ (Nat.log2_self_le pos.ne')
  have high : n * 2 ^ (52 - n.log2) < 2 * Dyadic.leadingBit := by
    calc n * 2 ^ (52 - n.log2) < 2 ^ (n.log2 + 1) * 2 ^ (52 - n.log2) :=
          Nat.mul_lt_mul_of_pos_right Nat.lt_log2_self (by positivity)
      _ = 2 * Dyadic.leadingBit := by
          rw [← pow_add, Nat.add_right_comm, Nat.add_sub_cancel' places]
          rfl
  exact ⟨high, by simp only [wholeDyadic, Dyadic.leastExponent]; omega, .inl low⟩

theorem wholeDyadic_finite {n : Nat} (normal : (wholeDyadic n).Normal) :
    (wholeDyadic n).bits < Dyadic.infiniteBits := by
  have high := normal.fits
  simp only [wholeDyadic, Dyadic.bits, Dyadic.leastExponent, Dyadic.leadingBit, Dyadic.infiniteBits] at high ⊢
  omega

theorem wholeDyadic_toRat (n : Nat) : (wholeDyadic n).toRat = n := by
  have cancels : (2 : Rat) ^ (52 - n.log2) * (2 ^ (52 - n.log2))⁻¹ = 1 := mul_inv_cancel₀ (by positivity)
  simp only [wholeDyadic, Dyadic.toRat]
  rw [zpow_neg, zpow_natCast, Nat.cast_mul, Nat.cast_pow, Nat.cast_ofNat, mul_assoc, cancels, mul_one]

/-- Nothing of a whole number stands behind the last place, so there is nothing to round. -/
theorem ofRat_natCast {n : Nat} (pos : 0 < n) (fits : n < 2 * Dyadic.leadingBit) :
    ofRat n = .ofBits (.ofNat (wholeDyadic n).bits) := by
  have places : n.log2 ≤ 52 := Nat.lt_succ_iff.mp ((Nat.log2_lt pos.ne').mpr fits)
  have place : lastPlace (n : Rat).abs = -(52 - n.log2 : Nat) := by
    rw [Rat.abs_of_nonneg n.cast_nonneg, lastPlace_natCast pos, Dyadic.leastExponent]
    omega
  have significand : (n : Rat).abs * (2 : Rat) ^ (-lastPlace (n : Rat).abs) = (n * 2 ^ (52 - n.log2) : Nat) := by
    rw [place, neg_neg, zpow_natCast, Rat.abs_of_nonneg n.cast_nonneg]
    push_cast
    rfl
  unfold ofRat
  rw [if_neg (Nat.cast_ne_zero.mpr pos.ne')]
  dsimp only
  rw [significand, roundHalfEven_natCast, place, Int.toNat_natCast, if_neg (not_lt.mpr n.cast_nonneg), wholeDyadic]

/-- The whole numbers of no more digits than the leading bit are doubles. -/
theorem toRat?_ofRat_natCast {n : Nat} (pos : 0 < n) (fits : n < 2 * Dyadic.leadingBit) :
    toRat? (ofRat n) = some (n : Rat) := by
  have normal := wholeDyadic_normal pos fits
  obtain ⟨magnitude, positive⟩ := magnitude?_ofBits normal (wholeDyadic_finite normal)
  rw [toRat?, ofRat_natCast pos fits, magnitude, positive]
  exact congrArg some (wholeDyadic_toRat n)

end Whole

section Signs

open Float.Model

/-- Neither positive nor undefined. -/
def Nonpositive : UnpackedFloat → Prop
  | .infinity s | .finite s _ _ _ => s = .negative
  | .zero _ => True
  | .notANumber => False

theorem unpack_zero : (0 : Float).toModel.unpack = .zero .positive := by
  with_unfolding_all rfl

theorem le_iff {x y : Float} : x ≤ y ↔ (x.toModel.unpack.compare y.toModel.unpack).any (·.isLE) = true := by
  change decide (x.toModel ≤ y.toModel) = true ↔ _
  rw [decide_eq_true_iff]
  rfl

theorem nonpositive_iff {x : Float} : x ≤ 0 ↔ Nonpositive x.toModel.unpack := by
  rw [le_iff, unpack_zero]
  cases x.toModel.unpack with
  | infinity s | finite s => cases s <;> simp [UnpackedFloat.compare, Nonpositive]
  | zero s => simp [UnpackedFloat.compare, Nonpositive]
  | notANumber => simp [UnpackedFloat.compare, Nonpositive]

/-- Rounding keeps the sign. -/
theorem nonpositive_normalize (spec : Format) {mantissa : Int} (h : mantissa ≤ 0) (exponent : Int)
    (sign : UnpackedFloat.Sign) : Nonpositive (UnpackedFloat.normalize spec mantissa exponent sign) := by
  unfold UnpackedFloat.normalize
  split
  · unfold UnpackedFloat.round UnpackedFloat.roundWithAccuracy
    dsimp only
    split
    · trivial
    · rfl
  · trivial
  · rename_i positive
    rw [Int.compare_eq_gt] at positive
    omega

theorem nonpositive_add (spec : Format) {x y : UnpackedFloat} (hx : Nonpositive x) (hy : Nonpositive y) :
    Nonpositive (UnpackedFloat.add spec x y) := by
  cases x with
  | notANumber => exact hx.elim
  | infinity s =>
    obtain rfl : s = .negative := hx
    cases y with
    | notANumber => exact hy.elim
    | infinity t =>
      obtain rfl : t = .negative := hy
      rfl
    | zero | finite => rfl
  | zero s =>
    cases y with
    | notANumber => exact hy.elim
    | zero t =>
      change Nonpositive (if _ then _ else _)
      split <;> trivial
    | infinity | finite => exact hy
  | finite s m e =>
    obtain rfl : s = .negative := hx
    cases y with
    | notANumber => exact hy.elim
    | infinity t => exact hy
    | zero => rfl
    | finite t n f =>
      obtain rfl : t = .negative := hy
      have negated (k : Nat) : -(k : Int) ≤ 0 := by omega
      exact nonpositive_normalize spec (Int.add_nonpos (negated _) (negated _)) _ _

theorem nonpositive_sub_zero (spec : Format) {x : UnpackedFloat} (h : Nonpositive x) (s : UnpackedFloat.Sign) :
    Nonpositive (UnpackedFloat.sub spec x (.zero s)) := by
  cases x with
  | notANumber => exact h.elim
  | zero t =>
    change Nonpositive (if _ then _ else _)
    split <;> trivial
  | infinity | finite => exact h

/-- Unless all bits of the exponent are set, the components are a number of the sign they are packed with. -/
theorem nonpositive_packComponents {exponent : BitVec Format.binary64.exponentBits}
    {mantissa : BitVec Format.binary64.mantissaBitsWithoutImplicit} (finite : exponent ≠ -1#_) :
    Nonpositive (UnpackedFloat.unpack .binary64
      (UnpackedFloat.packComponents .binary64 .negative exponent mantissa)) := by
  unfold UnpackedFloat.unpack
  simp only [UnpackedFloat.unpackExponent_packComponents, UnpackedFloat.unpackMantissa_packComponents,
    UnpackedFloat.unpackSign_packComponents, UnpackedFloat.Sign.ofBitVec_toBitVec, if_neg finite]
  split
  · split
    · trivial
    · rfl
  · rfl

/-- What is too large to be written becomes an infinity of its sign. -/
theorem nonpositive_pack {x : UnpackedFloat} (h : Nonpositive x) :
    Nonpositive (UnpackedFloat.unpack .binary64 (UnpackedFloat.pack .binary64 x)) := by
  have infinite : Nonpositive (UnpackedFloat.unpack .binary64 (UnpackedFloat.packedInfinity .binary64 .negative)) := by
    with_unfolding_all exact rfl
  cases x with
  | notANumber => exact h.elim
  | infinity s =>
    obtain rfl : s = .negative := h
    exact infinite
  | zero s =>
    rw [UnpackedFloat.pack, UnpackedFloat.unpack_packedZero]
    trivial
  | finite s m e =>
    obtain rfl : s = .negative := h
    unfold UnpackedFloat.pack
    dsimp only
    split
    · exact infinite
    · rename_i representable
      split
      · refine nonpositive_packComponents fun overflow => ?_
        -- The largest exponent is refused above, so the biased one never comes to all bits.
        rw [← BitVec.toNat_inj, BitVec.toNat_ofNat] at overflow
        generalize (e + Format.binary64.exponentBias + Format.binary64.mantissaBitsWithoutImplicit).toNat = biased
          at representable overflow
        change ¬ 2048 ≤ biased + 1 at representable
        change biased % 2048 = 2047 at overflow
        omega
      · exact nonpositive_packComponents (by decide)

theorem add_nonpositive {x y : Float} (hx : x ≤ 0) (hy : y ≤ 0) : x + y ≤ 0 := by
  rw [nonpositive_iff] at *
  exact nonpositive_pack (nonpositive_add .binary64 hx hy)

theorem sub_zero_nonpositive {x : Float} (h : x ≤ 0) : x - 0 ≤ 0 := by
  rw [nonpositive_iff] at *
  have rounded := nonpositive_pack (nonpositive_sub_zero .binary64 h .positive)
  rw [← unpack_zero] at rounded
  exact rounded

end Signs

end Double
end MixedInteger
