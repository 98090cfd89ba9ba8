import ApplyLang.Proofs.Number.Rounding
import Mathlib

/-!
# Doubles and their magnitudes

A double is its sign and its magnitude, and every canonical magnitude that is not too large is the
magnitude of a double.

* `Magnitude.bits` — the bit pattern of a magnitude.
* `Shape.ofBits_eq_finite_iff` — the patterns of finite doubles.
* `ofFloat_inj` — two doubles of one shape are one double.
* `exists_magnitude` — what a finite double other than the zeros is.
* `RoundsTo` — a number rounds to a double.
-/

namespace ApplyLang.Number

open Float.Model
open Float.Model.UnpackedFloat (isNaNBits pack_unpack unpackExponent unpackExponent_def
  unpackMantissa unpackMantissa_def)

/-- The largest exponent of a double. -/
def greatestExponent : Int := 971

/-- The pattern of a sign bit before the other 63 bits. -/
def withSign (negative : Bool) (bits : Nat) : Nat :=
  negative.toNat * 2 ^ 63 + bits

/-- The bit pattern of a magnitude: the leading bit of the mantissa carries into the exponent field,
    which therefore starts at 0 for the least exponent. -/
def Magnitude.bits (v : Magnitude) : Nat :=
  (v.exponent - leastExponent).toNat * 2 ^ 52 + v.mantissa

/-- The patterns of doubles end where that of infinity is. -/
theorem Magnitude.bits_lt_iff {v : Magnitude} (hv : v.Canonical) :
    v.bits < 2047 * 2 ^ 52 ↔ v.exponent ≤ greatestExponent := by
  have hlt := hv.lt
  have hleast := hv.least_le
  have hfull := hv.full
  simp only [leastExponent] at hleast hfull
  simp only [bits, leastExponent, greatestExponent]
  omega

/-! ## Bit patterns -/

section Fields

variable {field fraction : Nat}

theorem exists_fields {bits : Nat} (h : bits < 2 ^ 64) :
    ∃ negative field fraction, field < 2 ^ 11 ∧ fraction < 2 ^ 52 ∧
      bits = withSign negative (field * 2 ^ 52 + fraction) := by
  refine ⟨bits / 2 ^ 63 == 1, bits / 2 ^ 52 % 2 ^ 11, bits % 2 ^ 52, by omega, by omega, ?_⟩
  unfold withSign
  obtain hs | hs : bits / 2 ^ 63 = 0 ∨ bits / 2 ^ 63 = 1 := by omega
  · rw [hs]
    change bits = 0 * 2 ^ 63 + _
    omega
  · rw [hs]
    change bits = 1 * 2 ^ 63 + _
    omega

/-- A bit pattern by its three fields. -/
theorem Shape.ofBits_withSign (negative : Bool) (hf : field < 2 ^ 11) (hr : fraction < 2 ^ 52) :
    Shape.ofBits (withSign negative (field * 2 ^ 52 + fraction)) =
      if field = 2047 then if fraction = 0 then .infinite negative else .nan
      else if field = 0 then .finite negative ⟨fraction, leastExponent⟩
      else .finite negative ⟨2 ^ 52 + fraction, leastExponent + (field - 1 : Nat)⟩ := by
  have hn := negative.toNat_le
  have hsign : withSign negative (field * 2 ^ 52 + fraction) / pow2 63 % 2 = negative.toNat := by
    unfold withSign
    rw [pow2_eq]
    omega
  have hfield : withSign negative (field * 2 ^ 52 + fraction) / pow2 fractionBits % pow2 11 =
      field := by
    unfold withSign
    rw [pow2_eq, pow2_eq, fractionBits]
    omega
  have hfraction : withSign negative (field * 2 ^ 52 + fraction) % pow2 fractionBits =
      fraction := by
    unfold withSign
    rw [pow2_eq, fractionBits]
    omega
  have hbeq : (negative.toNat == 1) = negative := by cases negative <;> rfl
  unfold Shape.ofBits
  simp only [hsign, hfield, hfraction, hbeq]
  rfl

end Fields

/-- The patterns of the finite doubles. -/
theorem Shape.ofBits_eq_finite_iff {bits : Nat} (hb : bits < 2 ^ 64) {negative : Bool}
    {v : Magnitude} : Shape.ofBits bits = .finite negative v ↔
      v.Canonical ∧ v.exponent ≤ greatestExponent ∧ bits = withSign negative v.bits := by
  constructor
  · obtain ⟨sign, field, fraction, hf, hr, rfl⟩ := exists_fields hb
    rw [Shape.ofBits_withSign sign hf hr]
    intro h
    split at h
    · split at h <;> cases h
    split at h
    case isTrue h0 =>
      cases h
      have hmax : leastExponent ≤ greatestExponent := by decide
      refine ⟨⟨by dsimp only; omega, le_rfl, .inr rfl⟩, hmax, ?_⟩
      simp [Magnitude.bits, h0]
    case isFalse h0 =>
      cases h
      refine ⟨⟨by dsimp only; omega, by dsimp only; omega, .inl (by dsimp only; omega)⟩, ?_, ?_⟩
      · simp only [leastExponent, greatestExponent]
        omega
      · refine congrArg (withSign negative) ?_
        simp only [Magnitude.bits]
        omega
  · rintro ⟨hv, hmax, rfl⟩
    obtain ⟨m, e⟩ := v
    have hlt : m < 2 ^ 53 := hv.lt
    have hleast : leastExponent ≤ e := hv.least_le
    have hfull : 2 ^ 52 ≤ m ∨ e = leastExponent := hv.full
    simp only [leastExponent, greatestExponent] at hleast hfull hmax
    by_cases hm : 2 ^ 52 ≤ m
    · have hbits : Magnitude.bits ⟨m, e⟩ =
          ((e - leastExponent).toNat + 1) * 2 ^ 52 + (m - 2 ^ 52) := by
        simp only [Magnitude.bits]
        omega
      rw [hbits, Shape.ofBits_withSign negative (by simp only [leastExponent]; omega) (by omega),
        if_neg (by simp only [leastExponent]; omega), if_neg (by omega), Nat.add_sub_cancel' hm,
        Nat.add_sub_cancel, Int.toNat_of_nonneg (by simp only [leastExponent]; omega),
        add_sub_cancel]
    · obtain rfl : e = -1074 := hfull.resolve_left hm
      have hbits : Magnitude.bits ⟨m, -1074⟩ = 0 * 2 ^ 52 + m := rfl
      rw [hbits, Shape.ofBits_withSign negative (by omega) (by omega), if_neg (by omega),
        if_pos rfl]
      rfl

theorem Shape.ofBits_eq_infinite_iff {bits : Nat} (hb : bits < 2 ^ 64) {negative : Bool} :
    Shape.ofBits bits = .infinite negative ↔ bits = withSign negative (2047 * 2 ^ 52) := by
  constructor
  · obtain ⟨sign, field, fraction, hf, hr, rfl⟩ := exists_fields hb
    rw [Shape.ofBits_withSign sign hf hr]
    intro h
    split at h
    · split at h
      case isTrue hfield hfraction =>
        cases h
        rw [hfield, hfraction, add_zero]
      case isFalse => cases h
    · split at h <;> cases h
  · rintro rfl
    have hfull : 2047 < 2 ^ 11 := by norm_num
    have hnone : 0 < 2 ^ 52 := by norm_num
    have h := Shape.ofBits_withSign negative hfull hnone
    rwa [add_zero, if_pos rfl, if_pos rfl] at h

theorem Shape.ofBits_eq_nan_iff {bits : Nat} :
    Shape.ofBits bits = .nan ↔ bits / 2 ^ 52 % 2 ^ 11 = 2047 ∧ ¬ bits % 2 ^ 52 = 0 := by
  unfold Shape.ofBits
  dsimp only [pow2_eq, fractionBits]
  generalize bits / 2 ^ 52 % 2 ^ 11 = field
  generalize bits % 2 ^ 52 = fraction
  split_ifs <;> simp_all

theorem Shape.exists_ofBits_eq_finite_iff {bits : Nat} :
    (∃ negative v, Shape.ofBits bits = .finite negative v) ↔ ¬ bits / 2 ^ 52 % 2 ^ 11 = 2047 := by
  unfold Shape.ofBits
  dsimp only [pow2_eq, fractionBits]
  generalize bits / 2 ^ 52 % 2 ^ 11 = field
  split_ifs <;> simp_all

/-- Only patterns that are not numbers share a shape. -/
theorem Shape.ofBits_inj {a b : Nat} (ha : a < 2 ^ 64) (hb : b < 2 ^ 64)
    (h : Shape.ofBits a = Shape.ofBits b) (hnan : Shape.ofBits a ≠ .nan) : a = b := by
  cases hs : Shape.ofBits a with
  | nan => exact absurd hs hnan
  | infinite negative =>
    rw [(Shape.ofBits_eq_infinite_iff ha).1 hs, (Shape.ofBits_eq_infinite_iff hb).1 (h ▸ hs)]
  | finite negative v =>
    rw [((Shape.ofBits_eq_finite_iff ha).1 hs).2.2, ((Shape.ofBits_eq_finite_iff hb).1 (h ▸ hs)).2.2]

/-! ## Doubles -/

section Unpacked

variable (b : BitVec Format.binary64.numBits)

theorem unpackExponent_eq_iff :
    unpackExponent b = -1#11 ↔ b.toNat / 2 ^ 52 % 2 ^ 11 = 2047 := by
  rw [← BitVec.toNat_inj, unpackExponent_def, BitVec.extractLsb'_toNat, Nat.shiftRight_eq_div_pow]
  rfl

theorem unpackMantissa_eq_iff : unpackMantissa b = 0#52 ↔ b.toNat % 2 ^ 52 = 0 := by
  rw [← BitVec.toNat_inj, unpackMantissa_def, BitVec.extractLsb'_toNat, Nat.shiftRight_zero]
  rfl

/-- The patterns that are not numbers. -/
theorem isNaNBits_iff : isNaNBits b = true ↔ Shape.ofBits b.toNat = .nan := by
  have hbits : isNaNBits b = true ↔ unpackExponent b = -1#11 ∧ ¬ unpackMantissa b = 0#52 := by
    rw [isNaNBits, decide_eq_true_eq]
  rw [hbits, unpackExponent_eq_iff, unpackMantissa_eq_iff, Shape.ofBits_eq_nan_iff]

/-- The patterns of numbers that are not infinite. -/
theorem isFinite_unpack_iff : (UnpackedFloat.unpack .binary64 b).isFinite = true ↔
    ∃ negative v, Shape.ofBits b.toNat = .finite negative v := by
  have hunpack : (UnpackedFloat.unpack .binary64 b).isFinite = true ↔ ¬ unpackExponent b = -1#11 := by
    unfold UnpackedFloat.unpack
    dsimp only
    split_ifs with hfull hmantissa hzero hmantissa
    · exact iff_of_false Bool.false_ne_true (not_not.2 hfull)
    · exact iff_of_false Bool.false_ne_true (not_not.2 hfull)
    · exact iff_of_true rfl hfull
    · exact iff_of_true rfl hfull
    · exact iff_of_true rfl hfull
  rw [hunpack, unpackExponent_eq_iff, Shape.exists_ofBits_eq_finite_iff]

end Unpacked

theorem toBits_lt (x : Float) : x.toBits.toNat < 2 ^ 64 := x.toBits.toBitVec.isLt

theorem ofFloat_finite {x : Float} {negative : Bool} {v : Magnitude}
    (hx : Shape.ofFloat x = .finite negative v) :
    v.Canonical ∧ v.exponent ≤ greatestExponent :=
  have h := (Shape.ofBits_eq_finite_iff (toBits_lt x)).1 hx
  ⟨h.1, h.2.1⟩

/-- A double that is a number is known by its shape. -/
theorem ofFloat_inj {x y : Float} (h : Shape.ofFloat x = Shape.ofFloat y)
    (hx : Shape.ofFloat x ≠ .nan) : x = y :=
  Float.toBits_inj.1 (UInt64.toNat_inj.1 (Shape.ofBits_inj (toBits_lt x) (toBits_lt y) h hx))

/-- Every pattern that is a number is the pattern of the double it is made into. -/
theorem toBits_ofBits {b : UInt64} (h : Shape.ofBits b.toNat ≠ .nan) :
    (Float.ofBits b).toBits = b := by
  refine UInt64.toBitVec_inj.1 ?_
  change UnpackedFloat.pack .binary64 (UnpackedFloat.unpack .binary64 b.toBitVec) = b.toBitVec
  rw [pack_unpack, if_neg (mt (isNaNBits_iff b.toBitVec).1 h)]

theorem ofFloat_ofBits {bits : Nat} (hb : bits < 2 ^ 64) (h : Shape.ofBits bits ≠ .nan) :
    Shape.ofFloat (Float.ofBits (UInt64.ofNat bits)) = Shape.ofBits bits := by
  have hb' : (UInt64.ofNat bits).toNat = bits := UInt64.toNat_ofNat_of_lt' hb
  rw [Shape.ofFloat, toBits_ofBits (by rwa [hb']), hb']

theorem isFinite_iff {x : Float} :
    x.isFinite = true ↔ ∃ negative v, Shape.ofFloat x = .finite negative v :=
  isFinite_unpack_iff x.toModel.toBits.toBitVec

/-- The magnitude of the two zeros. -/
def Magnitude.zero : Magnitude := ⟨0, leastExponent⟩

theorem Magnitude.Canonical.eq_zero {v : Magnitude} (hv : v.Canonical) (h : v.mantissa = 0) :
    v = .zero := by
  obtain ⟨m, e⟩ := v
  obtain rfl : m = 0 := h
  obtain rfl : e = leastExponent := hv.full.resolve_left (by norm_num)
  rfl

/-- The finite doubles other than the zeros are those with a mantissa. -/
theorem exists_magnitude {x : Float} (hx : x.isFinite = true) (h0 : (x == 0) = false) :
    ∃ negative v, Shape.ofFloat x = .finite negative v ∧ v.mantissa ≠ 0 := by
  obtain ⟨negative, v, hv⟩ := isFinite_iff.1 hx
  refine ⟨negative, v, hv, fun hm => ?_⟩
  have hne : Shape.ofFloat x ≠ .nan := by
    rw [hv]
    exact Shape.noConfusion
  rw [(ofFloat_finite hv).1.eq_zero hm] at hv
  cases negative with
  | false =>
    rw [ofFloat_inj (hv.trans (by rfl : _ = Shape.ofFloat 0)) hne] at h0
    exact absurd h0 (by decide +kernel)
  | true =>
    rw [ofFloat_inj (hv.trans (by rfl : _ = Shape.ofFloat (-0))) hne] at h0
    exact absurd h0 (by decide +kernel)

/-! ## Rounding to doubles -/

/-- The number rounds to the double, to nearest with ties to even. A number that is too large rounds
    to no double. -/
def RoundsTo (r : ℚ) (x : Float) : Prop :=
  ∃ v, Shape.ofFloat x = .finite (decide (r < 0)) v ∧ v.Nearest |r|

/-- A number rounds to one double at most. -/
theorem RoundsTo.unique {r : ℚ} {x y : Float} (hx : RoundsTo r x) (hy : RoundsTo r y) : x = y := by
  obtain ⟨v, hv, hnearest⟩ := hx
  obtain ⟨w, hw, hnearest'⟩ := hy
  obtain rfl := hnearest.unique hnearest'
  refine ofFloat_inj (hv.trans hw.symm) ?_
  rw [hv]
  exact Shape.noConfusion

end ApplyLang.Number
