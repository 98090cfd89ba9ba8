import ApplyLang.Proofs.Number.Order
import ApplyLang.Proofs.Number.Reading

/-!
# Doubles as indices

An index is a double, and what it addresses is counted from 0. That it addresses something can be
tested on the double itself: nothing is behind the point, it is not negative, and it is less than the
length, which is made a double for this. Once the test is passed the double can be cut to a natural
number.

* `value?_ofNat` — below `2 ^ 53` every natural number is a double.
* `natural?` — the natural number that a double is equal to, if there is one.
* `Addresses` — the test, comparison by comparison.
* `addresses_iff` — exactly the natural numbers below the length pass it, both zeros included.
* `toNat_toUInt64` — cutting a double that is a natural number gives this number.
* `index?_eq_natural?` — the test and the cut together find the natural number.
-/

namespace ApplyLang.Number

open Float.Model
open Float.Model.UnpackedFloat (ExtendedMantissa)

variable {x : Float} {k length : ℕ}

/-! ## Natural numbers as doubles -/

theorem rounded_of_lt (hk : k ≠ 0) (h : k < 2 ^ 53) :
    (rounded k).value = k ∧ (rounded k).exponent ≤ greatestExponent := by
  have htop : Nat.log2 k ≤ 52 := Nat.lt_succ_iff.1 ((Nat.log2_lt hk).2 h)
  have hfits := (mul_bounds hk rfl htop).2
  rw [rounded, leading, if_pos htop]
  refine ⟨carried_value_of_le k htop, ?_⟩
  rw [carried, if_neg hfits.ne, greatestExponent]
  dsimp only
  omega

/-- Natural numbers that fit into a mantissa are exact. -/
theorem value?_ofNat (h : k < 2 ^ 53) : value? (ofNat k) = some (k : ℚ) := by
  obtain ⟨v, hnearest, -, hshape⟩ := shape_ofNat k
  have hexact : v.value = k ∧ v.exponent ≤ greatestExponent := by
    rcases eq_or_ne k 0 with rfl | hk
    · have hzero : Magnitude.zero.Nearest ((0 : ℕ) : ℚ) := by
        have := Magnitude.nearest_value (v := .zero) ⟨by decide, le_rfl, .inr rfl⟩
        rwa [Magnitude.value_zero, ← Nat.cast_zero] at this
      rw [hnearest.unique hzero, Magnitude.value_zero, Nat.cast_zero]
      exact ⟨rfl, by decide⟩
    · rw [hnearest.unique (rounded_nearest hk)]
      exact rounded_of_lt hk h
  rw [if_pos hexact.2] at hshape
  rw [value?, hshape, Shape.value?, Magnitude.signed, hexact.1]
  rfl

theorem value?_of_finite {negative : Bool} {v : Magnitude}
    (h : Shape.ofFloat x = .finite negative v) : value? x = some (v.signed negative) := by
  rw [value?, h]
  rfl

theorem Magnitude.value_eq_natCast_iff (v : Magnitude) (k : ℕ) :
    v.value = k ↔ v.numerator % v.denominator = 0 ∧ v.numerator / v.denominator = k := by
  have hpos := v.denominator_pos
  have hne : (v.denominator : ℚ) ≠ 0 := Nat.cast_ne_zero.2 hpos.ne'
  have hcast : v.value = k ↔ v.numerator = k * v.denominator := by
    rw [v.value_eq_div, div_eq_iff hne]
    exact_mod_cast Iff.rfl
  rw [hcast]
  constructor
  · intro h
    rw [h, Nat.mul_mod_left, Nat.mul_div_cancel _ hpos]
    exact ⟨rfl, rfl⟩
  · rintro ⟨hmod, rfl⟩
    exact (Nat.div_mul_cancel (Nat.dvd_of_mod_eq_zero hmod)).symm

/-- The natural number that a double is equal to. Both zeros are equal to 0. -/
def natural? (x : Float) : Option ℕ :=
  match Shape.ofFloat x with
  | .finite negative v =>
    if v.mantissa = 0 then some 0
    else if negative then none
    else if v.numerator % v.denominator = 0 then some (v.numerator / v.denominator)
    else none
  | _ => none

/-- The natural number that is found is the one that the double is equal to. -/
theorem natural?_eq_some_iff : natural? x = some k ↔ value? x = some (k : ℚ) := by
  unfold natural?
  cases hx : Shape.ofFloat x with
  | nan => simp [value?, hx, Shape.value?]
  | infinite negative => simp [value?, hx, Shape.value?]
  | finite negative v =>
    rw [value?_of_finite hx, Option.some.injEq]
    dsimp only
    by_cases hm : v.mantissa = 0
    · have hzero : v.signed negative = 0 := by
        rw [(ofFloat_finite hx).1.eq_zero hm, Magnitude.signed_zero]
      rw [if_pos hm, hzero, Option.some.injEq, eq_comm (a := (0 : ℚ)), Nat.cast_eq_zero, eq_comm]
    · have hpos := Magnitude.value_pos hm
      rw [if_neg hm]
      cases negative with
      | true =>
        have hneg : v.signed true < k := by
          have hk : (0 : ℚ) ≤ k := Nat.cast_nonneg k
          show -v.value < k
          linarith
        simp [hneg.ne]
      | false =>
        rw [if_neg Bool.false_ne_true, show v.signed false = v.value from rfl,
          v.value_eq_natCast_iff]
        split <;> simp_all

/-! ## The test -/

/-- The part of a finite double that is behind the point, with the sign of the double. What is
    infinite or not a number has no such part. -/
def fraction? (x : Float) : Option ℚ :=
  (value? x).map fun q => q - (q.num.tdiv q.den : ℤ)

/-- The test on an index: whole, not negative, below the length. -/
structure Addresses (x : Float) (length : ℕ) : Prop where
  whole : fraction? x = some 0
  nonneg : ¬ x < 0
  below : ¬ ofNat length ≤ x

theorem fraction?_eq_zero_iff : fraction? x = some 0 ↔ ∃ z : ℤ, value? x = some (z : ℚ) := by
  rw [fraction?]
  cases value? x with
  | none => simp
  | some q =>
    simp only [Option.map_some, Option.some.injEq]
    constructor
    · intro h
      exact ⟨_, sub_eq_zero.1 h⟩
    · rintro ⟨z, rfl⟩
      rw [Rat.num_intCast, Rat.den_intCast, Nat.cast_one, Int.tdiv_one, sub_self]

theorem Magnitude.abs_signed (negative : Bool) (v : Magnitude) : |v.signed negative| = v.value := by
  cases negative
  · exact abs_of_nonneg v.value_nonneg
  · show |(-v.value)| = v.value
    rw [abs_neg, abs_of_nonneg v.value_nonneg]

/-- The sign does not matter for what is behind the point. -/
theorem Magnitude.signed_eq_intCast_iff (negative : Bool) (v : Magnitude) :
    (∃ z : ℤ, v.signed negative = z) ↔ v.numerator % v.denominator = 0 := by
  constructor
  · rintro ⟨z, hz⟩
    have habs : v.value = (z.natAbs : ℕ) := by
      rw [← v.abs_signed negative, hz, Nat.cast_natAbs, Int.cast_abs]
    exact ((v.value_eq_natCast_iff _).1 habs).1
  · intro hmod
    have hvalue := (v.value_eq_natCast_iff _).2 ⟨hmod, rfl⟩
    cases negative
    · exact ⟨(v.numerator / v.denominator : ℕ), hvalue⟩
    · refine ⟨-(v.numerator / v.denominator : ℕ), ?_⟩
      show -v.value = _
      rw [hvalue, Int.cast_neg, Int.cast_natCast]

theorem hasFraction_eq_false_iff : hasFraction x = false ↔ fraction? x = some 0 := by
  rw [fraction?_eq_zero_iff, hasFraction]
  cases hx : Shape.ofFloat x with
  | nan => simp [value?, hx, Shape.value?]
  | infinite negative => simp [value?, hx, Shape.value?]
  | finite negative v =>
    simp only [value?_of_finite hx, Option.some.injEq]
    rw [v.signed_eq_intCast_iff, bne_eq_false_iff_eq]

/-- The test is made before the cut. -/
theorem index?_eq_some_iff :
    index? x length = some k ↔ Addresses x length ∧ x.toUInt64.toNat = k := by
  have htest : Addresses x length ↔ (hasFraction x || x < 0 || ofNat length ≤ x) = false := by
    simp only [Bool.or_eq_false_iff, decide_eq_false_iff_not, hasFraction_eq_false_iff]
    exact ⟨fun h => ⟨⟨h.whole, h.nonneg⟩, h.below⟩, fun h => ⟨h.1.1, h.1.2, h.2⟩⟩
  rw [htest, index?]
  cases hasFraction x || x < 0 || ofNat length ≤ x <;> simp

theorem value?_zero : value? 0 = some 0 := by
  rw [value?_of_finite (by rfl : Shape.ofFloat 0 = .finite false .zero), Magnitude.signed_zero]

/-- The natural numbers below the length pass the test, and nothing else does. -/
theorem addresses_iff (h : length < 2 ^ 53) :
    Addresses x length ↔ ∃ k < length, value? x = some (k : ℚ) := by
  have hzero := place?_of_value? value?_zero
  have hlength := place?_of_value? (value?_ofNat h)
  have hbounds {q : ℚ} (hq : value? x = some q) :
      (¬ x < 0 ↔ 0 ≤ q) ∧ (¬ ofNat length ≤ x ↔ q < length) := by
    simp [lt_iff, le_iff, place?_of_value? hq, hzero, hlength]
  constructor
  · rintro ⟨hwhole, hnonneg, hbelow⟩
    obtain ⟨z, hz⟩ := fraction?_eq_zero_iff.1 hwhole
    have hlow := (hbounds hz).1.1 hnonneg
    have hhigh := (hbounds hz).2.1 hbelow
    lift z to ℕ using by exact_mod_cast hlow
    exact ⟨z, by exact_mod_cast hhigh, hz⟩
  · rintro ⟨k, hk, hx⟩
    exact ⟨fraction?_eq_zero_iff.2 ⟨k, hx⟩, (hbounds hx).1.2 (Nat.cast_nonneg k),
      (hbounds hx).2.2 (Nat.cast_lt.2 hk)⟩

/-! ## Cutting to a natural number -/

theorem mantissa_shiftRight (m : ExtendedMantissa) (n : ℕ) :
    (m >>> n).mantissa = m.mantissa / 2 ^ n := by
  induction n with
  | zero => simp [HShiftRight.hShiftRight, Nat.repeat]
  | succ n ih =>
    show (ExtendedMantissa.shiftRightOne (m >>> n)).mantissa = _
    rw [ExtendedMantissa.shiftRightOne, ih, Nat.div_div_eq_div_mul, pow_succ]

/-- Cutting a magnitude moves the point out or drops the bits behind it. -/
theorem roundToInt_positive (m : ℕ) (e : ℤ) :
    UnpackedFloat.roundToInt .positive m e = (m * 2 ^ e.toNat / 2 ^ (-e).toNat : ℕ) := by
  have hdown : (0 - (e - ((e - 0).toNat : ℤ))).toNat = (-e).toNat := by omega
  unfold UnpackedFloat.roundToInt UnpackedFloat.decreaseExponent UnpackedFloat.shiftToExponent
  dsimp only [UnpackedFloat.Sign.apply]
  rw [mantissa_shiftRight, hdown, Nat.shiftLeft_eq, sub_zero]
  rfl

/-- Cutting a double that is a natural number gives this number. -/
theorem toNat_toUInt64 (hx : value? x = some (k : ℚ)) (hk : k < 2 ^ 64) :
    x.toUInt64.toNat = k := by
  have hcut : x.toUInt64 = x.toModel.unpack.toUInt64 := rfl
  have hint : x.toModel.unpack.toInt 0 (UInt64.size - 1) = k := by
    rw [value?, ofFloat_eq_ofUnpacked] at hx
    generalize x.toModel.unpack = a at hx
    cases a with
    | notANumber => cases hx
    | infinity s => cases hx
    | zero s =>
      have hzero : (k : ℚ) = 0 := by
        rw [← Option.some.inj hx, Magnitude.signed_zero]
      rw [Nat.cast_eq_zero.1 hzero]
      rfl
    | finite s m e hm =>
      have hvalue : Magnitude.signed (isNegative s) ⟨m, e⟩ = k := Option.some.inj hx
      have hpos : 0 < Magnitude.value ⟨m, e⟩ := Magnitude.value_pos hm.ne'
      cases s with
      | negative =>
        have hk : (0 : ℚ) ≤ k := Nat.cast_nonneg k
        have hneg : -Magnitude.value ⟨m, e⟩ = k := hvalue
        linarith
      | positive =>
        show UnpackedFloat.roundToInt .positive m e = k
        rw [roundToInt_positive]
        exact congrArg Nat.cast ((Magnitude.value_eq_natCast_iff ⟨m, e⟩ k).1 hvalue).2
  rw [hcut, UnpackedFloat.toUInt64, hint, Int.toNat_natCast, UInt64.ofNatClamp_eq_ofNat k hk]
  exact UInt64.toNat_ofNat_of_lt' hk

/-- Together the test and the cut find the natural number that the index is equal to, if it is below
    the length. -/
theorem index?_eq_natural? (h : length < 2 ^ 53) :
    index? x length = (natural? x).filter (· < length) := by
  ext k
  rw [index?_eq_some_iff, addresses_iff h, Option.filter_eq_some_iff,
    natural?_eq_some_iff, decide_eq_true_eq]
  constructor
  · rintro ⟨⟨j, hj, hx⟩, rfl⟩
    rw [toNat_toUInt64 hx (by omega)]
    exact ⟨hx, hj⟩
  · rintro ⟨hx, hk⟩
    exact ⟨⟨k, hk, hx⟩, toNat_toUInt64 hx (by omega)⟩

end ApplyLang.Number
