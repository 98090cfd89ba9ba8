import ApplyLang.Number.Text
import ApplyLang.Proofs.Number.Doubles

/-!
# The order of doubles

Doubles are compared by what they stand for. A double that is a number has a place among the
rational numbers with an infinity at either end, both zeros have the same place, and what is not a
number has none.

* `value?`, `place?` — the rational number of a finite double, and the place of any double.
* `Shape.ofUnpacked` — the sign, mantissa and exponent that a comparison looks at are those of the
  double's shape.
* `compare_eq` — a comparison is the comparison of the places, and has no outcome without them.
* `lt_iff`, `le_iff`, `beq_iff` — the three comparisons that programs make.
* `text_eq_of_beq` — equal doubles are printed alike.
-/

namespace ApplyLang.Number

open Float.Model
open Float.Model.UnpackedFloat (unpackExponent unpackExponent_def unpackMantissa unpackMantissa_def
  unpackSign unpackSign_def)

/-! ## Places -/

/-- The number of a sign and a magnitude. -/
def Magnitude.signed (negative : Bool) (v : Magnitude) : ℚ :=
  if negative then -v.value else v.value

/-- The number that a finite shape stands for. -/
def Shape.value? : Shape → Option ℚ
  | .finite negative v => some (v.signed negative)
  | _ => none

/-- Where a shape stands among numbers and infinities. -/
def Shape.place? : Shape → Option (WithBotTop ℚ)
  | .nan => none
  | .infinite true => some ⊥
  | .infinite false => some ⊤
  | .finite negative v => some (v.signed negative : ℚ)

/-- The number that a finite double stands for. -/
def value? (x : Float) : Option ℚ := (Shape.ofFloat x).value?

/-- Where a double stands among numbers and infinities. What is not a number stands nowhere. -/
def place? (x : Float) : Option (WithBotTop ℚ) := (Shape.ofFloat x).place?

theorem Magnitude.value_zero : Magnitude.zero.value = 0 := by
  rw [Magnitude.value, Magnitude.zero, Nat.cast_zero, zero_mul]

theorem Magnitude.signed_zero (negative : Bool) : Magnitude.zero.signed negative = 0 := by
  cases negative <;> simp [Magnitude.signed, Magnitude.value_zero]

theorem place?_of_value? {x : Float} {q : ℚ} (h : value? x = some q) :
    place? x = some (q : WithBotTop ℚ) := by
  unfold value? at h
  unfold place?
  cases hx : Shape.ofFloat x with
  | nan => rw [hx] at h; cases h
  | infinite negative => rw [hx] at h; cases h
  | finite negative v =>
    rw [hx] at h
    cases h
    rfl

/-! ## What a comparison looks at -/

/-- Whether a sign is a minus. -/
def isNegative : UnpackedFloat.Sign → Bool
  | .negative => true
  | .positive => false

/-- The shape of a double that has been taken apart for a comparison. -/
def Shape.ofUnpacked : UnpackedFloat → Shape
  | .notANumber => .nan
  | .infinity s => .infinite (isNegative s)
  | .zero s => .finite (isNegative s) .zero
  | .finite s m e _ => .finite (isNegative s) ⟨m, e⟩

theorem ofBits_eq_ofUnpacked (b : BitVec Format.binary64.numBits) :
    Shape.ofBits b.toNat = .ofUnpacked (UnpackedFloat.unpack .binary64 b) := by
  have hfield : (unpackExponent b).toNat = b.toNat / 2 ^ 52 % 2 ^ 11 := by
    rw [unpackExponent_def, BitVec.extractLsb'_toNat, Nat.shiftRight_eq_div_pow]
  have hfraction : (unpackMantissa b).toNat = b.toNat % 2 ^ 52 := by
    rw [unpackMantissa_def, BitVec.extractLsb'_toNat, Nat.shiftRight_zero]
  have hsign : (unpackSign b).toNat = b.toNat / 2 ^ 63 % 2 := by
    rw [unpackSign_def, BitVec.extractLsb'_toNat, Nat.shiftRight_eq_div_pow]
    rfl
  have hnegative : isNegative (.ofBitVec (unpackSign b)) = (b.toNat / 2 ^ 63 % 2 == 1) := by
    rw [← hsign]
    generalize unpackSign b = s
    decide +revert
  have hzero : unpackExponent b = 0#11 ↔ b.toNat / 2 ^ 52 % 2 ^ 11 = 0 := by
    rw [← BitVec.toNat_inj, hfield]
    rfl
  have hfull := unpackExponent_eq_iff b
  have hnone := unpackMantissa_eq_iff b
  have hbits : Shape.ofBits b.toNat =
      if b.toNat / 2 ^ 52 % 2 ^ 11 = 2047 then
        if b.toNat % 2 ^ 52 = 0 then .infinite (b.toNat / 2 ^ 63 % 2 == 1) else .nan
      else if b.toNat / 2 ^ 52 % 2 ^ 11 = 0 then
        .finite (b.toNat / 2 ^ 63 % 2 == 1) ⟨b.toNat % 2 ^ 52, leastExponent⟩
      else .finite (b.toNat / 2 ^ 63 % 2 == 1) ⟨2 ^ 52 + b.toNat % 2 ^ 52,
        leastExponent + (b.toNat / 2 ^ 52 % 2 ^ 11 - 1 : Nat)⟩ := rfl
  unfold UnpackedFloat.unpack
  dsimp only
  split_ifs with hf hm hf' hm' <;> rw [hbits]
  · rw [if_pos (hfull.1 hf), if_pos (hnone.1 hm), Shape.ofUnpacked, hnegative]
  · rw [if_pos (hfull.1 hf), if_neg (mt hnone.2 hm), Shape.ofUnpacked]
  · rw [if_neg (mt hfull.2 hf), if_pos (hzero.1 hf'), hnone.1 hm', Shape.ofUnpacked, hnegative]
    rfl
  · rw [if_neg (mt hfull.2 hf), if_pos (hzero.1 hf'), Shape.ofUnpacked, hnegative, hfraction,
      hfield, hzero.1 hf']
    rfl
  · have hbias : Format.binary64.exponentBias = 1023 := rfl
    have hlead : (1#1 ++ unpackMantissa b).toNat = 2 ^ 52 + b.toNat % 2 ^ 52 := by
      rw [BitVec.toNat_append, ← Nat.shiftLeft_add_eq_or_of_lt (unpackMantissa b).isLt, hfraction]
      rfl
    have hpos := mt hzero.2 hf'
    have hexp : leastExponent + ((b.toNat / 2 ^ 52 % 2 ^ 11 - 1 : Nat) : Int) =
        (b.toNat / 2 ^ 52 % 2 ^ 11 : Nat) - (1023 + 52) := by
      rw [leastExponent]
      omega
    rw [if_neg (mt hfull.2 hf), if_neg (mt hzero.2 hf'), Shape.ofUnpacked, hnegative, hlead, hfield,
      hexp, hbias]
    rfl

theorem ofFloat_eq_ofUnpacked (x : Float) : Shape.ofFloat x = .ofUnpacked x.toModel.unpack :=
  ofBits_eq_ofUnpacked x.toModel.toBits.toBitVec

/-- What is taken apart for a comparison is canonical. -/
theorem canonical_unpack {x : Float} {negative : Bool} {v : Magnitude}
    (h : Shape.ofUnpacked x.toModel.unpack = .finite negative v) : v.Canonical := by
  rw [← ofFloat_eq_ofUnpacked] at h
  exact (ofFloat_finite h).1

/-! ## Comparisons -/

section Compare

variable {v w : Magnitude}

theorem Magnitude.value_lt_iff_of_exponent_eq (h : v.exponent = w.exponent) :
    v.value < w.value ↔ v.mantissa < w.mantissa := by
  rw [value_eq, value_eq, unit, unit, h, mul_lt_mul_iff_of_pos_right (by positivity)]
  exact Nat.cast_lt

/-- Canonical magnitudes compare by their exponents first. -/
theorem Magnitude.compare_value (hv : v.Canonical) (hw : w.Canonical) :
    (compare v.exponent w.exponent).then (compare v.mantissa w.mantissa) =
      compare v.value w.value := by
  rcases lt_trichotomy v.exponent w.exponent with hlt | heq | hgt
  · rw [compare_lt_iff_lt.2 hlt, compare_lt_iff_lt.2 (value_lt_of_exponent_lt hv hw hlt)]
    rfl
  · rw [compare_eq_iff_eq.2 heq]
    rcases lt_trichotomy v.mantissa w.mantissa with hm | hm | hm
    · rw [compare_lt_iff_lt.2 hm, compare_lt_iff_lt.2 ((value_lt_iff_of_exponent_eq heq).2 hm)]
      rfl
    · rw [compare_eq_iff_eq.2 hm, compare_eq_iff_eq.2 (by rw [value, value, hm, heq])]
      rfl
    · rw [compare_gt_iff_gt.2 hm, compare_gt_iff_gt.2 ((value_lt_iff_of_exponent_eq heq.symm).2 hm)]
      rfl
  · rw [compare_gt_iff_gt.2 hgt, compare_gt_iff_gt.2 (value_lt_of_exponent_lt hw hv hgt)]
    rfl

theorem compare_neg_neg (p q : ℚ) : compare (-p) (-q) = (compare p q).swap := by
  rcases lt_trichotomy p q with h | rfl | h
  · rw [compare_lt_iff_lt.2 h, compare_gt_iff_gt.2 (neg_lt_neg h)]
    rfl
  · rw [compare_eq_iff_eq.2 rfl, compare_eq_iff_eq.2 rfl]
    rfl
  · rw [compare_gt_iff_gt.2 h, compare_lt_iff_lt.2 (neg_lt_neg h)]
    rfl

theorem compare_coe (p q : ℚ) : compare (p : WithBotTop ℚ) q = compare p q := by
  rw [← cmp_eq_compare, ← cmp_eq_compare, WithBotTop.coe_strictMono.cmp_map_eq]

/-- Finite doubles other than the zeros. -/
theorem compare_signed (hv : v.Canonical) (hw : w.Canonical) (hm : v.mantissa ≠ 0)
    (hn : w.mantissa ≠ 0) (s t : UnpackedFloat.Sign) :
    UnpackedFloat.compare (.finite s v.mantissa v.exponent (Nat.pos_of_ne_zero hm))
        (.finite t w.mantissa w.exponent (Nat.pos_of_ne_zero hn)) =
      some (compare (v.signed (isNegative s)) (w.signed (isNegative t))) := by
  have hp := Magnitude.value_pos hm
  have hq := Magnitude.value_pos hn
  have horder := Magnitude.compare_value hv hw
  cases s with
  | negative =>
    cases t with
    | negative =>
      refine congrArg some ?_
      rw [horder]
      exact (compare_neg_neg v.value w.value).symm
    | positive =>
      refine congrArg some (compare_lt_iff_lt.2 ?_).symm
      show -v.value < w.value
      linarith
  | positive =>
    cases t with
    | negative =>
      refine congrArg some (compare_gt_iff_gt.2 ?_).symm
      show v.value > -w.value
      linarith
    | positive => exact congrArg some horder

/-- Both zeros are below what is positive and above what is negative. -/
theorem compare_zero_signed (hm : v.mantissa ≠ 0) (s t : UnpackedFloat.Sign) :
    UnpackedFloat.compare (.zero s) (.finite t v.mantissa v.exponent (Nat.pos_of_ne_zero hm)) =
      some (compare 0 (v.signed (isNegative t))) := by
  have hpos : 0 < v.value := Magnitude.value_pos hm
  cases t with
  | negative => exact congrArg some (compare_gt_iff_gt.2 (neg_neg_of_pos hpos)).symm
  | positive => exact congrArg some (compare_lt_iff_lt.2 hpos).symm

theorem compare_signed_zero (hm : v.mantissa ≠ 0) (s t : UnpackedFloat.Sign) :
    UnpackedFloat.compare (.finite s v.mantissa v.exponent (Nat.pos_of_ne_zero hm)) (.zero t) =
      some (compare (v.signed (isNegative s)) 0) := by
  have hpos : 0 < v.value := Magnitude.value_pos hm
  cases s with
  | negative => exact congrArg some (compare_lt_iff_lt.2 (neg_neg_of_pos hpos)).symm
  | positive => exact congrArg some (compare_gt_iff_gt.2 hpos).symm

theorem compare_bot_coe (q : ℚ) : compare ⊥ (q : WithBotTop ℚ) = .lt :=
  compare_lt_iff_lt.2 (bot_lt_iff_ne_bot.2 (WithBotTop.coe_ne_bot q))

theorem compare_coe_bot (q : ℚ) : compare (q : WithBotTop ℚ) ⊥ = .gt :=
  compare_gt_iff_gt.2 (bot_lt_iff_ne_bot.2 (WithBotTop.coe_ne_bot q))

theorem compare_top_coe (q : ℚ) : compare ⊤ (q : WithBotTop ℚ) = .gt :=
  compare_gt_iff_gt.2 (lt_top_iff_ne_top.2 (WithBotTop.coe_ne_top q))

theorem compare_coe_top (q : ℚ) : compare (q : WithBotTop ℚ) ⊤ = .lt :=
  compare_lt_iff_lt.2 (lt_top_iff_ne_top.2 (WithBotTop.coe_ne_top q))

/-- Infinities stand at the ends, and both zeros in the middle. -/
theorem compare_unpacked {a b : UnpackedFloat}
    (ha : ∀ n v, Shape.ofUnpacked a = .finite n v → v.Canonical)
    (hb : ∀ n v, Shape.ofUnpacked b = .finite n v → v.Canonical) :
    a.compare b = (Shape.ofUnpacked a).place?.bind fun p =>
      (Shape.ofUnpacked b).place?.map (compare p) := by
  cases a with
  | notANumber => rfl
  | infinity s =>
    cases b with
    | notANumber => cases s <;> rfl
    | infinity t => cases s <;> cases t <;> exact congrArg some (by decide)
    | zero | finite =>
      cases s with
      | negative => exact congrArg some (compare_bot_coe _).symm
      | positive => exact congrArg some (compare_top_coe _).symm
  | zero s =>
    cases b with
    | notANumber => rfl
    | infinity t =>
      cases t with
      | negative => exact congrArg some (compare_coe_bot _).symm
      | positive => exact congrArg some (compare_coe_top _).symm
    | zero t =>
      refine congrArg some ?_
      rw [Magnitude.signed_zero, Magnitude.signed_zero]
      exact (compare_eq_iff_eq.2 rfl).symm
    | finite t n f hn =>
      refine (compare_zero_signed (v := ⟨n, f⟩) hn.ne' s t).trans (congrArg some ?_)
      rw [Magnitude.signed_zero, compare_coe]
  | finite s m e hm =>
    cases b with
    | notANumber => rfl
    | infinity t =>
      cases t with
      | negative => exact congrArg some (compare_coe_bot _).symm
      | positive => exact congrArg some (compare_coe_top _).symm
    | zero t =>
      refine (compare_signed_zero (v := ⟨m, e⟩) hm.ne' s t).trans (congrArg some ?_)
      rw [Magnitude.signed_zero, compare_coe]
    | finite t n f hn =>
      refine (compare_signed (ha _ _ rfl) (hb _ _ rfl) hm.ne' hn.ne' s t).trans (congrArg some ?_)
      rw [compare_coe]

end Compare

variable {x y : Float}

/-- Doubles compare by their places. -/
theorem compare_eq (x y : Float) : x.toModel.compare y.toModel =
    (place? x).bind fun p => (place? y).map (compare p) := by
  rw [place?, place?, ofFloat_eq_ofUnpacked, ofFloat_eq_ofUnpacked]
  exact compare_unpacked (fun _ _ => canonical_unpack) fun _ _ => canonical_unpack

theorem lt_iff_compare : x < y ↔ x.toModel.compare y.toModel = some .lt := by
  show decide (x.toModel.lt y.toModel = true) = true ↔ _
  rw [decide_eq_true_eq]
  exact beq_iff_eq

theorem beq_iff_compare : (x == y) = true ↔ x.toModel.compare y.toModel = some .eq := by
  show (x.toModel.compare y.toModel == some .eq) = true ↔ _
  exact beq_iff_eq

theorem le_iff_compare : x ≤ y ↔ (x.toModel.compare y.toModel).any Ordering.isLE = true := by
  show decide (x.toModel.le y.toModel = true) = true ↔ _
  rw [decide_eq_true_eq]
  rfl

theorem lt_iff : x < y ↔ ∃ p q, place? x = some p ∧ place? y = some q ∧ p < q := by
  rw [lt_iff_compare, compare_eq]
  cases place? x <;> cases place? y <;> simp [compare_lt_iff_lt]

theorem le_iff : x ≤ y ↔ ∃ p q, place? x = some p ∧ place? y = some q ∧ p ≤ q := by
  rw [le_iff_compare, compare_eq]
  cases place? x <;> cases place? y <;> simp [Ordering.isLE_iff_ne_gt, compare_gt_iff_gt]

theorem beq_iff : (x == y) = true ↔ ∃ p, place? x = some p ∧ place? y = some p := by
  rw [beq_iff_compare, compare_eq]
  cases place? x with
  | none => simp
  | some p =>
    cases place? y with
    | none => simp
    | some q => simp [eq_comm (a := q)]

/-- Only what is not a number has no place. -/
theorem place?_eq_none_iff : place? x = none ↔ x.isNaN = true := by
  have h := Float.beq_self_iff (f := x)
  rw [beq_iff] at h
  cases hp : place? x <;> simp_all

theorem text_of_zero {negative : Bool} (h : Shape.ofFloat x = .finite negative .zero) :
    text x = "0" := by
  rw [text, h]
  rfl

/-- Of equal doubles that are not the same both are zeros, and those are printed without a sign. -/
theorem text_eq_of_beq (h : (x == y) = true) : text x = text y := by
  have hplus : Shape.ofFloat 0 = .finite false .zero := by rfl
  have hminus : Shape.ofFloat (-0) = .finite true .zero := by rfl
  obtain ⟨-, -, rfl | ⟨rfl, rfl⟩ | ⟨rfl, rfl⟩⟩ := Float.beq_iff_ne_nan_and_eq.1 h
  · rfl
  · rw [text_of_zero hplus, text_of_zero hminus]
  · rw [text_of_zero hplus, text_of_zero hminus]

end ApplyLang.Number
