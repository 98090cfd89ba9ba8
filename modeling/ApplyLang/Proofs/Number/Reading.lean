import ApplyLang.Proofs.Number.Doubles

/-!
# Reading whole numbers

`ofNat` gives the double that a natural number rounds to.

* `halfEvenShift_spec` — the quotient by a power of two is rounded to nearest, ties to even.
* `exists_nearest` — the magnitude that a natural number rounds to, and its bits.
* `shape_ofNat` — the double that a natural number is read as: that magnitude, or infinity when it
  lies beyond the doubles.
* `RoundsTo.ofNat_eq`, `roundsTo_or_infinite` — a natural number that rounds to a double is read as
  that double, and every other one as infinity.
* `ofNat_beq_iff` — the comparison of doubles tells numbers that are read apart.
-/

namespace ApplyLang.Number

open Magnitude

/-- The rounded quotient is the quotient or one more, whichever is nearer, and even in a tie. -/
theorem halfEvenShift_spec (n shift : Nat) :
    (halfEvenShift n shift = n / 2 ^ shift ∧ 2 * (n % 2 ^ shift) ≤ 2 ^ shift ∧
        (2 * (n % 2 ^ shift) = 2 ^ shift → n / 2 ^ shift % 2 = 0)) ∨
      (halfEvenShift n shift = n / 2 ^ shift + 1 ∧ 2 ^ shift ≤ 2 * (n % 2 ^ shift) ∧
        (2 * (n % 2 ^ shift) = 2 ^ shift → n / 2 ^ shift % 2 = 1)) := by
  rw [halfEvenShift]
  split
  case isTrue h =>
    rw [pow2_eq] at h
    exact .inr ⟨rfl, by omega, by omega⟩
  case isFalse h =>
    rw [pow2_eq] at h
    exact .inl ⟨rfl, by omega, by omega⟩

/-- A mantissa that was rounded up to the next power of two is written with the next exponent. -/
def carried (m : Nat) (e : Int) : Magnitude :=
  if m = 2 ^ 53 then ⟨2 ^ 52, e + 1⟩ else ⟨m, e⟩

section Carried

variable {m : Nat} {e : Int}

theorem carried_value : (carried m e).value = m * 2 ^ e := by
  unfold carried
  split
  case isTrue h =>
    rw [h, value, zpow_add_one₀ two_ne_zero]
    push_cast
    ring
  case isFalse => rfl

theorem carried_bits (he : leastExponent ≤ e) :
    (carried m e).bits = (e - leastExponent).toNat * 2 ^ 52 + m := by
  unfold carried
  split
  case isTrue h =>
    simp only [bits]
    omega
  case isFalse => rfl

theorem carried_canonical (hlow : 2 ^ 52 ≤ m) (hhigh : m ≤ 2 ^ 53) (he : leastExponent ≤ e) :
    (carried m e).Canonical := by
  unfold carried
  split
  · exact ⟨by norm_num, by dsimp only; omega, .inl le_rfl⟩
  · exact ⟨by dsimp only; omega, he, .inl hlow⟩

theorem le_carried_exponent : e ≤ (carried m e).exponent := by
  unfold carried
  split
  · exact Int.le_add_one le_rfl
  · exact le_rfl

end Carried

/-! ## Large numbers -/

section Shifted

variable {n k : Nat}

theorem cast_eq (n k : Nat) : (n : ℚ) = (n / 2 ^ k : Nat) * 2 ^ k + (n % 2 ^ k : Nat) := by
  exact_mod_cast (Nat.div_add_mod' n (2 ^ k)).symm

theorem leastExponent_le (k : Nat) : leastExponent ≤ k := by
  rw [leastExponent]
  omega

theorem nearest_of_down (hlow : 2 ^ 52 ≤ n / 2 ^ k) (hhigh : n / 2 ^ k < 2 ^ 53)
    (hhalf : 2 * (n % 2 ^ k) ≤ 2 ^ k) (htie : 2 * (n % 2 ^ k) = 2 ^ k → n / 2 ^ k % 2 = 0) :
    (carried (n / 2 ^ k) k).Nearest n := by
  have hcarried : carried (n / 2 ^ k) k = ⟨n / 2 ^ k, k⟩ := if_neg (by omega)
  have hvalue : (carried (n / 2 ^ k) k).value = (n / 2 ^ k : Nat) * 2 ^ k := by
    rw [carried_value, zpow_natCast]
  have hunit : (carried (n / 2 ^ k) k).unit = 2 ^ k := by rw [hcarried, unit, zpow_natCast]
  have hgap := (carried (n / 2 ^ k) k).gap_pos
  have hn := cast_eq n k
  have hrest : (0 : ℚ) ≤ (n % 2 ^ k : Nat) := Nat.cast_nonneg _
  have hhalf' : 2 * ((n % 2 ^ k : Nat) : ℚ) ≤ 2 ^ k := by exact_mod_cast hhalf
  refine Within.nearest ⟨by linarith, by linarith, fun hodd => ⟨by linarith, ?_⟩⟩
    (carried_canonical hlow hhigh.le (leastExponent_le k))
  have hne : 2 * (n % 2 ^ k) ≠ 2 ^ k := by
    intro h
    have := htie h
    rw [hcarried] at hodd
    dsimp only at hodd
    omega
  have hlt : 2 * ((n % 2 ^ k : Nat) : ℚ) < 2 ^ k := lt_of_le_of_ne hhalf' (by exact_mod_cast hne)
  linarith

theorem nearest_of_up (hlow : 2 ^ 52 ≤ n / 2 ^ k) (hhigh : n / 2 ^ k < 2 ^ 53)
    (hhalf : 2 ^ k ≤ 2 * (n % 2 ^ k)) (htie : 2 * (n % 2 ^ k) = 2 ^ k → n / 2 ^ k % 2 = 1) :
    (carried (n / 2 ^ k + 1) k).Nearest n := by
  have hvalue : (carried (n / 2 ^ k + 1) k).value = ((n / 2 ^ k : Nat) + 1) * 2 ^ k := by
    rw [carried_value, zpow_natCast]
    push_cast
    rfl
  have hgap : (carried (n / 2 ^ k + 1) k).gap = 2 ^ k := by
    rw [carried]
    split
    · rw [gap, if_pos ⟨rfl, by dsimp only; rw [leastExponent]; omega⟩, unit,
        zpow_add_one₀ two_ne_zero, zpow_natCast, mul_div_cancel_right₀ _ two_ne_zero]
    · rw [gap, if_neg (by dsimp only; omega), unit, zpow_natCast]
  have hunit := (carried (n / 2 ^ k + 1) k).unit_pos
  have hn := cast_eq n k
  have hrest : ((n % 2 ^ k : Nat) : ℚ) < 2 ^ k := by
    exact_mod_cast Nat.mod_lt n (Nat.two_pow_pos k)
  have hhalf' : (2 : ℚ) ^ k ≤ 2 * (n % 2 ^ k : Nat) := by exact_mod_cast hhalf
  refine Within.nearest ⟨by linarith, by linarith, fun hodd => ⟨?_, by linarith⟩⟩
    (carried_canonical (by omega) hhigh (leastExponent_le k))
  have hne : 2 ^ k ≠ 2 * (n % 2 ^ k) := by
    intro h
    have := htie h.symm
    rw [carried] at hodd
    split at hodd <;> dsimp only at hodd <;> omega
  have hlt : (2 : ℚ) ^ k < 2 * (n % 2 ^ k : Nat) := lt_of_le_of_ne hhalf' (by exact_mod_cast hne)
  linarith

/-- Rounding the mantissa rounds the number. -/
theorem carried_nearest (hlow : 2 ^ 52 ≤ n / 2 ^ k) (hhigh : n / 2 ^ k < 2 ^ 53) :
    (carried (halfEvenShift n k) k).Nearest n := by
  rcases halfEvenShift_spec n k with ⟨hm, hhalf, htie⟩ | ⟨hm, hhalf, htie⟩
  · rw [hm]
    exact nearest_of_down hlow hhigh hhalf htie
  · rw [hm]
    exact nearest_of_up hlow hhigh hhalf htie

theorem halfEvenShift_bounds (hlow : 2 ^ 52 ≤ n / 2 ^ k) (hhigh : n / 2 ^ k < 2 ^ 53) :
    2 ^ 52 ≤ halfEvenShift n k ∧ halfEvenShift n k ≤ 2 ^ 53 := by
  rcases halfEvenShift_spec n k with ⟨hm, -, -⟩ | ⟨hm, -, -⟩ <;> omega

end Shifted

/-! ## The rounded number -/

/-- The mantissa of a natural number before a carry, for the leading bit `top`. -/
def leading (n top : Nat) : Nat :=
  if top ≤ 52 then n * 2 ^ (52 - top) else halfEvenShift n (top - 52)

/-- The magnitude that a natural number other than 0 rounds to. -/
def rounded (n : Nat) : Magnitude :=
  carried (leading n (Nat.log2 n)) (Nat.log2 n - 52)

variable {n : Nat}

theorem div_bounds (hn : n ≠ 0) {top : Nat} (htop : Nat.log2 n = top) (h : 52 ≤ top) :
    2 ^ 52 ≤ n / 2 ^ (top - 52) ∧ n / 2 ^ (top - 52) < 2 ^ 53 := by
  have hlow := Nat.log2_self_le hn
  have hhigh := @Nat.lt_log2_self n
  rw [htop] at hlow hhigh
  have hsplit : 2 ^ 52 * 2 ^ (top - 52) = 2 ^ top := by rw [← pow_add, Nat.add_sub_cancel' h]
  constructor
  · rw [Nat.le_div_iff_mul_le (Nat.two_pow_pos _), hsplit]
    exact hlow
  · rw [Nat.div_lt_iff_lt_mul (Nat.two_pow_pos _), show 2 ^ 53 = 2 ^ 52 * 2 from rfl,
      mul_right_comm, hsplit, ← pow_succ]
    exact hhigh

theorem mul_bounds (hn : n ≠ 0) {top : Nat} (htop : Nat.log2 n = top) (h : top ≤ 52) :
    2 ^ 52 ≤ n * 2 ^ (52 - top) ∧ n * 2 ^ (52 - top) < 2 ^ 53 := by
  have hlow := Nat.log2_self_le hn
  have hhigh := @Nat.lt_log2_self n
  rw [htop] at hlow hhigh
  have hsplit : 2 ^ top * 2 ^ (52 - top) = 2 ^ 52 := by rw [← pow_add, Nat.add_sub_cancel' h]
  constructor
  · rw [← hsplit]
    exact Nat.mul_le_mul_right _ hlow
  · rw [show 2 ^ 53 = 2 ^ 52 * 2 from rfl, ← hsplit, mul_right_comm, ← pow_succ]
    exact Nat.mul_lt_mul_of_pos_right hhigh (Nat.two_pow_pos _)

theorem leading_bounds (hn : n ≠ 0) :
    2 ^ 52 ≤ leading n (Nat.log2 n) ∧ leading n (Nat.log2 n) ≤ 2 ^ 53 := by
  unfold leading
  split
  case isTrue h => exact ⟨(mul_bounds hn rfl h).1, (mul_bounds hn rfl h).2.le⟩
  case isFalse h =>
    obtain ⟨hlow, hhigh⟩ := div_bounds hn rfl (by omega)
    exact halfEvenShift_bounds hlow hhigh

/-- A number that fits into the mantissa is its own rounding. -/
theorem carried_value_of_le (n : Nat) {top : Nat} (h : top ≤ 52) :
    (carried (n * 2 ^ (52 - top)) (top - 52)).value = n := by
  have he : (top : Int) - 52 = -((52 - top : Nat) : Int) := by omega
  rw [carried_value, he, zpow_neg, zpow_natCast]
  push_cast
  rw [mul_assoc, mul_inv_cancel₀ (by positivity), mul_one]

theorem rounded_nearest (hn : n ≠ 0) : (rounded n).Nearest n := by
  unfold rounded leading
  split
  case isTrue h =>
    obtain ⟨hlow, hhigh⟩ := mul_bounds hn rfl h
    have hleast : leastExponent ≤ (Nat.log2 n : Int) - 52 := by
      rw [leastExponent]
      omega
    have hnearest := nearest_value (carried_canonical hlow hhigh.le hleast)
    rwa [carried_value_of_le n h] at hnearest
  case isFalse h =>
    obtain ⟨hlow, hhigh⟩ := div_bounds hn rfl (by omega)
    have he : (Nat.log2 n : Int) - 52 = (Nat.log2 n - 52 : Nat) := by omega
    rw [he]
    exact carried_nearest hlow hhigh

/-- Rounding keeps whole numbers whole. -/
theorem exists_rounded_value (n : Nat) : ∃ k : Nat, (rounded n).value = k := by
  unfold rounded leading
  split
  case isTrue h => exact ⟨n, carried_value_of_le n h⟩
  case isFalse h =>
    have he : (Nat.log2 n : Int) - 52 = (Nat.log2 n - 52 : Nat) := by omega
    refine ⟨halfEvenShift n (Nat.log2 n - 52) * 2 ^ (Nat.log2 n - 52), ?_⟩
    rw [carried_value, he, zpow_natCast]
    push_cast
    rfl

theorem rounded_bits (n : Nat) :
    (rounded n).bits = (Nat.log2 n + 1022) * 2 ^ 52 + leading n (Nat.log2 n) := by
  rw [rounded, carried_bits (by rw [leastExponent]; omega), leastExponent]
  congr 2
  omega

theorem bitsOfNat_eq (hn : n ≠ 0) :
    bitsOfNat n = if 1024 ≤ Nat.log2 n then 2047 * 2 ^ 52 else (rounded n).bits := by
  rw [bitsOfNat, if_neg hn, rounded_bits, leading]
  by_cases h : Nat.log2 n ≤ 52 <;> simp only [pow2_eq, fractionBits, h, ↓reduceIte]

/-- What a natural number is read as. -/
theorem shape_ofNat (n : Nat) : ∃ v : Magnitude, v.Nearest n ∧ (∃ k : Nat, v.value = k) ∧
    Shape.ofFloat (ofNat n) =
      if v.exponent ≤ greatestExponent then .finite false v else .infinite false := by
  rcases eq_or_ne n 0 with rfl | hn
  · have hcanonical : Magnitude.zero.Canonical := ⟨by decide, le_rfl, .inr rfl⟩
    have hvalue : Magnitude.zero.value = 0 := by rw [value, Magnitude.zero, Nat.cast_zero, zero_mul]
    have hnearest := nearest_value hcanonical
    rw [hvalue] at hnearest
    refine ⟨.zero, by rwa [Nat.cast_zero], ⟨0, by rw [hvalue, Nat.cast_zero]⟩, ?_⟩
    rfl
  · refine ⟨rounded n, rounded_nearest hn, exists_rounded_value n, ?_⟩
    have hcanonical := (rounded_nearest hn).canonical
    have hbits := bitsOfNat_eq hn
    have hexp : (Nat.log2 n : Int) - 52 ≤ (rounded n).exponent := le_carried_exponent
    split
    case isTrue hmax =>
      have hlog : ¬ 1024 ≤ Nat.log2 n := by
        rw [greatestExponent] at hmax
        omega
      rw [if_neg hlog] at hbits
      have hlt : bitsOfNat n < 2 ^ 64 := by
        have := (bits_lt_iff hcanonical).2 hmax
        omega
      have hshape : Shape.ofBits (bitsOfNat n) = .finite false (rounded n) :=
        (Shape.ofBits_eq_finite_iff hlt).2
          ⟨hcanonical, hmax, by rw [hbits, withSign, Bool.toNat_false, zero_mul, zero_add]⟩
      rw [ofNat, ofFloat_ofBits hlt (by rw [hshape]; exact Shape.noConfusion), hshape]
    case isFalse hmax =>
      have hinfinite : bitsOfNat n = withSign false (2047 * 2 ^ 52) := by
        rw [hbits, withSign, Bool.toNat_false, zero_mul, zero_add]
        split
        · rfl
        · -- the leading bit is in range, so the carry has just reached the pattern of infinity
          have hlow := mt (bits_lt_iff hcanonical).1 hmax
          have hhigh := (leading_bounds hn).2
          rw [rounded_bits] at hlow ⊢
          omega
      have hlt : bitsOfNat n < 2 ^ 64 := by
        rw [hinfinite]
        decide
      have hshape : Shape.ofBits (bitsOfNat n) = .infinite false :=
        (Shape.ofBits_eq_infinite_iff hlt).2 hinfinite
      rw [ofNat, ofFloat_ofBits hlt (by rw [hshape]; exact Shape.noConfusion), hshape]

/-- A natural number that rounds to a double is read as that double. -/
theorem RoundsTo.ofNat_eq {x : Float} (h : RoundsTo n x) : ofNat n = x := by
  obtain ⟨v, hnearest, -, hshape⟩ := shape_ofNat n
  obtain ⟨w, hx, hnearest'⟩ := h
  rw [abs_of_nonneg (Nat.cast_nonneg n)] at hnearest'
  obtain rfl := hnearest.unique hnearest'
  rw [decide_eq_false (not_lt.2 (Nat.cast_nonneg n))] at hx
  rw [if_pos (ofFloat_finite hx).2, ← hx] at hshape
  refine ofFloat_inj hshape ?_
  rw [hshape, hx]
  exact Shape.noConfusion

/-- A natural number is read as the double it rounds to, or as infinity. -/
theorem roundsTo_or_infinite (n : Nat) :
    RoundsTo n (ofNat n) ∨ Shape.ofFloat (ofNat n) = .infinite false := by
  obtain ⟨v, hnearest, -, hshape⟩ := shape_ofNat n
  split at hshape
  · refine .inl ⟨v, ?_, ?_⟩
    · rw [hshape, decide_eq_false (not_lt.2 (Nat.cast_nonneg n))]
    · rwa [abs_of_nonneg (Nat.cast_nonneg n)]
  · exact .inr hshape

/-- Numbers that are read compare as equal only if they are the same, since none of them is a
    negative zero. -/
theorem ofNat_beq_iff {m n : Nat} : (ofNat m == ofNat n) = true ↔ ofNat m = ofNat n := by
  have hne (n : Nat) {x : Float} (hx : Shape.ofFloat x = .nan ∨ Shape.ofFloat x = .finite true .zero) :
      ofNat n ≠ x := by
    rintro rfl
    obtain ⟨v, -, -, hshape⟩ := shape_ofNat n
    rw [hshape] at hx
    split at hx <;> rcases hx with hx | hx <;> cases hx
  have hnan (n : Nat) : ofNat n ≠ Float.nan := hne n (.inl (by rfl))
  have hminus (n : Nat) : ofNat n ≠ -0 := hne n (.inr (by rfl))
  simp [Float.beq_iff_ne_nan_and_eq, hnan, hminus]

end ApplyLang.Number
