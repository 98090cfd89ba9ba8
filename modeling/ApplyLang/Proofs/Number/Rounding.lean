import ApplyLang.Number.Binary
import Mathlib.Algebra.Order.Field.Power
import Mathlib.Algebra.Order.Field.Rat
import Mathlib.Tactic.FieldSimp
import Mathlib.Tactic.Linarith
import Mathlib.Tactic.Positivity
import Mathlib.Tactic.Ring

/-!
# Rounding

What it means that a number rounds to a magnitude, said by distances and again by an interval.

* `Magnitude.Canonical` — the magnitudes of doubles, and beyond the largest double the same pattern
  goes on without end.
* `Magnitude.Nearest` — a number rounds to a magnitude: no other canonical magnitude is nearer, and
  one that is equally near has lost by having an odd mantissa.
* `Magnitude.nearest_iff` — the numbers that round to a magnitude are an interval.
* `Magnitude.rounds_iff` — `Magnitude.Rounds`, which compares natural numbers, decides it.

Because the magnitudes go on beyond the doubles, a number that is nearer to `2 ^ 1024` than to the
largest double, or halfway between the two, rounds to no double: it overflows.
-/

namespace ApplyLang.Number

@[simp] theorem pow2_eq (n : Nat) : pow2 n = 2 ^ n := rfl

@[simp] theorem pow10_eq (n : Nat) : pow10 n = 10 ^ n := rfl

/-- A power with an integer exponent as a fraction of two powers with natural exponents. -/
theorem pow_toNat {b : ℚ} (hb : b ≠ 0) (z : Int) : b ^ z.toNat = b ^ z * b ^ (-z).toNat := by
  rw [← zpow_natCast, ← zpow_natCast, ← zpow_add₀ hb]
  congr 1
  omega

namespace Magnitude

/-- The number a magnitude stands for. -/
def value (v : Magnitude) : ℚ := v.mantissa * 2 ^ v.exponent

/-- The weight of the last bit of the mantissa. -/
def unit (v : Magnitude) : ℚ := 2 ^ v.exponent

/-- The mantissas and exponents that doubles have: 53 bits, and fewer at the least exponent only. -/
structure Canonical (v : Magnitude) : Prop where
  lt : v.mantissa < 2 ^ 53
  least_le : leastExponent ≤ v.exponent
  full : 2 ^ 52 ≤ v.mantissa ∨ v.exponent = leastExponent

/-- The number rounds to the magnitude, to nearest with ties to the even mantissa. -/
structure Nearest (v : Magnitude) (r : ℚ) : Prop where
  canonical : v.Canonical
  closest : ∀ w : Magnitude, w.Canonical → w ≠ v →
    |r - v.value| < |r - w.value| ∨ |r - v.value| = |r - w.value| ∧ v.mantissa % 2 = 0

/-- How far below a magnitude the next one is: half a unit below a power of two, else a unit. -/
def gap (v : Magnitude) : ℚ :=
  if v.mantissa = 2 ^ 52 ∧ v.exponent ≠ leastExponent then v.unit / 2 else v.unit

/-- The number lies in the rounding interval, and on an end of it only if the mantissa is even. -/
structure Within (v : Magnitude) (r : ℚ) : Prop where
  low : v.value - v.gap / 2 ≤ r
  high : r ≤ v.value + v.unit / 2
  inside : v.mantissa % 2 = 1 → v.value - v.gap / 2 < r ∧ r < v.value + v.unit / 2

variable {v w : Magnitude} {r : ℚ}

theorem unit_pos (v : Magnitude) : 0 < v.unit := by
  unfold unit
  positivity

theorem value_eq (v : Magnitude) : v.value = v.mantissa * v.unit := rfl

theorem value_nonneg (v : Magnitude) : 0 ≤ v.value :=
  mul_nonneg (Nat.cast_nonneg _) v.unit_pos.le

theorem value_pos (hv : v.mantissa ≠ 0) : 0 < v.value :=
  mul_pos (Nat.cast_pos.2 (Nat.pos_of_ne_zero hv)) v.unit_pos

theorem gap_pos (v : Magnitude) : 0 < v.gap := by
  have := v.unit_pos
  unfold gap
  split <;> linarith

theorem gap_le (v : Magnitude) : v.gap ≤ v.unit := by
  have := v.unit_pos
  unfold gap
  split <;> linarith

/-! ## Neighbours -/

theorem exists_mul_unit (h : v.exponent ≤ w.exponent) : ∃ k : Nat, w.value = k * v.unit := by
  refine ⟨w.mantissa * 2 ^ (w.exponent - v.exponent).toNat, ?_⟩
  have he : w.exponent = (w.exponent - v.exponent).toNat + v.exponent := by omega
  rw [value, unit, he, zpow_add₀ two_ne_zero, zpow_natCast, ← he]
  push_cast
  ring

theorem le_value_of_exponent_ne (hw : w.Canonical) (h : w.exponent ≠ leastExponent) :
    2 ^ 52 * w.unit ≤ w.value := by
  have hm : (2 : ℚ) ^ 52 ≤ w.mantissa := by exact_mod_cast hw.full.resolve_right h
  exact mul_le_mul_of_nonneg_right hm w.unit_pos.le

/-- A smaller exponent keeps a canonical magnitude half a unit below every power of two. -/
theorem value_le_of_exponent_lt (hv : v.Canonical) (h : v.exponent < w.exponent) :
    v.value ≤ 2 ^ 52 * w.unit - w.unit / 2 := by
  have hm : (v.mantissa : ℚ) ≤ 2 ^ 53 - 1 := by
    have := hv.lt
    exact_mod_cast (by omega : (v.mantissa : Int) ≤ 2 ^ 53 - 1)
  have hu : v.unit ≤ w.unit / 2 := by
    have hle : (2 : ℚ) ^ (v.exponent + 1) ≤ 2 ^ w.exponent :=
      zpow_le_zpow_right₀ one_le_two h
    rw [zpow_add_one₀ two_ne_zero] at hle
    exact (le_div_iff₀ two_pos).2 hle
  calc v.value ≤ (2 ^ 53 - 1) * v.unit := mul_le_mul_of_nonneg_right hm v.unit_pos.le
    _ ≤ (2 ^ 53 - 1) * (w.unit / 2) := mul_le_mul_of_nonneg_left hu (by norm_num)
    _ = 2 ^ 52 * w.unit - w.unit / 2 := by ring

theorem value_lt_of_exponent_lt (hv : v.Canonical) (hw : w.Canonical)
    (h : v.exponent < w.exponent) : v.value < w.value := by
  have hle := value_le_of_exponent_lt hv h
  have hge := le_value_of_exponent_ne hw (by have := hv.least_le; omega)
  have := w.unit_pos
  linarith

theorem exponent_le_of_value_lt (hv : v.Canonical) (hw : w.Canonical) (h : v.value < w.value) :
    v.exponent ≤ w.exponent := by
  by_contra! hlt
  exact lt_asymm h (value_lt_of_exponent_lt hw hv hlt)

/-- A canonical magnitude is known by its value. -/
theorem value_inj (hv : v.Canonical) (hw : w.Canonical) (h : v.value = w.value) : v = w := by
  have hexp : v.exponent = w.exponent := by
    rcases lt_trichotomy v.exponent w.exponent with hlt | heq | hlt
    · exact absurd h (value_lt_of_exponent_lt hv hw hlt).ne
    · exact heq
    · exact absurd h (value_lt_of_exponent_lt hw hv hlt).ne'
  obtain ⟨m, e⟩ := v
  obtain ⟨n, f⟩ := w
  obtain rfl : e = f := hexp
  have hunit : (2 : ℚ) ^ e ≠ 0 := by positivity
  obtain rfl : m = n := by exact_mod_cast mul_right_cancel₀ hunit h
  rfl

/-- No canonical magnitude lies less than a unit above another. -/
theorem add_unit_le (hv : v.Canonical) (hw : w.Canonical) (h : v.value < w.value) :
    v.value + v.unit ≤ w.value := by
  obtain ⟨k, hk⟩ := exists_mul_unit (exponent_le_of_value_lt hv hw h)
  rw [hk, value_eq] at h ⊢
  have hlt : v.mantissa < k := by exact_mod_cast lt_of_mul_lt_mul_right h v.unit_pos.le
  have hle : (v.mantissa : ℚ) + 1 ≤ k := by exact_mod_cast hlt
  nlinarith [v.unit_pos]

/-- No canonical magnitude lies less than the gap below another. -/
theorem le_sub_gap (hv : v.Canonical) (hw : w.Canonical) (h : w.value < v.value) :
    w.value ≤ v.value - v.gap := by
  rcases lt_or_ge w.exponent v.exponent with hlt | hge
  · have hne : v.exponent ≠ leastExponent := by
      have := hw.least_le
      omega
    have hw' := value_le_of_exponent_lt hw hlt
    rcases eq_or_ne v.mantissa (2 ^ 52) with hm | hm
    · rw [gap, if_pos ⟨hm, hne⟩, value_eq v, hm]
      push_cast
      exact hw'
    · have hm' : (2 : ℚ) ^ 52 + 1 ≤ v.mantissa := by
        have := hv.full.resolve_right hne
        exact_mod_cast (by omega : 2 ^ 52 + 1 ≤ v.mantissa)
      rw [gap, if_neg (fun h => hm h.1), value_eq v]
      nlinarith [v.unit_pos]
  · obtain ⟨k, hk⟩ := exists_mul_unit hge
    have hgap := v.gap_le
    rw [hk, value_eq] at h ⊢
    have hlt : k < v.mantissa := by exact_mod_cast lt_of_mul_lt_mul_right h v.unit_pos.le
    have hle : (k : ℚ) + 1 ≤ v.mantissa := by exact_mod_cast hlt
    nlinarith [v.unit_pos]

/-- The next canonical magnitude. -/
def next (v : Magnitude) : Magnitude :=
  if v.mantissa + 1 = 2 ^ 53 then ⟨2 ^ 52, v.exponent + 1⟩ else ⟨v.mantissa + 1, v.exponent⟩

/-- The canonical magnitude before one that is not zero. -/
def previous (v : Magnitude) : Magnitude :=
  if v.mantissa = 2 ^ 52 ∧ v.exponent ≠ leastExponent then ⟨2 ^ 53 - 1, v.exponent - 1⟩
  else ⟨v.mantissa - 1, v.exponent⟩

theorem Canonical.next (hv : v.Canonical) : v.next.Canonical := by
  have := hv.lt
  have := hv.least_le
  have := hv.full
  unfold Magnitude.next
  split
  · exact ⟨by norm_num, by dsimp only; omega, .inl le_rfl⟩
  · exact ⟨by dsimp only; omega, by dsimp only; omega, by dsimp only; omega⟩

theorem value_next (v : Magnitude) : v.next.value = v.value + v.unit := by
  unfold next value unit
  split
  case isTrue h =>
    have hm : (v.mantissa : ℚ) = 2 ^ 53 - 1 := by
      have : (v.mantissa : ℚ) + 1 = 2 ^ 53 := by exact_mod_cast h
      linarith
    rw [hm]
    dsimp only
    rw [zpow_add_one₀ two_ne_zero]
    push_cast
    ring
  case isFalse h =>
    push_cast
    ring

theorem next_parity (v : Magnitude) : v.next.mantissa % 2 ≠ v.mantissa % 2 := by
  unfold next
  split
  · dsimp only
    omega
  · dsimp only
    omega

theorem Canonical.previous (hv : v.Canonical) : v.previous.Canonical := by
  have := hv.lt
  have := hv.least_le
  have := hv.full
  unfold Magnitude.previous
  split
  · exact ⟨by norm_num, by dsimp only; omega, .inl (by norm_num)⟩
  · exact ⟨by dsimp only; omega, by dsimp only; omega, by dsimp only; omega⟩

theorem value_previous (hv : v.mantissa ≠ 0) : v.previous.value = v.value - v.gap := by
  unfold previous gap value unit
  split
  case isTrue h =>
    dsimp only
    rw [h.1, zpow_sub_one₀ two_ne_zero]
    push_cast
    ring
  case isFalse h =>
    dsimp only
    rw [Nat.cast_pred (Nat.pos_of_ne_zero hv)]
    ring

/-! ## The rounding interval -/

theorem Nearest.within (h : v.Nearest r) (hr : 0 ≤ r) : v.Within r := by
  have hhigh : r ≤ v.value + v.unit / 2 ∧ (v.mantissa % 2 = 1 → r < v.value + v.unit / 2) := by
    have hne : v.next ≠ v := fun h => v.next_parity (by rw [h])
    have hc := h.closest v.next h.canonical.next hne
    rw [value_next] at hc
    have hu := v.unit_pos
    grind
  have hlow : v.value - v.gap / 2 ≤ r ∧ (v.mantissa % 2 = 1 → v.value - v.gap / 2 < r) := by
    have hg := v.gap_pos
    by_cases hm : v.mantissa = 0
    · have hz : v.value = 0 := by rw [value, hm, Nat.cast_zero, zero_mul]
      refine ⟨by linarith, fun hodd => ?_⟩
      omega
    · have hvalue := value_previous hm
      have hne : v.previous ≠ v := by
        intro h
        rw [h] at hvalue
        linarith
      have hc := h.closest v.previous h.canonical.previous hne
      rw [hvalue] at hc
      grind
  exact ⟨hlow.1, hhigh.1, fun hodd => ⟨hlow.2 hodd, hhigh.2 hodd⟩⟩

theorem Within.nearest (h : v.Within r) (hv : v.Canonical) : v.Nearest r := by
  refine ⟨hv, fun w hw hne => ?_⟩
  have hu := v.unit_pos
  have hg := v.gap_pos
  have hgu := v.gap_le
  have := h.low
  have := h.high
  have := h.inside
  have hparity := Nat.mod_two_eq_zero_or_one v.mantissa
  rcases lt_trichotomy v.value w.value with hlt | heq | hgt
  · have := add_unit_le hv hw hlt
    grind
  · exact absurd (value_inj hv hw heq).symm hne
  · have := le_sub_gap hv hw hgt
    grind

/-- The non-negative numbers that round to a magnitude are those in its rounding interval. -/
theorem nearest_iff (hv : v.Canonical) (hr : 0 ≤ r) : v.Nearest r ↔ v.Within r :=
  ⟨fun h => h.within hr, fun h => h.nearest hv⟩

theorem nearest_value (hv : v.Canonical) : v.Nearest v.value :=
  Within.nearest ⟨by linarith [v.gap_pos], by linarith [v.unit_pos],
    fun _ => ⟨by linarith [v.gap_pos], by linarith [v.unit_pos]⟩⟩ hv

/-- What lies between two numbers that round to a magnitude rounds to it as well. -/
theorem Nearest.between {a b : ℚ} (ha : v.Nearest a) (hb : v.Nearest b) (h0 : 0 ≤ a) (h1 : a ≤ r)
    (h2 : r ≤ b) : v.Nearest r := by
  have hwa := ha.within h0
  have hwb := hb.within (by linarith)
  exact Within.nearest ⟨hwa.low.trans h1, h2.trans hwb.high,
    fun hodd => ⟨(hwa.inside hodd).1.trans_le h1, h2.trans_lt (hwb.inside hodd).2⟩⟩ ha.canonical

theorem Nearest.value_le (hv : v.Nearest r) (hw : w.Nearest r) : w.value ≤ v.value := by
  by_contra! hlt
  have hn := add_unit_le hv.canonical hw.canonical hlt
  have hu := v.unit_pos
  have hvalue := v.value_next
  have hnext := v.next_parity
  have hpar := hv.closest w hw.canonical fun h => by rw [h] at hlt; exact lt_irrefl _ hlt
  have hpar' := hw.closest v hv.canonical fun h => by rw [h] at hlt; exact lt_irrefl _ hlt
  have hclose := hv.closest v.next hv.canonical.next fun h => hnext (by rw [h])
  rcases eq_or_ne v.next w with rfl | hne
  · -- both are equally near, and the mantissas of neighbours are not both even
    grind
  · have : v.next.value ≠ w.value := fun h => hne (value_inj hv.canonical.next hw.canonical h)
    grind

/-- A number rounds to one magnitude at most. -/
theorem Nearest.unique (hv : v.Nearest r) (hw : w.Nearest r) : v = w :=
  value_inj hv.canonical hw.canonical (le_antisymm (hw.value_le hv) (hv.value_le hw))

/-! ## In natural numbers -/

theorem denominator_pos (v : Magnitude) : 0 < v.denominator := by
  rw [denominator, pow2_eq]
  positivity

theorem value_eq_div (v : Magnitude) : v.value = v.numerator / v.denominator := by
  have h := pow_toNat two_ne_zero v.exponent
  rw [eq_div_iff (Nat.cast_ne_zero.2 v.denominator_pos.ne'), value, numerator, denominator]
  push_cast [pow2_eq]
  rw [h]
  ring

variable {p q : Nat}

/-- A common factor turns both sides of the comparison into naturals. -/
theorem scaled_eq (v : Magnitude) (quarters : Nat) (hq : 0 < q) :
    ((v.scaled quarters p q).1 : ℚ) = quarters * (v.unit / 4) * (q * 2 ^ (2 - v.exponent).toNat) ∧
      ((v.scaled quarters p q).2 : ℚ) = p / q * (q * 2 ^ (2 - v.exponent).toNat) := by
  have h := pow_toNat two_ne_zero (v.exponent - 2)
  rw [neg_sub, zpow_sub₀ two_ne_zero] at h
  have hq' : (q : ℚ) ≠ 0 := by positivity
  constructor
  · rw [scaled, unit]
    push_cast [pow2_eq]
    rw [h]
    norm_num
    ring
  · rw [scaled]
    push_cast [pow2_eq]
    field_simp

theorem lowerQuarters_eq (hv : v.mantissa ≠ 0) :
    (v.lowerQuarters : ℚ) * (v.unit / 4) = v.value - v.gap / 2 := by
  have hpos : 1 ≤ 4 * v.mantissa := by omega
  have hpos' : 2 ≤ 4 * v.mantissa := by omega
  unfold lowerQuarters gap
  rw [value_eq, pow2_eq, fractionBits]
  split
  · rw [Nat.cast_sub hpos]
    push_cast
    ring
  · rw [Nat.cast_sub hpos']
    push_cast
    ring

theorem upperQuarters_eq (v : Magnitude) :
    (v.upperQuarters : ℚ) * (v.unit / 4) = v.value + v.unit / 2 := by
  rw [upperQuarters, value_eq]
  push_cast
  ring

theorem rounds_iff_within (hv : v.mantissa ≠ 0) (hq : 0 < q) :
    v.Rounds p q ↔ v.Within (p / q : ℚ) := by
  have hc : (0 : ℚ) < q * 2 ^ (2 - v.exponent).toNat := by positivity
  obtain ⟨hl₁, hl₂⟩ := v.scaled_eq (p := p) v.lowerQuarters hq
  obtain ⟨hu₁, hu₂⟩ := v.scaled_eq (p := p) v.upperQuarters hq
  rw [lowerQuarters_eq hv] at hl₁
  rw [upperQuarters_eq] at hu₁
  have hle {a b : Nat} {x y c : ℚ} (h : 0 < c) (ha : (a : ℚ) = x * c) (hb : (b : ℚ) = y * c) :
      (a ≤ b ↔ x ≤ y) ∧ (a < b ↔ x < y) := by
    rw [← Nat.cast_le (α := ℚ), ← Nat.cast_lt (α := ℚ), ha, hb]
    exact ⟨mul_le_mul_iff_of_pos_right h, mul_lt_mul_iff_of_pos_right h⟩
  rw [Rounds]
  simp only [(hle hc hl₁ hl₂).1, (hle hc hl₁ hl₂).2, (hle hc hu₂ hu₁).1, (hle hc hu₂ hu₁).2]
  split
  case isTrue h =>
    exact ⟨fun ⟨h1, h2⟩ => ⟨h1, h2, fun hodd => by omega⟩, fun h => ⟨h.low, h.high⟩⟩
  case isFalse h =>
    exact ⟨fun ⟨h1, h2⟩ => ⟨h1.le, h2.le, fun _ => ⟨h1, h2⟩⟩, fun h => h.inside (by omega)⟩

/-- The comparison of natural numbers decides what a fraction rounds to. -/
theorem rounds_iff (hv : v.Canonical) (hne : v.mantissa ≠ 0) (hq : 0 < q) :
    v.Rounds p q ↔ v.Nearest (p / q : ℚ) := by
  rw [rounds_iff_within hne hq, nearest_iff hv (by positivity)]

end Magnitude

end ApplyLang.Number
