import ApplyLang.Number.Shortest
import ApplyLang.Proofs.Number.Rounding

/-!
# The shortest digits

The digits that are printed for a magnitude round to it, and no fewer digits do.

* `Magnitude.decimalExponent_spec` — the power of ten at or below a magnitude.
* `Magnitude.neighbour?_eq_none_iff` — a grid without a neighbour that reads back has no decimal at
  all that rounds to the magnitude, since the rounding interval has no holes.
* `Magnitude.neighbour?_seventeen` — the grid with seventeen digits is finer than the interval.
* `Magnitude.shortest_nearest`, `Magnitude.shortest_least` — the shortest digits round to their
  magnitude, and there are not more of them than in any other decimal that does.

A decimal that ends in a zero has fewer digits than it shows, so the zeros are dropped in the end
(`Magnitude.shortest_coefficient`).
-/

namespace ApplyLang.Number

/-- The number has at most `n` significant digits. -/
def HasDigits (n : Nat) (r : ℚ) : Prop :=
  ∃ (c : Nat) (s : Int), c < 10 ^ n ∧ |r| = c * 10 ^ s

theorem HasDigits.mono {m n : Nat} {r : ℚ} (h : HasDigits m r) (hmn : m ≤ n) : HasDigits n r := by
  obtain ⟨c, s, hc, hr⟩ := h
  exact ⟨c, s, hc.trans_le (Nat.pow_le_pow_right (by norm_num) hmn), hr⟩

theorem ten_zpow_pos (s : Int) : (0 : ℚ) < 10 ^ s := by positivity

/-- A coarser power of ten is a multiple of a finer one. -/
theorem ten_zpow_eq {s t : Int} (h : s ≤ t) : (10 : ℚ) ^ t = (10 ^ (t - s).toNat : Nat) * 10 ^ s := by
  have ht : t = (t - s).toNat + s := by omega
  push_cast
  rw [← zpow_natCast, ← zpow_add₀ (by norm_num), ← ht]

namespace Digits

/-- The number a decimal stands for. -/
def value (d : Digits) : ℚ := d.coefficient * 10 ^ d.scale

theorem value_nonneg (d : Digits) : 0 ≤ d.value :=
  mul_nonneg (Nat.cast_nonneg _) (ten_zpow_pos _).le

theorem denominator_pos (d : Digits) : 0 < d.denominator := by
  rw [denominator, pow10_eq]
  positivity

theorem value_eq_div (d : Digits) : d.value = d.numerator / d.denominator := by
  have h := pow_toNat (by norm_num : (10 : ℚ) ≠ 0) d.scale
  rw [eq_div_iff (Nat.cast_ne_zero.2 d.denominator_pos.ne'), value, numerator, denominator]
  push_cast [pow10_eq]
  rw [h]
  ring

theorem readsBack_iff {v : Magnitude} (hv : v.Canonical) (hne : v.mantissa ≠ 0) (d : Digits) :
    d.ReadsBack v ↔ v.Nearest d.value := by
  rw [ReadsBack, Magnitude.rounds_iff hv hne d.denominator_pos, value_eq_div]

theorem trimZeros_value (fuel : Nat) (d : Digits) : (trimZeros fuel d).value = d.value := by
  induction fuel generalizing d with
  | zero => rfl
  | succ fuel ih =>
    rw [trimZeros]
    split
    case isTrue h =>
      rw [ih, value, value]
      have hc : (d.coefficient : ℚ) = (d.coefficient / 10 : Nat) * 10 := by
        exact_mod_cast (by omega : d.coefficient = d.coefficient / 10 * 10)
      dsimp only
      rw [hc, zpow_add_one₀ (by norm_num)]
      ring
    case isFalse => rfl

theorem trimZeros_scale (fuel : Nat) (d : Digits) : d.scale ≤ (trimZeros fuel d).scale := by
  induction fuel generalizing d with
  | zero => exact le_rfl
  | succ fuel ih =>
    rw [trimZeros]
    split
    · have := ih ⟨d.coefficient / 10, d.scale + 1⟩
      dsimp only at this
      omega
    · exact le_rfl

/-- No zero is left at the end, if there is fuel for as many zeros as the coefficient has digits. -/
theorem trimZeros_coefficient {fuel : Nat} {d : Digits} (h0 : d.coefficient ≠ 0)
    (hd : d.coefficient < 10 ^ fuel) : (trimZeros fuel d).coefficient % 10 ≠ 0 := by
  induction fuel generalizing d with
  | zero =>
    rw [pow_zero] at hd
    omega
  | succ fuel ih =>
    rw [pow_succ] at hd
    rw [trimZeros]
    split
    case isTrue h =>
      have hpos : d.coefficient / 10 ≠ 0 := by omega
      have hlt : d.coefficient / 10 < 10 ^ fuel := by omega
      exact ih hpos hlt
    case isFalse h => exact h

end Digits

/-! ## Counting digits -/

theorem lt_pow_digitCount (n : Nat) : n < 10 ^ digitCount n :=
  (Nat.length_toDigits_le_iff (by norm_num) Nat.length_toDigits_pos).1 le_rfl

/-- A decimal that does not end in a zero shows no digit that its number could do without: every
    other decimal for this number is its coefficient with zeros behind it. -/
theorem Digits.digitCount_le {d : Digits} {n : Nat} (hd : d.coefficient % 10 ≠ 0)
    (hn : HasDigits n d.value) : digitCount d.coefficient ≤ n := by
  obtain ⟨c, s, hc, hvalue⟩ := hn
  rw [abs_of_nonneg d.value_nonneg, value] at hvalue
  have hle : s ≤ d.scale := by
    by_contra! hlt
    rw [ten_zpow_eq hlt.le, ← mul_assoc] at hvalue
    have hcoefficient : d.coefficient = c * 10 ^ (s - d.scale).toNat := by
      exact_mod_cast mul_right_cancel₀ (ten_zpow_pos d.scale).ne' hvalue
    obtain ⟨k, hk⟩ : ∃ k, (s - d.scale).toNat = k + 1 := ⟨(s - d.scale).toNat - 1, by omega⟩
    rw [hk, pow_succ, ← mul_assoc] at hcoefficient
    omega
  rw [ten_zpow_eq hle, ← mul_assoc] at hvalue
  have hcoefficient : d.coefficient * 10 ^ (d.scale - s).toNat = c := by
    exact_mod_cast mul_right_cancel₀ (ten_zpow_pos s).ne' hvalue
  have hlt : d.coefficient < 10 ^ n :=
    (Nat.le_mul_of_pos_right _ (by positivity)).trans_lt (hcoefficient.trans_lt hc)
  have hpos : 0 < n := by
    by_contra! h
    obtain rfl : n = 0 := by omega
    rw [pow_zero] at hlt
    omega
  exact (Nat.length_toDigits_le_iff (by norm_num) hpos).2 hlt

/-! ## The decimal exponent -/

theorem pow_digitCount_le {n : Nat} (hn : n ≠ 0) : 10 ^ (digitCount n - 1) ≤ n := by
  by_contra! h
  rcases Nat.eq_zero_or_pos (digitCount n - 1) with h0 | hpos
  · rw [h0, pow_zero] at h
    omega
  · have := (Nat.length_toDigits_le_iff (by norm_num) hpos).2 h
    unfold digitCount at this hpos
    omega

namespace Magnitude

variable {v : Magnitude} {r : ℚ}

theorem numerator_pos (hne : v.mantissa ≠ 0) : 0 < v.numerator := by
  rw [numerator, pow2_eq]
  positivity

/-- The decimal exponent is that of the power of ten at or below the magnitude. -/
theorem decimalExponent_spec (hne : v.mantissa ≠ 0) :
    (10 : ℚ) ^ v.decimalExponent ≤ v.value ∧ v.value < 10 ^ (v.decimalExponent + 1) := by
  have hp := numerator_pos hne
  have hq := v.denominator_pos
  have hq' : (0 : ℚ) < v.denominator := Nat.cast_pos.2 hq
  rw [value_eq_div, le_div_iff₀ hq', div_lt_iff₀ hq', decimalExponent]
  generalize v.numerator = p at *
  generalize v.denominator = q at *
  dsimp only
  split
  case isTrue h =>
    -- the whole part has as many digits as the magnitude has before the point
    have hquot : p / q ≠ 0 := (Nat.div_pos h hq).ne'
    have hpos : 0 < digitCount (p / q) := Nat.length_toDigits_pos
    have hlow : 10 ^ (digitCount (p / q) - 1) * q ≤ p :=
      (Nat.le_div_iff_mul_le hq).1 (pow_digitCount_le hquot)
    have hhigh : p < 10 ^ digitCount (p / q) * q :=
      (Nat.div_lt_iff_lt_mul hq).1 (lt_pow_digitCount (p / q))
    have he : ((digitCount (p / q) : Int) - 1) = (digitCount (p / q) - 1 : Nat) := by omega
    rw [sub_add_cancel, he, zpow_natCast, zpow_natCast]
    exact ⟨by exact_mod_cast hlow, by exact_mod_cast hhigh⟩
  case isFalse h =>
    -- below one the roles of the two sides are exchanged, and the quotient is rounded up
    have htwo : ¬ (q + p - 1) / p ≤ 1 := by
      have := (Nat.le_div_iff_mul_le hp (x := 2) (y := q + p - 1)).2 (by omega)
      omega
    rw [if_neg htwo, Int.negOfNat_eq, Int.ofNat_eq_natCast]
    generalize hup : (q + p - 1) / p = up at *
    have hpos : 0 < digitCount (up - 1) := Nat.length_toDigits_pos
    have hlow : q ≤ 10 ^ digitCount (up - 1) * p := by
      have hle : up ≤ 10 ^ digitCount (up - 1) := by
        have := lt_pow_digitCount (up - 1)
        omega
      have hlt : q + p - 1 < (up + 1) * p :=
        (Nat.div_lt_iff_lt_mul hp).1 (by omega)
      have := Nat.mul_le_mul_right p hle
      rw [add_one_mul] at hlt
      omega
    have hhigh : 10 ^ (digitCount (up - 1) - 1) * p < q := by
      have hle : 10 ^ (digitCount (up - 1) - 1) + 1 ≤ up := by
        have := pow_digitCount_le (n := up - 1) (by omega)
        omega
      have := (Nat.le_div_iff_mul_le hp).1 (hle.trans_eq hup.symm)
      rw [add_one_mul] at this
      omega
    have he : -(digitCount (up - 1) : Int) + 1 = -((digitCount (up - 1) - 1 : Nat) : Int) := by omega
    rw [he, zpow_neg, zpow_neg, zpow_natCast, zpow_natCast, inv_mul_le_iff₀ (by positivity),
      lt_inv_mul_iff₀ (by positivity)]
    exact ⟨by exact_mod_cast hlow, by exact_mod_cast hhigh⟩

/-! ## Neighbours on a decimal grid -/

/-- The two decimals on a grid that enclose the magnitude. -/
theorem floorAt_spec (v : Magnitude) (s : Int) :
    ((v.floorAt s).coefficient : ℚ) * 10 ^ s ≤ v.value ∧
      v.value < ((v.floorAt s).coefficient + 1) * 10 ^ s := by
  have hq := v.denominator_pos
  have hpow := pow_toNat (by norm_num : (10 : ℚ) ≠ 0) s
  have hden : 0 < v.denominator * pow10 s.toNat := Nat.mul_pos hq (by rw [pow10_eq]; positivity)
  have hlow := Nat.div_mul_le_self (v.numerator * pow10 (-s).toNat) (v.denominator * pow10 s.toNat)
  have hhigh := Nat.lt_mul_div_succ (v.numerator * pow10 (-s).toNat) hden
  change (v.floorAt s).coefficient * _ ≤ _ at hlow
  change _ < _ * ((v.floorAt s).coefficient + 1) at hhigh
  generalize (v.floorAt s).coefficient = c at *
  rw [value_eq_div, le_div_iff₀ (Nat.cast_pos.2 hq), div_lt_iff₀ (Nat.cast_pos.2 hq)]
  -- both sides have the positive part of the grid as a common factor
  have hfactor : (0 : ℚ) < 10 ^ (-s).toNat := by positivity
  rw [← mul_le_mul_iff_of_pos_right hfactor, ← mul_lt_mul_iff_of_pos_right hfactor]
  have hlow' : (c : ℚ) * (v.denominator * 10 ^ s.toNat) ≤ v.numerator * 10 ^ (-s).toNat := by
    exact_mod_cast hlow
  have hhigh' : (v.numerator : ℚ) * 10 ^ (-s).toNat < v.denominator * 10 ^ s.toNat * (c + 1) := by
    exact_mod_cast hhigh
  rw [hpow] at hlow' hhigh'
  constructor <;> linarith

theorem of_neighbour? {s : Int} {d : Digits} (h : v.neighbour? s = some d) :
    d.ReadsBack v ∧ d.scale = s ∧ d.coefficient ≤ (v.floorAt s).coefficient + 1 := by
  unfold neighbour? at h
  dsimp only at h
  split at h
  case h_1 hlower hupper =>
    split at h <;> cases h
    · exact ⟨of_decide_eq_true hupper, rfl, le_rfl⟩
    · exact ⟨of_decide_eq_true hlower, rfl, Nat.le_succ _⟩
  case h_2 hlower hupper =>
    cases h
    exact ⟨of_decide_eq_true hlower, rfl, Nat.le_succ _⟩
  case h_3 hlower hupper =>
    cases h
    exact ⟨of_decide_eq_true hupper, rfl, le_rfl⟩
  case h_4 => cases h

theorem neighbour?_eq_none {s : Int} : v.neighbour? s = none ↔
    ¬ (v.floorAt s).ReadsBack v ∧ ¬ Digits.ReadsBack ⟨(v.floorAt s).coefficient + 1, s⟩ v := by
  unfold neighbour?
  dsimp only
  split <;> simp_all

/-- If neither neighbour reads back, then no decimal on the grid rounds to the magnitude: one that
    does would enclose a neighbour together with the magnitude. -/
theorem neighbour?_eq_none_iff (hv : v.Canonical) (hne : v.mantissa ≠ 0) {s : Int} :
    v.neighbour? s = none ↔ ∀ k : Nat, ¬ v.Nearest (k * 10 ^ s) := by
  obtain ⟨hlow, hhigh⟩ := floorAt_spec v s
  have hself := nearest_value hv
  have hs := ten_zpow_pos s
  rw [neighbour?_eq_none, Digits.readsBack_iff hv hne, Digits.readsBack_iff hv hne]
  constructor
  · rintro ⟨hlower, hupper⟩ k hk
    rcases Nat.lt_or_ge (v.floorAt s).coefficient k with hlt | hge
    · have hle : ((v.floorAt s).coefficient : ℚ) + 1 ≤ k := by exact_mod_cast hlt
      refine hupper (hself.between hk v.value_nonneg ?_ ?_)
      · simp only [Digits.value]
        push_cast
        exact hhigh.le
      · simp only [Digits.value]
        push_cast
        exact mul_le_mul_of_nonneg_right hle hs.le
    · have hle : (k : ℚ) ≤ (v.floorAt s).coefficient := by exact_mod_cast hge
      exact hlower (hk.between hself (by positivity) (mul_le_mul_of_nonneg_right hle hs.le) hlow)
  · intro h
    exact ⟨h _, h _⟩

/-- On the grid `n` places below the leading digit there are `n + 1` digits. -/
theorem floorAt_lt (hne : v.mantissa ≠ 0) (n : Nat) :
    (v.floorAt (v.decimalExponent - n)).coefficient < 10 ^ (n + 1) := by
  obtain ⟨hlow, -⟩ := floorAt_spec v (v.decimalExponent - n)
  have hhigh := (decimalExponent_spec hne).2
  have hgrid := ten_zpow_eq (s := v.decimalExponent - n) (t := v.decimalExponent + 1) (by omega)
  have hn : (v.decimalExponent + 1 - (v.decimalExponent - n)).toNat = n + 1 := by omega
  rw [hgrid, hn] at hhigh
  exact_mod_cast lt_of_mul_lt_mul_right (hlow.trans_lt hhigh) (ten_zpow_pos _).le

/-- What a grid yields has no more digits than the grid: a coefficient that is rounded up to the
    next power of ten has one digit. -/
theorem hasDigits_of_neighbour? (hne : v.mantissa ≠ 0) {n : Nat} {d : Digits}
    (h : v.neighbour? (v.decimalExponent - n) = some d) : HasDigits (n + 1) d.value := by
  obtain ⟨-, hscale, hle⟩ := of_neighbour? h
  have hlt := floorAt_lt hne n
  rw [HasDigits, abs_of_nonneg d.value_nonneg]
  rcases Nat.lt_or_ge d.coefficient (10 ^ (n + 1)) with hc | hc
  · exact ⟨d.coefficient, d.scale, hc, rfl⟩
  · refine ⟨1, d.scale + (n + 1 : Nat), Nat.one_lt_pow (by omega) (by norm_num), ?_⟩
    have heq : d.coefficient = 10 ^ (n + 1) := by omega
    rw [Digits.value, heq, zpow_add₀ (by norm_num), zpow_natCast]
    push_cast
    ring

/-! ## Seventeen digits -/

theorem nearest_of_lt (hv : v.Canonical) (h1 : v.value - v.gap / 2 < r)
    (h2 : r < v.value + v.unit / 2) : v.Nearest r :=
  Within.nearest ⟨h1.le, h2.le, fun _ => ⟨h1, h2⟩⟩ hv

/-- A grid with seventeen digits is finer than the rounding interval, for `2 ^ 53 < 10 ^ 16`. -/
theorem neighbour?_seventeen (hv : v.Canonical) (hne : v.mantissa ≠ 0) :
    v.neighbour? (v.decimalExponent - 16) ≠ none := by
  intro hnone
  have hno := (neighbour?_eq_none_iff hv hne).1 hnone
  obtain ⟨hlow, hhigh⟩ := floorAt_spec v (v.decimalExponent - 16)
  have hs := ten_zpow_pos (v.decimalExponent - 16)
  have hu := v.unit_pos
  have hg := v.gap_pos
  have hgrid : (10 : ℚ) ^ (v.decimalExponent - 16) * 10 ^ 16 ≤ v.value := by
    have := (decimalExponent_spec hne).1
    rwa [ten_zpow_eq (s := v.decimalExponent - 16) (by omega), sub_sub_cancel, mul_comm,
      show (16 : Int).toNat = 16 from rfl, Nat.cast_pow, Nat.cast_ofNat] at this
  have hlower : ((v.floorAt (v.decimalExponent - 16)).coefficient : ℚ) *
      10 ^ (v.decimalExponent - 16) ≤ v.value - v.gap / 2 := by
    by_contra! h
    exact hno _ (nearest_of_lt hv h (by linarith))
  have hupper : v.value + v.unit / 2 ≤
      ((v.floorAt (v.decimalExponent - 16)).coefficient + 1) * 10 ^ (v.decimalExponent - 16) := by
    by_contra! h
    refine hno ((v.floorAt (v.decimalExponent - 16)).coefficient + 1) (nearest_of_lt hv ?_ ?_)
    · push_cast
      linarith
    · push_cast
      exact h
  have hmantissa : (v.mantissa : ℚ) < 2 ^ 53 := by exact_mod_cast hv.lt
  rw [value_eq v] at hgrid
  generalize (10 : ℚ) ^ (v.decimalExponent - 16) = g at *
  generalize ((v.floorAt (v.decimalExponent - 16)).coefficient : ℚ) = c at *
  rw [gap] at hlower
  split at hlower
  case isTrue h =>
    rw [h.1] at hgrid
    push_cast at hgrid
    nlinarith
  case isFalse h => nlinarith

/-! ## The search -/

/-- The search stops at the first grid that has a neighbour. -/
theorem search_spec {fuel : Nat} {s : Int} (h : ∃ j < fuel, v.neighbour? (s - j) ≠ none) :
    ∃ j : Nat, v.neighbour? (s - j) = some (v.search fuel s) ∧
      ∀ i < j, v.neighbour? (s - i) = none := by
  induction fuel generalizing s with
  | zero =>
    obtain ⟨j, hj, -⟩ := h
    omega
  | succ fuel ih =>
    rw [search]
    cases hs : v.neighbour? s with
    | some d =>
      refine ⟨0, ?_, fun i hi => by omega⟩
      rw [Nat.cast_zero, sub_zero, hs]
    | none =>
      obtain ⟨j, hj, hne⟩ := h
      have hshift (i : Nat) : s - (i + 1 : Nat) = s - 1 - i := by omega
      obtain ⟨k, hk, hbefore⟩ : ∃ k : Nat, v.neighbour? (s - 1 - k) =
          some (v.search fuel (s - 1)) ∧ ∀ i < k, v.neighbour? (s - 1 - i) = none := by
        cases j with
        | zero =>
          rw [Nat.cast_zero, sub_zero] at hne
          exact absurd hs hne
        | succ j => exact ih ⟨j, by omega, by rwa [← hshift]⟩
      refine ⟨k + 1, by rw [hshift]; exact hk, fun i hi => ?_⟩
      cases i with
      | zero => rw [Nat.cast_zero, sub_zero, hs]
      | succ i =>
        rw [hshift]
        exact hbefore i (by omega)

theorem shortest_spec (hv : v.Canonical) (hne : v.mantissa ≠ 0) :
    ∃ j : Nat, v.neighbour? (v.decimalExponent - j) = some (v.search 17 v.decimalExponent) ∧
      ∀ i < j, v.neighbour? (v.decimalExponent - i) = none :=
  search_spec ⟨16, by omega, neighbour?_seventeen hv hne⟩

/-! ## The shortest digits -/

theorem shortest_value (v : Magnitude) :
    v.shortest.value = (v.search 17 v.decimalExponent).value :=
  Digits.trimZeros_value 18 _

/-- The shortest digits round to their magnitude. -/
theorem shortest_nearest (hv : v.Canonical) (hne : v.mantissa ≠ 0) :
    v.Nearest v.shortest.value := by
  obtain ⟨j, hj, -⟩ := shortest_spec hv hne
  rw [shortest_value, ← Digits.readsBack_iff hv hne]
  exact (of_neighbour? hj).1

theorem not_nearest_zero (hne : v.mantissa ≠ 0) : ¬ v.Nearest 0 := by
  intro h
  have hlow := (h.within le_rfl).low
  have hgap := v.gap_le
  have hu := v.unit_pos
  have hm : (1 : ℚ) ≤ v.mantissa := by exact_mod_cast Nat.one_le_iff_ne_zero.2 hne
  rw [value_eq] at hlow
  nlinarith

/-- A decimal with `n + 1` digits that rounds to the magnitude has a companion on the grid with that
    many digits: it is on the grid itself, or else so small that the power of ten at or below the
    magnitude rounds to the magnitude as well. -/
theorem neighbour?_ne_none (hv : v.Canonical) (hne : v.mantissa ≠ 0) {n : Nat} (hr : v.Nearest r)
    (h0 : 0 ≤ r) (hd : HasDigits (n + 1) r) : v.neighbour? (v.decimalExponent - n) ≠ none := by
  rw [Ne, neighbour?_eq_none_iff hv hne, not_forall_not]
  obtain ⟨c, s, hc, habs⟩ := hd
  rw [abs_of_nonneg h0] at habs
  subst habs
  rcases le_or_gt (v.decimalExponent - n) s with hle | hlt
  · refine ⟨c * 10 ^ (s - (v.decimalExponent - n)).toNat, ?_⟩
    rw [Nat.cast_mul, mul_assoc, ← ten_zpow_eq hle]
    exact hr
  · have hsmall : (c : ℚ) * 10 ^ s ≤ 10 ^ v.decimalExponent := by
      have hc' : (c : ℚ) ≤ 10 ^ (n + 1) := by exact_mod_cast hc.le
      calc (c : ℚ) * 10 ^ s ≤ 10 ^ (n + 1) * 10 ^ s :=
            mul_le_mul_of_nonneg_right hc' (ten_zpow_pos s).le
        _ = 10 ^ ((n + 1 : Nat) + s) := by rw [zpow_add₀ (by norm_num), zpow_natCast]
        _ ≤ 10 ^ v.decimalExponent := zpow_le_zpow_right₀ (by norm_num) (by omega)
    refine ⟨10 ^ (v.decimalExponent - (v.decimalExponent - n)).toNat, ?_⟩
    rw [← ten_zpow_eq (by omega)]
    exact hr.between (nearest_value hv) h0 hsmall (decimalExponent_spec hne).1

theorem search_pos (hv : v.Canonical) (hne : v.mantissa ≠ 0) :
    (v.search 17 v.decimalExponent).coefficient ≠ 0 := by
  intro h0
  refine not_nearest_zero hne ?_
  have hnearest := v.shortest_nearest hv hne
  rwa [shortest_value, Digits.value, h0, Nat.cast_zero, zero_mul] at hnearest

/-- The shortest digits do not end in a zero. -/
theorem shortest_coefficient (hv : v.Canonical) (hne : v.mantissa ≠ 0) :
    v.shortest.coefficient % 10 ≠ 0 := by
  obtain ⟨j, hj, hbefore⟩ := shortest_spec hv hne
  have hj16 : j ≤ 16 := by
    by_contra! hlt
    exact neighbour?_seventeen hv hne (hbefore 16 hlt)
  have hlt : (v.search 17 v.decimalExponent).coefficient < 10 ^ 18 := by
    have hle := (of_neighbour? hj).2.2
    have hgrid := floorAt_lt hne j
    have hpow : 10 ^ (j + 1) ≤ 10 ^ 17 := Nat.pow_le_pow_right (by omega) (by omega)
    omega
  exact Digits.trimZeros_coefficient (search_pos hv hne) hlt

/-- A number with fewer digits than the shortest ones does not round to the magnitude. -/
theorem hasDigits_shortest (hv : v.Canonical) (hne : v.mantissa ≠ 0) {n : Nat} (hr : v.Nearest r)
    (h0 : 0 ≤ r) (hd : HasDigits n r) : HasDigits n v.shortest.value := by
  obtain ⟨j, hj, hbefore⟩ := shortest_spec hv hne
  rw [shortest_value]
  cases n with
  | zero =>
    obtain ⟨c, s, hc, habs⟩ := hd
    obtain rfl : c = 0 := by omega
    rw [Nat.cast_zero, zero_mul, abs_eq_zero] at habs
    exact absurd (habs ▸ hr) (not_nearest_zero hne)
  | succ n =>
    have hjn : j ≤ n := by
      by_contra! hlt
      exact neighbour?_ne_none hv hne hr h0 hd (hbefore n hlt)
    exact (hasDigits_of_neighbour? hne hj).mono (by omega)

/-- Every decimal that rounds to the magnitude has as many digits as the shortest one shows. -/
theorem shortest_least (hv : v.Canonical) (hne : v.mantissa ≠ 0) {n : Nat} (hr : v.Nearest r)
    (h0 : 0 ≤ r) (hd : HasDigits n r) : digitCount v.shortest.coefficient ≤ n :=
  Digits.digitCount_le (shortest_coefficient hv hne) (hasDigits_shortest hv hne hr h0 hd)

/-- A whole number is written without a point: it is on the grid of the whole numbers itself. -/
theorem shortest_scale (hv : v.Canonical) (hne : v.mantissa ≠ 0) {n : Nat} (hn : v.value = n) :
    0 ≤ v.shortest.scale := by
  obtain ⟨j, hj, hbefore⟩ := shortest_spec hv hne
  have hscale := (of_neighbour? hj).2.1
  have htrim := Digits.trimZeros_scale 18 (v.search 17 v.decimalExponent)
  have hwhole : v.neighbour? 0 ≠ none := by
    rw [Ne, neighbour?_eq_none_iff hv hne, not_forall_not]
    refine ⟨n, ?_⟩
    rw [zpow_zero, mul_one, ← hn]
    exact nearest_value hv
  have hj : (j : Int) ≤ v.decimalExponent := by
    by_contra! hlt
    have hexp : 0 ≤ v.decimalExponent := by
      by_contra! hneg
      have hlt := (decimalExponent_spec hne).2
      have hle : (10 : ℚ) ^ (v.decimalExponent + 1) ≤ 10 ^ (0 : Int) :=
        zpow_le_zpow_right₀ (by norm_num) (by omega)
      have hpos := value_pos hne
      rw [zpow_zero] at hle
      rw [hn] at hlt hpos
      have : n < 1 := by exact_mod_cast hlt.trans_le hle
      have : 0 < n := by exact_mod_cast hpos
      omega
    refine hwhole ?_
    have := hbefore v.decimalExponent.toNat (by omega)
    rwa [Int.toNat_of_nonneg hexp, sub_self] at this
  rw [shortest]
  omega

end Magnitude

end ApplyLang.Number
