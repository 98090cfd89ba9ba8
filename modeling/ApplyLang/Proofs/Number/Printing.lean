import ApplyLang.Number.Text
import ApplyLang.Proofs.Number.Reading
import ApplyLang.Proofs.Number.Shortest
import ApplyLang.Proofs.Source.Parsing
import ApplyLang.Proofs.Source.Tokens

/-!
# Numbers are printed and read back

* `Numeral` — a minus sign or none, digits, and perhaps a point with digits behind it; which of its
  digits are significant (`Numeral.significant`), and that no zero is superfluous (`Numeral.Plain`).
* `Digits.numeral` — the positional form of a decimal is a numeral for the same number. If the
  coefficient does not end in a zero, its digits are the significant ones, and no zero is
  superfluous.
* `text_eq_numeral` — the printed form of a finite double that is not zero is such a numeral.
* `parse_digits` — digits are read as one number.
* `text_parse_round_trip` — printed numbers round to the doubles they were printed for, and show as
  few significant digits as possible; and a number that is read from digits is printed as digits
  for the same double.
-/

namespace ApplyLang

open ApplyLang.Parser (naturalOf)
open ApplyLang.Text (byteLength)

namespace Number

/-- A decimal number as it is written without an exponent: a minus sign or none, digits, and a point
    if digits follow it. -/
structure Numeral where
  negative : Bool
  whole : List Char
  fraction : List Char
  whole_ne_nil : whole ≠ []
  isDigit : ∀ c ∈ whole ++ fraction, c.isDigit = true

namespace Numeral

/-- The characters of a numeral. -/
def text (d : Numeral) : String :=
  signed d.negative (d.whole ++ if d.fraction = [] then [] else '.' :: d.fraction)

/-- The number that a numeral denotes. -/
def value (d : Numeral) : ℚ :=
  (if d.negative then -1 else 1) * (naturalOf (d.whole ++ d.fraction) / 10 ^ d.fraction.length)

/-- The significant digits: all but the zeros in front, and but those at the end if there is no
    fraction, where they only hold places. A zero at the end of a fraction is significant. -/
def significant (d : Numeral) : List Char :=
  let digits := (d.whole ++ d.fraction).dropWhile (· == '0')
  if d.fraction = [] then digits.rdropWhile (· == '0') else digits

/-- No zero is written without need: none in front of another digit before the point, and none at
    the end behind the point. -/
structure Plain (d : Numeral) : Prop where
  whole : d.whole.head? = some '0' → d.whole = ['0']
  fraction : d.fraction.getLast? ≠ some '0'

end Numeral

/-! ## The positional form -/

theorem isDigit_zeros {n : Nat} : ∀ c ∈ zeros n, c.isDigit = true := by
  intro c hc
  rw [List.eq_of_mem_replicate hc]
  rfl

/-- Zeros in front of digits do not count, and each zero behind them is a factor. -/
theorem naturalOf_zeros (digits : List Char) (j k : Nat) :
    naturalOf (zeros j ++ digits ++ zeros k) = naturalOf digits * 10 ^ k := by
  simp only [naturalOf_eq, zeros, Nat.ofDigitChars_append, Nat.ofDigitChars_replicate_zero,
    Nat.mul_zero]
  exact Nat.mul_comm _ _

theorem dropWhile_zeros {c : Char} {digits : List Char} (hc : c ≠ '0')
    (h : digits.head? = some c) (j : Nat) :
    (zeros j ++ digits).dropWhile (· == '0') = digits := by
  obtain ⟨rest, rfl⟩ := List.head?_eq_some_iff.1 h
  rw [List.dropWhile_append_of_pos (by simp [zeros])]
  exact List.dropWhile_cons_of_neg (by simpa using hc)

theorem rdropWhile_zeros {c : Char} {digits : List Char} (hc : c ≠ '0')
    (h : digits.getLast? = some c) (k : Nat) :
    (digits ++ zeros k).rdropWhile (· == '0') = digits := by
  rw [← List.head?_reverse] at h
  rw [List.rdropWhile, List.reverse_append, zeros, List.reverse_replicate]
  exact (congrArg List.reverse (dropWhile_zeros hc h k)).trans (List.reverse_reverse _)

namespace Digits

/-- The digits of a decimal with a digit before the point at least. -/
def padded (d : Digits) : List Char :=
  zeros ((-d.scale).toNat + 1 - (Nat.toDigits 10 d.coefficient).length) ++
    Nat.toDigits 10 d.coefficient ++ zeros d.scale.toNat

theorem isDigit_padded (d : Digits) : ∀ c ∈ d.padded, c.isDigit = true := by
  intro c hc
  simp only [padded, List.mem_append] at hc
  rcases hc with (hc | hc) | hc
  · exact isDigit_zeros c hc
  · exact isDigit_of_mem_toDigits c hc
  · exact isDigit_zeros c hc

theorem lt_length_padded (d : Digits) : (-d.scale).toNat < d.padded.length := by
  have := Nat.length_toDigits_pos (b := 10) (n := d.coefficient)
  simp only [padded, zeros, List.length_append, List.length_replicate]
  omega

/-- A decimal as a numeral. -/
def numeral (negative : Bool) (d : Digits) : Numeral where
  negative := negative
  whole := d.padded.take (d.padded.length - (-d.scale).toNat)
  fraction := d.padded.drop (d.padded.length - (-d.scale).toNat)
  whole_ne_nil := by
    have := d.lt_length_padded
    rw [← List.length_pos_iff, List.length_take]
    omega
  isDigit := by
    rw [List.take_append_drop]
    exact d.isDigit_padded

theorem length_fraction (negative : Bool) (d : Digits) :
    (d.numeral negative).fraction.length = (-d.scale).toNat := by
  have := d.lt_length_padded
  rw [numeral, List.length_drop]
  omega

theorem text_numeral (negative : Bool) (d : Digits) :
    (d.numeral negative).text = signed negative d.positional := by
  have hnil : (d.numeral negative).fraction = [] ↔ (-d.scale).toNat = 0 := by
    rw [← List.length_eq_zero_iff, length_fraction]
  simp only [Numeral.text, hnil]
  refine congrArg (signed negative) ?_
  rcases le_or_gt 0 d.scale with h | h
  · have hneg : (-d.scale).toNat = 0 := by omega
    have hpos := Nat.length_toDigits_pos (b := 10) (n := d.coefficient)
    have hpad : 0 + 1 - (Nat.toDigits 10 d.coefficient).length = 0 := by omega
    rw [positional, if_pos h, if_pos hneg]
    simp only [numeral, padded, hneg, hpad, zeros, Nat.sub_zero, List.take_length,
      List.replicate_zero, List.nil_append, List.append_nil]
  · have hscale : d.scale.toNat = 0 := by omega
    rw [positional, if_neg (by omega), if_neg (by omega), numeral]
    simp only [padded, hscale, zeros, List.replicate_zero, List.append_nil]

/-- The digits of a numeral are those of the coefficient with zeros in front and behind, and behind
    only if there is no fraction. -/
theorem digits_numeral (negative : Bool) (d : Digits) :
    (d.numeral negative).whole ++ (d.numeral negative).fraction = d.padded :=
  List.take_append_drop _ _

theorem fraction_eq_nil_iff (negative : Bool) (d : Digits) :
    (d.numeral negative).fraction = [] ↔ 0 ≤ d.scale := by
  rw [← List.length_eq_zero_iff, length_fraction]
  omega

section Trimmed

variable {d : Digits} (hd : d.coefficient % 10 ≠ 0) (negative : Bool)

include hd

/-- The significant digits are those of the coefficient. -/
theorem significant_numeral :
    (d.numeral negative).significant = Nat.toDigits 10 d.coefficient := by
  obtain ⟨first, hfirst, hhead⟩ := head?_toDigits (n := d.coefficient) (by omega)
  obtain ⟨last, hlast, hend⟩ := getLast?_toDigits hd
  have hhead' : (Nat.toDigits 10 d.coefficient ++ zeros d.scale.toNat).head? = some first := by
    rw [List.head?_append, hhead]
    rfl
  rw [Numeral.significant, digits_numeral, padded, List.append_assoc,
    dropWhile_zeros hfirst hhead']
  split_ifs with h
  · exact rdropWhile_zeros hlast hend _
  · rw [fraction_eq_nil_iff] at h
    rw [show d.scale.toNat = 0 by omega]
    exact List.append_nil _

/-- A zero stands in front only if all digits of the coefficient are behind the point. -/
theorem whole_numeral (hzero : (d.numeral negative).whole.head? = some '0') :
    (d.numeral negative).whole = ['0'] := by
  obtain ⟨first, hfirst, hhead⟩ := head?_toDigits (n := d.coefficient) (by omega)
  have hlong := d.lt_length_padded
  have hpos := Nat.length_toDigits_pos (b := 10) (n := d.coefficient)
  have hwhole : d.padded.length - (-d.scale).toNat ≠ 0 := by omega
  simp only [numeral] at hzero ⊢
  by_cases hpoint : (-d.scale).toNat < (Nat.toDigits 10 d.coefficient).length
  · have hnone : (-d.scale).toNat + 1 - (Nat.toDigits 10 d.coefficient).length = 0 := by omega
    have hpadded : d.padded.head? = some first := by
      rw [padded, hnone, zeros, List.replicate_zero, List.nil_append, List.head?_append, hhead]
      rfl
    rw [List.head?_take, if_neg hwhole, hpadded] at hzero
    exact absurd (Option.some.inj hzero) hfirst
  · obtain ⟨m, hm⟩ : ∃ m, (-d.scale).toNat + 1 - (Nat.toDigits 10 d.coefficient).length = m + 1 :=
      ⟨(-d.scale).toNat - (Nat.toDigits 10 d.coefficient).length, by omega⟩
    have hone : d.padded.length - (-d.scale).toNat = 1 := by
      simp only [padded, zeros, List.length_append, List.length_replicate]
      omega
    rw [hone, padded, hm]
    rfl

/-- Behind the point the digits of the coefficient come last. -/
theorem getLast?_fraction_numeral : (d.numeral negative).fraction.getLast? ≠ some '0' := by
  obtain ⟨last, hlast, hend⟩ := getLast?_toDigits hd
  rw [numeral, List.getLast?_drop]
  split_ifs with h
  · exact nofun
  · have hscale : d.scale.toNat = 0 := by omega
    have hpadded : d.padded.getLast? = some last := by
      rw [padded, hscale, zeros, zeros, List.replicate_zero, List.append_nil,
        List.getLast?_append, hend]
      rfl
    rw [hpadded]
    exact fun heq => hlast (Option.some.inj heq)

theorem plain_numeral : (d.numeral negative).Plain :=
  ⟨whole_numeral hd negative, getLast?_fraction_numeral hd negative⟩

end Trimmed

theorem value_numeral (negative : Bool) (d : Digits) :
    (d.numeral negative).value = (if negative then -1 else 1) * d.value := by
  have hpow := pow_toNat (by norm_num : (10 : ℚ) ≠ 0) d.scale
  have hnatural : naturalOf ((d.numeral negative).whole ++ (d.numeral negative).fraction) =
      d.coefficient * 10 ^ d.scale.toNat := by
    rw [numeral, List.take_append_drop, padded, naturalOf_zeros, naturalOf_toDigits]
  rw [Numeral.value, hnatural, length_fraction, Digits.value]
  refine congrArg _ ?_
  rw [div_eq_iff (by positivity)]
  push_cast
  rw [hpow]
  ring

end Digits

/-! ## Printing -/

section Printed

variable {x : Float} {negative : Bool} {v : Magnitude}

/-- The printed form of a finite double that is not zero is that of its shortest digits. -/
theorem text_eq_numeral (hx : Shape.ofFloat x = .finite negative v) (hne : v.mantissa ≠ 0) :
    text x = (v.shortest.numeral negative).text := by
  rw [Digits.text_numeral, text, hx]
  exact if_neg hne

theorem roundsTo_iff {r : ℚ} (hx : Shape.ofFloat x = .finite negative v) :
    RoundsTo r x ↔ decide (r < 0) = negative ∧ v.Nearest |r| := by
  constructor
  · rintro ⟨w, hw, hnearest⟩
    rw [hx] at hw
    cases hw
    exact ⟨rfl, hnearest⟩
  · rintro ⟨rfl, hnearest⟩
    exact ⟨v, hx, hnearest⟩

theorem abs_numeral (negative : Bool) (d : Digits) : |(d.numeral negative).value| = d.value := by
  rw [Digits.value_numeral, abs_mul, abs_of_nonneg d.value_nonneg]
  cases negative <;> simp

/-- What is printed for a finite double that is not zero rounds to it. -/
theorem numeral_roundsTo (hx : Shape.ofFloat x = .finite negative v) (hne : v.mantissa ≠ 0) :
    RoundsTo (v.shortest.numeral negative).value x := by
  have hcanonical := (ofFloat_finite hx).1
  have hnearest := v.shortest_nearest hcanonical hne
  have hpos : 0 < v.shortest.value := by
    refine lt_of_le_of_ne (Digits.value_nonneg _) fun h => ?_
    rw [← h] at hnearest
    exact Magnitude.not_nearest_zero hne hnearest
  rw [roundsTo_iff hx, abs_numeral, Digits.value_numeral]
  refine ⟨?_, hnearest⟩
  cases negative
  · simpa using hpos.le
  · simpa using hpos

/-- Every number that rounds to the double has as many significant digits as are printed. -/
theorem numeral_least (hx : Shape.ofFloat x = .finite negative v) (hne : v.mantissa ≠ 0) {r : ℚ}
    {n : Nat} (hr : RoundsTo r x) (hd : HasDigits n r) :
    (v.shortest.numeral negative).significant.length ≤ n := by
  have hv := (ofFloat_finite hx).1
  have hd' : HasDigits n |r| := by
    obtain ⟨c, s, hc, h⟩ := hd
    exact ⟨c, s, hc, by rw [abs_abs, h]⟩
  rw [Digits.significant_numeral (v.shortest_coefficient hv hne)]
  exact v.shortest_least hv hne ((roundsTo_iff hx).1 hr).2 (abs_nonneg r) hd'

end Printed

end Number

/-! ## Reading -/

/-- Digits are read as the number they denote. -/
theorem parse_digits {digits : List Char} (hne : digits ≠ [])
    (hd : ∀ c ∈ digits, c.isDigit = true) : parse (String.ofList digits) =
      .ok (.number (Number.ofNat (naturalOf digits)) ⟨0, digits.length⟩) := by
  have hend : (Symbol.number digits).EndsBefore ([] : List Char).head? := by
    intro c hc
    cases hc
  have hscan := (Spells.number hne hd).scan hend 0
  rw [List.append_nil, Nat.zero_add, byteLength_digits hd] at hscan
  rw [parse_eq_ok_iff, String.toList_ofList, Token.scan, hscan]
  rfl

namespace Number

variable {x : Float}

/-- A whole number is printed as digits only. -/
theorem exists_digits {n : Nat} (hr : RoundsTo n x) : ∃ printed : List Char, printed ≠ [] ∧
    (∀ c ∈ printed, c.isDigit = true) ∧ text x = String.ofList printed ∧
      RoundsTo (naturalOf printed) x := by
  obtain ⟨v, hnearest, ⟨k, hk⟩, -⟩ := shape_ofNat n
  obtain ⟨w, hx, hnearest'⟩ := hr
  rw [abs_of_nonneg (Nat.cast_nonneg n)] at hnearest'
  obtain rfl := hnearest.unique hnearest'
  have hsign : decide ((n : ℚ) < 0) = false := decide_eq_false (not_lt.2 (Nat.cast_nonneg n))
  rcases eq_or_ne v.mantissa 0 with h0 | hne
  · refine ⟨['0'], List.cons_ne_nil _ _, List.forall_mem_singleton.2 rfl, ?_, ?_⟩
    · rw [text, hx]
      exact if_pos h0
    · have hzero : v.value = 0 := by rw [Magnitude.value, h0, Nat.cast_zero, zero_mul]
      have hself := Magnitude.nearest_value hnearest.canonical
      rw [hzero] at hself
      have hnone : ((naturalOf ['0'] : Nat) : ℚ) = 0 := Nat.cast_zero
      rw [hnone]
      exact ⟨v, by rw [hx, hsign]; rfl, by rwa [abs_zero]⟩
  · have hscale := Magnitude.shortest_scale hnearest.canonical hne hk
    have hfraction : (v.shortest.numeral false).fraction = [] := by
      rw [← List.length_eq_zero_iff, Digits.length_fraction]
      omega
    rw [hsign] at hx
    have hrounds := numeral_roundsTo hx hne
    refine ⟨(v.shortest.numeral false).whole, (v.shortest.numeral false).whole_ne_nil, ?_, ?_, ?_⟩
    · exact fun c hc => (v.shortest.numeral false).isDigit c (List.mem_append_left _ hc)
    · rw [text_eq_numeral hx hne, Numeral.text, if_pos hfraction, List.append_nil]
      rfl
    · rw [Numeral.value, hfraction, List.append_nil, List.length_nil, pow_zero, div_one] at hrounds
      change RoundsTo (1 * _) x at hrounds
      rwa [one_mul] at hrounds

/-- What is printed for a number that was read: digits that round to it, or a word if the number was
    too large for a double. -/
theorem text_ofNat (n : Nat) :
    (∃ printed : List Char, printed ≠ [] ∧ (∀ c ∈ printed, c.isDigit = true) ∧
      text (ofNat n) = String.ofList printed ∧ RoundsTo (naturalOf printed) (ofNat n)) ∨
    Shape.ofFloat (ofNat n) = .infinite false ∧ text (ofNat n) = "Infinity" := by
  rcases roundsTo_or_infinite n with hr | hinfinite
  · exact .inl (exists_digits hr)
  · refine .inr ⟨hinfinite, ?_⟩
    rw [text, hinfinite]
    rfl

/-- Numbers that were read are printed alike only if they are the same. -/
theorem text_ofNat_inj {m n : Nat} (h : text (ofNat m) = text (ofNat n)) : ofNat m = ofNat n := by
  -- a word begins with no digit
  have hword {printed : List Char} (hne : printed ≠ []) (hd : ∀ c ∈ printed, c.isDigit = true) :
      String.ofList printed ≠ "Infinity" := by
    intro heq
    obtain rfl : printed = "Infinity".toList := by rw [← heq, String.toList_ofList]
    exact absurd (hd 'I' (by decide)) (by decide)
  rcases text_ofNat m with ⟨a, hne, hd, htext, hr⟩ | ⟨hinfinite, htext⟩ <;>
    rcases text_ofNat n with ⟨b, hne', hd', htext', hr'⟩ | ⟨hinfinite', htext'⟩
  · obtain rfl : a = b := by rw [← String.ofList_inj, ← htext, ← htext', h]
    exact hr.unique hr'
  · exact absurd (htext.symm.trans (h.trans htext')) (hword hne hd)
  · exact absurd (htext'.symm.trans (h.symm.trans htext)) (hword hne' hd')
  · refine ofFloat_inj (hinfinite.trans hinfinite'.symm) ?_
    rw [hinfinite]
    exact Shape.noConfusion

/-- A number that was read is not written with blanks, and begins in no other way than with a digit
    or as the word for what is too large. -/
theorem text_ofNat_chars (n : Nat) :
    (∀ c ∈ (text (ofNat n)).toList, c ≠ ' ') ∧
      ∃ c rest, (text (ofNat n)).toList = c :: rest ∧ (c.isDigit = true ∨ c = 'I') := by
  rcases text_ofNat n with ⟨printed, hne, hd, htext, -⟩ | ⟨-, htext⟩
  · rw [htext, String.toList_ofList]
    obtain ⟨c, rest, rfl⟩ := List.exists_cons_of_ne_nil hne
    refine ⟨fun d hd' => ?_, c, rest, rfl, .inl (hd c List.mem_cons_self)⟩
    rintro rfl
    exact absurd (hd _ hd') (by decide)
  · rw [htext]
    exact ⟨by simp, 'I', "nfinity".toList, rfl, .inr rfl⟩

/-- Printed numbers are read back. The printed form of a finite double other than the zeros is a
    numeral without a superfluous zero that rounds to this double, and no number with fewer
    significant digits than are printed does. Digits that round to a double are read as that double,
    which is printed as digits that are read as the same double again. -/
theorem text_parse_round_trip :
    (∀ x : Float, x.isFinite = true → (x == 0) = false → ∃ d : Numeral, text x = d.text ∧
      RoundsTo d.value x ∧ d.Plain ∧
      ∀ r n, RoundsTo r x → HasDigits n r → d.significant.length ≤ n) ∧
    ∀ (digits : List Char) (x : Float), digits ≠ [] → (∀ c ∈ digits, c.isDigit = true) →
      RoundsTo (naturalOf digits) x →
        parse (String.ofList digits) = .ok (.number x ⟨0, digits.length⟩) ∧
          ∃ printed : List Char, printed ≠ [] ∧ (∀ c ∈ printed, c.isDigit = true) ∧
            text x = String.ofList printed ∧
              parse (text x) = .ok (.number x ⟨0, printed.length⟩) := by
  refine ⟨fun x hfinite h0 => ?_, fun digits x hne hd hr => ⟨?_, ?_⟩⟩
  · obtain ⟨negative, v, hx, hne⟩ := exists_magnitude hfinite h0
    have hcoefficient := v.shortest_coefficient (ofFloat_finite hx).1 hne
    exact ⟨v.shortest.numeral negative, text_eq_numeral hx hne, numeral_roundsTo hx hne,
      Digits.plain_numeral hcoefficient negative, fun r n hr hn => numeral_least hx hne hr hn⟩
  · rw [parse_digits hne hd, hr.ofNat_eq]
  · obtain ⟨printed, hne, hd, htext, hr⟩ := exists_digits hr
    exact ⟨printed, hne, hd, htext, by rw [htext, parse_digits hne hd, hr.ofNat_eq]⟩

/-- One tenth is not a double, but one digit is printed for the double nearest to it. And the number
    that is read here is halfway between two doubles: the even one of them is taken. -/
theorem text_parse_round_trip_halfway :
    (∃ d : Numeral, text 0.1 = d.text ∧ RoundsTo d.value 0.1 ∧ d.significant.length ≤ 1) ∧
      parse "9007199254740993" = .ok (.number (ofNat 9007199254740992) ⟨0, 16⟩) := by
  have hrounds : RoundsTo (naturalOf "9007199254740993".toList) (ofNat 9007199254740992) := by
    have hnatural : naturalOf "9007199254740993".toList = 9007199254740993 := by decide
    rw [hnatural]
    refine ⟨⟨2 ^ 52, 1⟩, by decide +kernel,
      Magnitude.Within.nearest ?_ ⟨by decide, by decide, .inl le_rfl⟩⟩
    exact ⟨by norm_num [Magnitude.value, Magnitude.gap, Magnitude.unit, leastExponent],
      by norm_num [Magnitude.value, Magnitude.unit], fun h => by cases h⟩
  have htenth : RoundsTo (1 / 10) 0.1 := by
    refine ⟨⟨7205759403792794, -56⟩, by decide +kernel,
      Magnitude.Within.nearest ?_ ⟨by decide, by decide, .inl (by decide)⟩⟩
    exact ⟨by norm_num [Magnitude.value, Magnitude.gap, Magnitude.unit, leastExponent, abs_of_pos],
      by norm_num [Magnitude.value, Magnitude.unit, abs_of_pos], fun h => by cases h⟩
  have hone : HasDigits 1 (1 / 10) := ⟨1, -1, by norm_num, by norm_num [abs_of_pos]⟩
  obtain ⟨d, htext, hr, -, hleast⟩ :=
    text_parse_round_trip.1 0.1 (by decide +kernel) (by decide +kernel)
  have hdigits : ∀ c ∈ "9007199254740993".toList, c.isDigit = true :=
    List.all_eq_true.1 (by decide +kernel)
  exact ⟨⟨d, htext, hr, hleast (1 / 10) 1 htenth hone⟩,
    (text_parse_round_trip.2 _ _ (by decide) hdigits hrounds).1⟩

end Number

end ApplyLang
