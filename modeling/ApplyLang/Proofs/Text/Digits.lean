import ApplyLang.Source.Parser

/-!
# Runs of characters

Where a run of characters of one kind ends, how many bytes it has, and numbers written as such runs.

* `run_unique`, `run_until` — a text has one longest run of characters of a kind at its beginning.
* `byteLength_eq_length_iff` — runs of characters of one byte.
* `naturalOf_toDigits`, `toDigits_inj` — the digits of a natural number tell it apart.
* `head?_toDigits`, `getLast?_toDigits` — no zero stands in front of them, and none behind them
  unless ten divides the number.
-/

namespace ApplyLang

open ApplyLang.Parser (naturalOf)

/-- There is one place only where the characters of a kind at the beginning of a text can end. -/
theorem run_unique {p : Char → Bool} {a b x y : List Char} (h : a ++ x = b ++ y)
    (ha : ∀ c ∈ a, p c = true) (hb : ∀ c ∈ b, p c = true) (hx : ∀ c ∈ x.head?, p c = false)
    (hy : ∀ c ∈ y.head?, p c = false) : a = b ∧ x = y := by
  induction a generalizing b with
  | nil =>
    cases b with
    | nil => exact ⟨rfl, h⟩
    | cons c b =>
      obtain rfl : x = c :: (b ++ y) := h
      have hc := hb c List.mem_cons_self
      rw [hx c rfl] at hc
      cases hc
  | cons c a ih =>
    cases b with
    | nil =>
      obtain rfl : c :: (a ++ x) = y := h
      have hc := ha c List.mem_cons_self
      rw [hy c rfl] at hc
      cases hc
    | cons d b =>
      obtain ⟨rfl, htail⟩ := List.cons.inj h
      obtain ⟨rfl, rfl⟩ := ih htail (fun c hc => ha c (List.mem_cons_of_mem _ hc))
        fun c hc => hb c (List.mem_cons_of_mem _ hc)
      exact ⟨rfl, rfl⟩

/-! ## Bytes and characters -/

/-- A run that ends before a certain character, and does not hold it. -/
theorem run_until {d : Char} {a b x y : List Char} (h : a ++ d :: x = b ++ d :: y)
    (ha : ∀ c ∈ a, c ≠ d) (hb : ∀ c ∈ b, c ≠ d) : a = b ∧ x = y := by
  obtain ⟨rfl, hxy⟩ := run_unique (p := (· != d)) h (by simpa using ha) (by simpa using hb)
    (by simp) (by simp)
  exact ⟨rfl, (List.cons.inj hxy).2⟩

namespace Text

theorem length_le_byteLength (text : List Char) : text.length ≤ byteLength text := by
  induction text with
  | nil => exact Nat.le_refl _
  | cons c rest ih =>
    have hpos := c.utf8Size_pos
    simp only [List.length_cons, byteLength]
    omega

/-- As many bytes as characters are characters of one byte. -/
theorem byteLength_eq_length_iff {text : List Char} :
    byteLength text = text.length ↔ ∀ c ∈ text, c.utf8Size = 1 := by
  induction text with
  | nil => simp [byteLength]
  | cons c rest ih =>
    have hpos := c.utf8Size_pos
    have hle := length_le_byteLength rest
    rw [List.forall_mem_cons, ← ih]
    simp only [List.length_cons, byteLength]
    omega

end Text

/-! ## Digits of natural numbers -/

theorem utf8Size_of_isDigit {c : Char} (hc : c.isDigit = true) : c.utf8Size = 1 := by
  rw [Char.utf8Size_eq_one_iff]
  simp only [Char.isDigit, Bool.and_eq_true, decide_eq_true_eq] at hc
  exact UInt32.le_trans hc.2 (by decide)

/-- Digits take up a byte each. -/
theorem byteLength_digits {digits : List Char} (hd : ∀ c ∈ digits, c.isDigit = true) :
    Text.byteLength digits = digits.length :=
  Text.byteLength_eq_length_iff.2 fun c hc => utf8Size_of_isDigit (hd c hc)

theorem isDigit_of_mem_toDigits {n : Nat} : ∀ c ∈ Nat.toDigits 10 n, c.isDigit = true :=
  fun _ h => Nat.isDigit_of_mem_toDigits (by decide) (by decide) h

/-- A number is written with digits only. -/
theorem not_mem_toDigits {c : Char} (hc : c.isDigit = false) (n : Nat) : c ∉ Nat.toDigits 10 n := by
  intro h
  rw [isDigit_of_mem_toDigits c h] at hc
  cases hc

theorem naturalOf_eq (digits : List Char) : naturalOf digits = Nat.ofDigitChars 10 digits 0 := rfl

@[simp] theorem naturalOf_toDigits (n : Nat) : naturalOf (Nat.toDigits 10 n) = n :=
  Nat.ofDigitChars_ten_toDigits

theorem digitChar_ne_zero : ∀ k < 10, k ≠ 0 → k.digitChar ≠ '0' := by
  decide

theorem head?_toDigits {n : Nat} (hn : n ≠ 0) :
    ∃ c ≠ '0', (Nat.toDigits 10 n).head? = some c := by
  induction n using Nat.strongRecOn with
  | ind n ih =>
    by_cases hlt : n < 10
    · refine ⟨n.digitChar, digitChar_ne_zero n hlt hn, ?_⟩
      rw [Nat.toDigits_of_lt_base hlt, List.head?_singleton]
    · obtain ⟨c, hc, hfirst⟩ := ih (n / 10) (by omega) (by omega)
      refine ⟨c, hc, ?_⟩
      rw [Nat.toDigits_of_base_le (by omega) (by omega), List.head?_append, hfirst]
      rfl

theorem getLast?_toDigits {n : Nat} (hn : n % 10 ≠ 0) :
    ∃ c ≠ '0', (Nat.toDigits 10 n).getLast? = some c := by
  refine ⟨(n % 10).digitChar, digitChar_ne_zero (n % 10) (by omega) hn, ?_⟩
  by_cases hlt : n < 10
  · rw [Nat.toDigits_of_lt_base hlt, Nat.mod_eq_of_lt hlt]
    rfl
  · rw [Nat.toDigits_of_base_le (by omega) (by omega), List.getLast?_concat]

theorem toDigits_inj {m n : Nat} : Nat.toDigits 10 m = Nat.toDigits 10 n ↔ m = n := by
  refine ⟨fun h => ?_, fun h => h ▸ rfl⟩
  rw [← naturalOf_toDigits m, h, naturalOf_toDigits]

end ApplyLang
