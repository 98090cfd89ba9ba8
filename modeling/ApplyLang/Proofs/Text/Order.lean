import ApplyLang.Text.Bytes
import Mathlib.Data.String.Basic
import Mathlib.Data.Char
import Mathlib.Tactic.SplitIfs

/-!
# The order of texts

Texts are compared by the code points at their first difference, and a text comes before all texts
that it begins. Stored as bytes they are in the same order: the leading byte of a character grows
with the number of its bytes, and the bytes of characters of one size are digits of their code
points, the most significant first.

* `Below` — two lists of bytes differ somewhere, and the first has the smaller byte there.
* `below_encode` — the bytes of two characters differ like this, so none begins the other.
* `bytes_lt_iff` — the order of bytes is the order of code points.
-/

namespace ApplyLang.Text

/-- The lists differ at some place, and at the first such place the byte of `a` is smaller. -/
inductive Below : List UInt8 → List UInt8 → Prop
  | head {x y : UInt8} (h : x < y) (a b : List UInt8) : Below (x :: a) (y :: b)
  | cons (x : UInt8) {a b : List UInt8} (h : Below a b) : Below (x :: a) (x :: b)

/-- Whatever follows, the first difference decides. -/
theorem Below.append_lt {a b : List UInt8} (h : Below a b) (s t : List UInt8) :
    a ++ s < b ++ t := by
  induction h with
  | head h a b => exact List.Lex.rel h
  | cons x _ ih => exact List.Lex.cons ih

theorem ofNat_lt {m n : ℕ} (hn : n < 256) (h : m < n) : UInt8.ofNat m < UInt8.ofNat n := by
  rw [UInt8.lt_iff_toNat_lt, UInt8.toNat_ofNat', UInt8.toNat_ofNat']
  omega

/-! ## Characters -/

/-- The bytes of a character behind its leading one: six bits each, the highest first. -/
def trailing : ℕ → ℕ → List UInt8
  | 0, _ => []
  | count + 1, code => UInt8.ofNat (code / 64 ^ count % 64 + 0x80) :: trailing count code

/-- If the bits before the trailing bytes are the same, those bytes differ as the codes do. -/
theorem below_trailing {m n : ℕ} (h : m < n) (count : ℕ) (hsame : m / 64 ^ count = n / 64 ^ count) :
    Below (trailing count m) (trailing count n) := by
  induction count with
  | zero =>
    rw [pow_zero, Nat.div_one, Nat.div_one] at hsame
    exact absurd hsame h.ne
  | succ count ih =>
    rw [pow_succ, ← Nat.div_div_eq_div_mul, ← Nat.div_div_eq_div_mul] at hsame
    have hle : m / 64 ^ count ≤ n / 64 ^ count := Nat.div_le_div_right h.le
    rcases eq_or_lt_of_le hle with heq | hlt
    · rw [trailing, trailing, heq]
      exact .cons _ (ih heq)
    · exact .head (ofNat_lt (by omega) (by omega)) _ _

/-- Characters with the same number of bytes. -/
theorem below_encoded {m n : ℕ} (h : m < n) {count room offset : ℕ} (hn : n / 64 ^ count < room)
    (hroom : room + offset ≤ 256) :
    Below (UInt8.ofNat (m / 64 ^ count % room + offset) :: trailing count m)
      (UInt8.ofNat (n / 64 ^ count % room + offset) :: trailing count n) := by
  have hle : m / 64 ^ count ≤ n / 64 ^ count := Nat.div_le_div_right h.le
  rcases eq_or_lt_of_le hle with heq | hlt
  · rw [heq]
    exact .cons _ (below_trailing h count heq)
  · rw [Nat.mod_eq_of_lt hn, Nat.mod_eq_of_lt (hlt.trans hn)]
    exact .head (ofNat_lt (by omega) (by omega)) _ _

/-- The encoding of a character: how many bytes there are, and which bits the leading one has. -/
theorem encode_eq (c : Char) : String.utf8EncodeChar c =
    if c.toNat ≤ 0x7f then [UInt8.ofNat c.toNat]
    else if c.toNat ≤ 0x7ff then
      UInt8.ofNat (c.toNat / 64 ^ 1 % 0x20 + 0xc0) :: trailing 1 c.toNat
    else if c.toNat ≤ 0xffff then
      UInt8.ofNat (c.toNat / 64 ^ 2 % 0x10 + 0xe0) :: trailing 2 c.toNat
    else UInt8.ofNat (c.toNat / 64 ^ 3 % 0x08 + 0xf0) :: trailing 3 c.toNat := by
  simp [String.utf8EncodeChar, trailing]

theorem toNat_lt (c : Char) : c.toNat < 0x110000 := by
  have := c.valid
  simp only [UInt32.isValidChar, Nat.isValidChar] at this
  show c.val.toNat < _
  omega

/-- The bytes of characters are in the order of the code points. -/
theorem below_encode {c d : Char} (h : c < d) :
    Below (String.utf8EncodeChar c) (String.utf8EncodeChar d) := by
  have hlt : c.toNat < d.toNat := h
  have hd := toNat_lt d
  rw [encode_eq, encode_eq]
  generalize c.toNat = m at hlt
  generalize d.toNat = n at hlt hd
  split_ifs
  · exact .head (ofNat_lt (by omega) hlt) _ _
  · exact .head (ofNat_lt (by omega) (by omega)) _ _
  · exact .head (ofNat_lt (by omega) (by omega)) _ _
  · exact .head (ofNat_lt (by omega) (by omega)) _ _
  · omega
  · exact below_encoded hlt (by omega) (by omega)
  · exact .head (ofNat_lt (by omega) (by omega)) _ _
  · exact .head (ofNat_lt (by omega) (by omega)) _ _
  · omega
  · omega
  · exact below_encoded hlt (by omega) (by omega)
  · exact .head (ofNat_lt (by omega) (by omega)) _ _
  · omega
  · omega
  · omega
  · exact below_encoded hlt (by omega) (by omega)

/-! ## Texts -/

theorem bytes_cons (c : Char) (s : List Char) :
    bytes (c :: s) = String.utf8EncodeChar c ++ bytes s :=
  List.flatMap_cons

theorem bytes_lt_of_lt {s t : List Char} (h : s < t) : bytes s < bytes t := by
  induction h with
  | @nil c t =>
    rw [bytes_cons]
    obtain ⟨x, rest, hx⟩ := List.exists_cons_of_ne_nil (String.utf8EncodeChar_ne_nil (c := c))
    rw [hx]
    exact List.Lex.nil
  | @rel c s d t h =>
    rw [bytes_cons, bytes_cons]
    exact (below_encode h).append_lt _ _
  | @cons c s t _ ih =>
    rw [bytes_cons, bytes_cons]
    exact List.append_left_lt ih

/-- The order of the bytes of texts is that of their code points. -/
theorem bytes_lt_iff {s t : List Char} : bytes s < bytes t ↔ s < t := by
  refine ⟨fun h => ?_, bytes_lt_of_lt⟩
  rcases lt_trichotomy s t with hlt | rfl | hgt
  · exact hlt
  · exact absurd h (List.lt_irrefl _)
  · exact absurd (bytes_lt_of_lt hgt) (List.lt_asymm h)

end ApplyLang.Text
