/-!
# Texts as bytes

Output is counted in bytes, so a text that is cut short may end inside a character.

* `bytes` — the UTF-8 form of a list of characters.
* `decode` — the characters of a beginning of such a form; a character that was cut shows as one
  replacement character.
-/

namespace ApplyLang.Text

/-- UTF-8 form of a list of characters. -/
def bytes (text : List Char) : List UInt8 :=
  text.flatMap String.utf8EncodeChar

/-- Number of bytes of the UTF-8 form of a list of characters. -/
def byteLength : List Char → Nat
  | [] => 0
  | c :: rest => c.utf8Size + byteLength rest

/-- Shown for a character of which only the first bytes are there. -/
def replacement : Char := '\uFFFD'

/-- A character whose leading byte has been read: the code point so far, and how many bytes are
    still owed. -/
structure Unfinished where
  code : Nat
  owed : Nat

/-- What a leading byte says about its character: the high bits of the code point and the number of
    bytes that follow. -/
def lead (b : UInt8) : Unfinished :=
  let n := b.toNat
  if n < 0x80 then ⟨n, 0⟩
  else if n < 0xE0 then ⟨n % 32, 1⟩
  else if n < 0xF0 then ⟨n % 16, 2⟩
  else ⟨n % 8, 3⟩

/-- One more byte of a character. -/
def Unfinished.extend (p : Unfinished) (b : UInt8) : Unfinished :=
  ⟨p.code * 64 + b.toNat % 64, p.owed - 1⟩

/-- Reads on inside a character, or between two characters if nothing is owed. -/
def decodeFrom : Unfinished → List UInt8 → List Char
  | p, [] => if p.owed = 0 then [] else [replacement]
  | p, b :: rest =>
    let next := if p.owed = 0 then lead b else p.extend b
    if next.owed = 0 then Char.ofNat next.code :: decodeFrom next rest else decodeFrom next rest

/-- Characters of a beginning of a text in UTF-8. -/
def decode (input : List UInt8) : List Char :=
  decodeFrom ⟨0, 0⟩ input

/-- Sizes agree with the encoding. -/
theorem length_bytes (text : List Char) : (bytes text).length = byteLength text := by
  induction text with
  | nil => rfl
  | cons c rest ih =>
    simp only [bytes, List.flatMap_cons, List.length_append, String.length_utf8EncodeChar,
      byteLength] at ih ⊢
    omega

theorem byteLength_append (a b : List Char) :
    byteLength (a ++ b) = byteLength a + byteLength b := by
  induction a with
  | nil => simp [byteLength]
  | cons c rest ih => simp only [List.cons_append, byteLength, ih]; omega

end ApplyLang.Text
