/-!
# White space and line breaks

* `isWhiteSpace` — the `White_Space` property: what may stand between two tokens of a program, and
  what a report draws as a blank.
* `isLineBreak` — the characters that end a line of a report.
* `endsComment` — the two characters that end a comment; the other line breaks stay inside it.
* `blanks` — a stretch of spaces.
-/

namespace ApplyLang.Text

/-- The characters with the property `White_Space`. -/
def isWhiteSpace (c : Char) : Bool :=
  let n := c.toNat
  (0x09 ≤ n && n ≤ 0x0D) || n == 0x20 || n == 0x85 || n == 0xA0 || n == 0x1680 ||
    (0x2000 ≤ n && n ≤ 0x200A) || n == 0x2028 || n == 0x2029 || n == 0x202F || n == 0x205F ||
    n == 0x3000

/-- The characters after which a new line of a text starts. -/
def isLineBreak (c : Char) : Bool :=
  let n := c.toNat
  (0x0A ≤ n && n ≤ 0x0D) || n == 0x85 || n == 0x2028 || n == 0x2029

/-- A comment reaches up to the next line feed or carriage return. -/
def endsComment (c : Char) : Bool :=
  c == '\n' || c == '\r'

/-- Spaces. -/
def blanks (n : Nat) : String :=
  String.ofList (List.replicate n ' ')

/-- Every line break is white space. -/
theorem isWhiteSpace_of_isLineBreak {c : Char} (h : isLineBreak c = true) :
    isWhiteSpace c = true := by
  simp only [isLineBreak, isWhiteSpace, Bool.or_eq_true, Bool.and_eq_true, decide_eq_true_eq,
    beq_iff_eq] at h ⊢
  omega

/-- What ends a comment is white space, so the text after a comment starts with a blank. -/
theorem isWhiteSpace_of_endsComment {c : Char} (h : endsComment c = true) :
    isWhiteSpace c = true := by
  simp only [endsComment, Bool.or_eq_true, beq_iff_eq] at h
  rcases h with rfl | rfl <;> decide

end ApplyLang.Text
