import ApplyLang.Text.Extender
import ApplyLang.Text.Glyph
import ApplyLang.Text.Ignorable

/-!
# Quoted text

The one-line form of a text between double quotes, in which every character can be seen and none can
be mistaken for the closing quote or for the end of the line.

* `quoted` — the quoted form of a whole text.
-/

namespace ApplyLang.Text

/-- Hexadecimal digits of a number, in lower case and without leading zeros. -/
def hexadecimal (n : Nat) : String :=
  String.ofList (Nat.toDigits 16 n)

/-- The character stands for itself between quotes: it is always drawn, with a glyph that stands on
    its own, or is the space. -/
def isPlain (c : Char) : Bool :=
  c == ' ' || !(lacksGlyph c || isExtender c || isIgnorable c)

/-- One character as it stands between the quotes. -/
def escaped (c : Char) : String :=
  match c with
  | '"' => "\\\""
  | '\\' => "\\\\"
  | '\n' => "\\n"
  | '\t' => "\\t"
  | '\r' => "\\r"
  | '\x00' => "\\0"
  | c => if isPlain c then c.toString else "\\u\x7b" ++ hexadecimal c.toNat ++ "\x7d"

/-- A text between double quotes, with its special characters escaped. -/
def quoted (text : String) : String :=
  "\"" ++ String.join (text.toList.map escaped) ++ "\""

end ApplyLang.Text
