import ApplyLang.Source.Span
import ApplyLang.Text.WhiteSpace

/-!
# Tokens

A program is read as texts, numbers, words, brackets and commas. White space and comments separate
tokens and leave no trace but the positions of what follows.

* `Token` — a symbol with the bytes it covers.
* `scan` — the tokens of a list of characters. A character at a time moves a small machine whose
  state (`Mode`) says what the scanner stands in.

A run of digits is a number unless a letter or an underscore follows, in which case the whole run
is a word: `12ab` is one word, `1.5` is the number `1` before the word `.5`.
-/

namespace ApplyLang

/-- The kinds of token, with their characters. -/
inductive Symbol
  | text (content : List Char)
  | number (digits : List Char)
  | word (name : List Char)
  | opening
  | closing
  | separator
  /-- A quote that no other quote follows. -/
  | unclosed
  deriving DecidableEq, Repr

/-- A symbol and where it stands. -/
structure Token where
  symbol : Symbol
  span : Span
  deriving DecidableEq, Repr

namespace Token

/-- Characters that a word may hold (the rule `word` of the grammar). -/
def isWordChar (c : Char) : Bool :=
  !(Text.isWhiteSpace c || c == '(' || c == ')' || c == ',' || c == '#' || c == '"')

/-- What the scanner stands in. Characters read so far are kept last first. -/
inductive Mode
  | gap
  | comment
  | text (start : Nat) (content : List Char)
  | digits (start : Nat) (run : List Char)
  | word (start : Nat) (run : List Char)
  deriving DecidableEq, Repr

/-- A character at byte position `p` that starts something new. -/
def enter (p : Nat) (c : Char) : List Token × Mode :=
  if Text.isWhiteSpace c then ([], .gap)
  else if c = '#' then ([], .comment)
  else if c = '"' then ([], .text p [])
  else if c = '(' then ([⟨.opening, p, p + 1⟩], .gap)
  else if c = ')' then ([⟨.closing, p, p + 1⟩], .gap)
  else if c = ',' then ([⟨.separator, p, p + 1⟩], .gap)
  else if c.isDigit then ([], .digits p [c])
  else ([], .word p [c])

/-- Puts a finished token in front. -/
def emit (t : Token) (next : List Token × Mode) : List Token × Mode :=
  (t :: next.1, next.2)

/-- The tokens that end before the character at byte position `p`, and what the scanner stands in
    after it. -/
def advance (mode : Mode) (p : Nat) (c : Char) : List Token × Mode :=
  match mode with
  | .gap => enter p c
  | .comment => if Text.endsComment c then ([], .gap) else ([], .comment)
  | .text start content =>
    if c = '"' then ([⟨.text content.reverse, start, p + 1⟩], .gap)
    else ([], .text start (c :: content))
  | .digits start run =>
    if c.isDigit then ([], .digits start (c :: run))
    else if c.isAlpha || c == '_' then ([], .word start (c :: run))
    else emit ⟨.number run.reverse, start, p⟩ (enter p c)
  | .word start run =>
    if isWordChar c then ([], .word start (c :: run))
    else emit ⟨.word run.reverse, start, p⟩ (enter p c)

/-- The token that the end of the text at byte position `p` completes. -/
def finish (mode : Mode) (p : Nat) : List Token :=
  match mode with
  | .gap => []
  | .comment => []
  | .text start _ => [⟨.unclosed, start, p⟩]
  | .digits start run => [⟨.number run.reverse, start, p⟩]
  | .word start run => [⟨.word run.reverse, start, p⟩]

/-- Tokens of the characters from byte position `p` on. -/
def scanFrom (mode : Mode) (p : Nat) : List Char → List Token
  | [] => finish mode p
  | c :: rest =>
    let (tokens, next) := advance mode p c
    tokens ++ scanFrom next (p + c.utf8Size) rest

/-- Tokens of a whole text. -/
def scan (text : List Char) : List Token :=
  scanFrom .gap 0 text

end Token

end ApplyLang
