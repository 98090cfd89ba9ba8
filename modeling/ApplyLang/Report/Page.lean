import ApplyLang.Text.WhiteSpace
import ApplyLang.Text.Width

/-!
# Pages

The source as a report draws it: in lines, with every place counted in characters.

* `Page.ofText` — the lines of a text.
* `Page.lineAt?` — the line that a place is on.
* `drawn` — a character as it is drawn, with its width.
-/

namespace ApplyLang.Report

/-- A line: its first place, its length with the line break, and its characters without the white
    space at its end. -/
structure Line where
  offset : Nat
  length : Nat
  text : List Char
  deriving DecidableEq, Repr

namespace Line

/-- The place after the line. -/
def stop (l : Line) : Nat := l.offset + l.length

/-- Whether a place is on the line. -/
def holds (l : Line) (place : Nat) : Bool :=
  l.offset ≤ place && place < l.stop

end Line

/-- Cuts a text after each line break; a carriage return and a line feed are one line break. The
    characters since the last break are kept last first. -/
def cutLines (current : List Char) : List Char → List (List Char)
  | [] => if current.isEmpty then [] else [current.reverse]
  | '\r' :: '\n' :: rest => ('\n' :: '\r' :: current).reverse :: cutLines [] rest
  | c :: rest =>
    if Text.isLineBreak c then (c :: current).reverse :: cutLines [] rest
    else cutLines (c :: current) rest

/-- Without the white space at the end. -/
def trimEnd (text : List Char) : List Char :=
  (text.reverse.dropWhile Text.isWhiteSpace).reverse

/-- Gives lines their places. -/
def placeLines (offset : Nat) : List (List Char) → List Line
  | [] => []
  | text :: rest =>
    ⟨offset, text.length, trimEnd text⟩ :: placeLines (offset + text.length) rest

/-- The lines of a text. -/
structure Page where
  lines : List Line
  deriving DecidableEq, Repr

namespace Page

/-- The page of a text. -/
def ofText (text : List Char) : Page :=
  ⟨placeLines 0 (cutLines [] text)⟩

/-- Number of characters. -/
def total (p : Page) : Nat :=
  p.lines.foldr (fun l rest => l.length + rest) 0

/-- The line that a place is on, counted from 0: the last that starts at or before it. The end of
    the text is on the last line; places after it are on no line. -/
def lineAt? (p : Page) (place : Nat) : Option Nat :=
  if place ≤ p.total then some ((p.lines.takeWhile fun l => l.offset ≤ place).length - 1)
  else none

/-- Line and column of a place, counted from 1. -/
def position? (p : Page) (place : Nat) : Option (Nat × Nat) := do
  let number ← p.lineAt? place
  let line ← p.lines[number]?
  return (number + 1, place - line.offset + 1)

end Page

/-- A character as it is drawn in a column, with its width. A tab fills up to the next multiple of
    four columns. -/
def drawn (c : Char) (column : Nat) : Char × Nat :=
  if c = '\t' then (' ', (column / 4 + 1) * 4 - column)
  else if Text.isWhiteSpace c then (' ', 1)
  else (c, Text.columns c)

/-- A line as it is drawn; `column` is that of the first character. -/
def drawLine (column : Nat) : List Char → List Char
  | [] => []
  | c :: rest =>
    let (shape, width) := drawn c column
    (if shape = ' ' then List.replicate width ' ' else [shape]) ++ drawLine (column + 1) rest

/-- Width of a column of a line; columns after its end are one wide. -/
def columnWidth (text : List Char) (column : Nat) : Nat :=
  match text[column]? with
  | some c => (drawn c column).2
  | none => 1

end ApplyLang.Report
