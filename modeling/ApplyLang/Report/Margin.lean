import ApplyLang.Report.Notice
import ApplyLang.Report.Page

/-!
# Margins

Labels within one line are drawn below it. A label over several lines is drawn in the margin, as an
arrow from its first line to its last; every such label has a column of the margin of its own, the
longest label the outermost.

* `Sheet` — a page with its labels sorted out.
* `Sheet.onLine` — the labels to be drawn below a line.
* `Sheet.margin` — what stands before the text in one row.
-/

namespace ApplyLang.Report

/-- A label with its number in the notice. -/
structure Numbered where
  index : Nat
  label : Label
  deriving DecidableEq, Repr

/-- Inserts into a sorted list, before everything that need not come before it. -/
def insertSorted {α : Type} (before : α → α → Bool) (x : α) : List α → List α
  | [] => [x]
  | y :: rest => if before y x then y :: insertSorted before x rest else x :: y :: rest

/-- Sorts a list; what is not ordered stays in place. -/
def sortStable {α : Type} (before : α → α → Bool) (xs : List α) : List α :=
  xs.foldr (insertSorted before) []

/-- A page, the labels within one line, the labels over several lines, and the width of the line
    numbers. -/
structure Sheet where
  page : Page
  inline : List Numbered
  spanning : List Numbered
  numberWidth : Nat

/-- Whether a label starts and ends on different lines. -/
def Page.spans (p : Page) (l : Label) : Bool :=
  p.lineAt? l.start != p.lineAt? l.last

/-- Sorts labels out. -/
def Sheet.ofLabels (page : Page) (labels : List Label) (numberWidth : Nat) : Sheet :=
  let numbered := labels.zipIdx.map fun (label, index) => ⟨index, label⟩
  let length := fun (n : Numbered) => n.label.stop - n.label.start
  ⟨page, numbered.filter fun n => !page.spans n.label,
    sortStable (fun a b => length b < length a) (numbered.filter fun n => page.spans n.label),
    numberWidth⟩

/-- A label where it touches a line: the column of its message's stroke, whether it spans lines, and
    whether its message is drawn here. -/
structure Mark where
  column : Nat
  source : Numbered
  spanning : Bool
  speaks : Bool
  deriving DecidableEq, Repr

/-- Marks are drawn from left to right; in one column the label that starts later comes first. -/
def Mark.before (a b : Mark) : Bool :=
  a.column < b.column ||
    (a.column == b.column && b.source.label.start < a.source.label.start)

/-- Whether two marks are of one label. -/
def Mark.isOf (mark : Mark) (n : Numbered) : Bool :=
  mark.source.index == n.index

namespace Sheet

/-- The mark at the start of a label over several lines. -/
def startMark (line : Line) (n : Numbered) : Mark :=
  ⟨n.label.start - line.offset, n, true, false⟩

/-- The mark at the end of a label over several lines. -/
def endMark (line : Line) (n : Numbered) : Mark :=
  ⟨n.label.last - line.offset, n, true, true⟩

/-- The label over several lines whose arrow joins the text of this line directly: the leftmost of
    those that start or end on it. -/
def joining? (s : Sheet) (line : Line) : Option Mark :=
  let marks := s.spanning.filterMap fun n =>
    if line.holds n.label.start then some (startMark line n)
    else if line.holds n.label.last then some (endMark line n)
    else none
  (sortStable Mark.before marks).head?

/-- The marks below a line, from left to right. -/
def onLine (s : Sheet) (line : Line) : List Mark :=
  let joining := s.joining? line
  let joins := fun n => joining.any fun mark => mark.isOf n
  let spanning := s.spanning.filterMap fun n =>
    if line.holds n.label.start && !joins n then some (startMark line n)
    else if line.holds n.label.last then some (endMark line n)
    else none
  let inline := s.inline.filterMap fun n =>
    let l := n.label
    if line.offset ≤ l.start && l.stop ≤ line.stop then
      some ⟨max ((l.start + l.stop) / 2) l.start - line.offset, n, false, true⟩
    else none
  sortStable Mark.before (spanning ++ inline)

/-! ## One row of the margin -/

/-- What a row of the margin stands before: the text of a line, or a row below it for one of its
    marks, in which the stroke of the mark may turn into its message. -/
inductive Row
  | text
  | below (mark : Nat) (turns : Bool)
  deriving DecidableEq, Repr

/-- What a margin needs to know of its line. -/
structure Edge where
  line : Line
  marks : List Mark
  joining : Option Mark

/-- The strokes that meet in one column of the margin. -/
structure Strokes where
  /-- A corner, opening downwards or not. -/
  corner : Option Bool
  /-- A horizontal stroke. -/
  across : Bool
  /-- A vertical stroke. -/
  down : Bool
  /-- The arrow to the text, at the start of its label or not. -/
  arrow : Option Bool
  deriving DecidableEq, Repr

/-- No strokes. -/
def Strokes.empty : Strokes := ⟨none, false, false, none⟩

/-- A vertical stroke for the label that owns the column. -/
def Strokes.addDown (t : Strokes) (own : Bool) : Strokes :=
  if own then { t with down := true } else t

/-- The row below a line that belongs to a label. -/
def Edge.rowOf (e : Edge) (n : Numbered) : Nat :=
  (e.marks.findIdx? fun mark => mark.isOf n).getD 0

/-- Whether a label's arrow joins the text of the line. -/
def Edge.joins (e : Edge) (n : Numbered) : Bool :=
  e.joining.any fun mark => mark.isOf n

/-- Adds the strokes of a label to a column of the margin; `own` says whether the column is the
    label's own or further in. -/
def Edge.addStrokes (e : Edge) (row : Row) (t : Strokes) (n : Numbered) (own : Bool) : Strokes :=
  let l := n.label
  if !(l.start ≤ e.line.stop && e.line.offset < l.stop) then t
  else
    let starts := e.line.holds l.start
    let ends := e.line.holds l.last
    match row with
    | .text =>
      if e.joins n then { t with arrow := some starts }
      else if !starts then t.addDown own
      else t
    | .below number turns =>
      if !starts && !ends then t.addDown own
      else if number = e.rowOf n then
        let t := if e.joins n then { t with down := own } else t
        if e.joins n && starts then t
        else if turns then
          { t with across := true, corner := if own then some starts else t.corner }
        else if !starts then t.addDown own
        else t
      else if starts != decide (number < e.rowOf n) then t.addDown own
      else t

/-- The strokes in a column of the margin. A label's strokes are in its own column and all further
    in. -/
def columnStrokes (s : Sheet) (e : Edge) (row : Row) (column : Nat) : Strokes :=
  (s.spanning.take (column + 1)).zipIdx.foldl
    (fun t (n, i) => e.addStrokes row t n (i == column)) .empty

/-- Two characters for a column of the margin. -/
def columnText (s : Sheet) (e : Edge) (row : Row) (elided : Bool) (column : Nat) : String :=
  let t := s.columnStrokes e row column
  let ownsColumn := match s.spanning[column]?, e.joining with
    | some n, some mark => mark.isOf n
    | _, _ => false
  match t.corner with
  | some opening => if opening then "╭─" else "╰─"
  | none =>
    if t.across then "──"
    else if t.down then (if elided then "┆ " else "│ ")
    else
      match row, t.arrow with
      | .text, some starts =>
        if column = s.spanning.length then "▶ "
        else if ownsColumn then (if starts then "╭─" else "├─")
        else "──"
      | _, _ => "  "

/-- The columns of the margin: one for each label over several lines, and one for arrow heads. -/
def columnsText (s : Sheet) (e : Edge) (row : Row) (elided : Bool) : String :=
  if s.spanning.isEmpty then ""
  else String.join ((List.range (s.spanning.length + 1)).map (s.columnText e row elided))

/-- The line number before the text of a line. -/
def numberMargin (s : Sheet) (number : Nat) : String :=
  let digits := toString (number + 1)
  " " ++ Text.blanks (s.numberWidth - digits.length) ++ digits ++ " │ "

/-- The margin of a row without a line number. -/
def plainMargin (s : Sheet) (elided : Bool) : String :=
  " " ++ Text.blanks (s.numberWidth + 1) ++ (if elided then "┆" else "│") ++ " "

end Sheet

end ApplyLang.Report
