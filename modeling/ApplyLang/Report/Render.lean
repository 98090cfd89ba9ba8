import ApplyLang.Report.Margin

/-!
# Rendering

Draws a notice over the source it is about.

* `render?` — the report as text. There is none if a label ends before it starts, or if there is no
  line to point at.
* `Fault.report?` — the report of a fault.
-/

namespace ApplyLang.Report

namespace Sheet

/-- A character and what fills up its column to the right. -/
structure Stroke where
  head : Char
  fill : Char

/-- Draws one stroke per column of a line, as wide as the column; a column without width shows
    nothing. -/
def drawStrokes (text : List Char) (columns : Nat) (stroke : Nat → Stroke) : String :=
  String.ofList ((List.range columns).flatMap fun column =>
    match columnWidth text column with
    | 0 => []
    | width + 1 => (stroke column).head :: List.replicate width (stroke column).fill)

/-- The first mark that still waits for its row and has its stroke in this column. The mark that
    joins the margin has none. -/
def standing? (e : Edge) (row column : Nat) : Option Mark :=
  (e.marks.drop row).find? fun mark => !e.joins mark.source && mark.column == column

/-- Whether a label within the line is drawn under this column. -/
def underlined (e : Edge) (column : Nat) : Bool :=
  e.marks.any fun mark => !mark.spanning && mark.source.label.covers (e.line.offset + column)

/-- The stroke that leads down from a column to the marks of later rows. The first row below the
    text also underlines the labels. -/
def downStroke (e : Edge) (row column : Nat) : Stroke :=
  let under := row == 0 && underlined e column
  match standing? e row column with
  | some mark =>
    if under then ⟨'┬', '─'⟩
    else if mark.spanning && row == 0 then ⟨'🭯', ' '⟩
    else ⟨'│', ' '⟩
  | none => if under then ⟨'─', '─'⟩ else ⟨' ', ' '⟩

/-- The stroke that turns a mark into its message, or into the margin. -/
def turnStroke (e : Edge) (row : Nat) (mark : Mark) (column : Nat) : Stroke :=
  let right := decide (mark.column < column)
  let across := (right != mark.spanning) || (mark.speaks && right)
  if column == mark.column && !e.joins mark.source then
    ⟨if mark.spanning then (if mark.speaks then '┴' else '╯') else '╰', '─'⟩
  else if across then ⟨'─', '─'⟩
  else if (standing? e row column).isSome then ⟨'│', ' '⟩
  else ⟨' ', ' '⟩

/-- How far strokes below a line reach. -/
def strokeColumns (e : Edge) : Nat :=
  e.marks.foldl
    (fun reach mark =>
      if mark.spanning then e.line.length
      else max reach (mark.source.label.stop - e.line.offset)) 0 + 2

/-- The two rows below a line for one of its marks. -/
def markRows (s : Sheet) (e : Edge) (elided : Bool) (row : Nat) (mark : Mark) : String :=
  let columns := strokeColumns e
  s.plainMargin elided ++ s.columnsText e (.below row false) elided ++
    drawStrokes e.line.text columns (downStroke e row) ++ "\n" ++
    s.plainMargin elided ++ s.columnsText e (.below row true) elided ++
    drawStrokes e.line.text columns (turnStroke e row mark) ++
    (if mark.speaks then " " ++ mark.source.label.message else "") ++ "\n"

/-- A line with the rows below it. An elided line shows only the margin. -/
def lineRows (s : Sheet) (e : Edge) (number : Nat) (elided : Bool) : String :=
  (if elided then s.plainMargin true else s.numberMargin number) ++
    s.columnsText e .text elided ++
    (if elided then "" else String.ofList (drawLine 0 e.line.text)) ++ "\n" ++
    String.join (e.marks.zipIdx.map fun (mark, row) => s.markRows e elided row mark)

/-- Draws lines in order; `elided` says whether lines have just been left out. Of lines without
    marks only the first is drawn: elided if a label passes it, and as an empty row otherwise. -/
def bodyRows (s : Sheet) (elided : Bool) (number : Nat) : List Line → String
  | [] => ""
  | line :: rest =>
    let e : Edge := ⟨line, s.onLine line, s.joining? line⟩
    if e.marks.isEmpty && e.joining.isNone then
      let first :=
        if elided then ""
        else if s.spanning.any fun n => n.label.covers line.offset then s.lineRows e number true
        else s.plainMargin false ++ "\n"
      first ++ s.bodyRows true (number + 1) rest
    else s.lineRows e number false ++ s.bodyRows false (number + 1) rest

end Sheet

/-- Whether a notice can be drawn: no label ends before it starts, and no label points into a text
    without lines. -/
def Notice.drawable (n : Notice) (page : Page) : Bool :=
  n.labels.all (fun l => l.start ≤ l.stop) &&
    (!page.lines.isEmpty || (n.location != 0 && n.labels.all fun l => l.start != 0))

/-- The lines from the first label to the last, as a range of line numbers. -/
def Notice.range (n : Notice) (page : Page) : Nat × Nat :=
  match n.labels with
  | [] => (0, 0)
  | l :: rest =>
    let start := rest.foldl (fun a l => min a l.start) l.start
    let stop := rest.foldl (fun a l => max a l.stop) l.stop
    let finish := match page.lineAt? (max (stop - 1) start) with
      | some number => number + 1
      | none => page.lines.length
    ((page.lineAt? start).getD 0, finish)

/-- Line and column of a place, or question marks if the place is after the end of the text. -/
def positionText (page : Page) (place : Nat) : String :=
  match page.position? place with
  | some (line, column) => toString line ++ ":" ++ toString column
  | none => "?:?"

/-- Draws a notice over its source. -/
def render? (n : Notice) (source : List Char) : Option String :=
  let page := Page.ofText source
  if n.drawable page then
    let (first, finish) := n.range page
    let width := (toString finish).length
    let sheet := Sheet.ofLabels page n.labels width
    some ("ATOM: " ++ n.title ++ "\n" ++
      Text.blanks (width + 2) ++ "╭─[<unknown>:" ++ positionText page n.location ++ "]\n" ++
      Text.blanks (width + 2) ++ "│\n" ++
      sheet.bodyRows false first ((page.lines.take finish).drop first) ++
      String.ofList (List.replicate (width + 2) '─') ++ "╯\n")
  else none

end ApplyLang.Report

namespace ApplyLang

/-- The report of a fault over the source it is about (`to_report`). -/
def Fault.report? (f : Fault) (source : String) : Option String :=
  Report.render? f.notice source.toList

end ApplyLang
