import ApplyLang.Report.Page
import Mathlib.Data.List.TakeWhile

/-!
# Lines and columns

Where a character stands in a text: in which line, and how far into it. Both are counted on the text
alone. A page cuts the text into lines and looks places up among them.

* `endsLine` — the characters behind which a new line starts.
* `lineOf`, `columnOf` — line and column of a place, counted from 1.
* `mem_starts_iff` — a line of a page starts behind every line break but one at the end of the text.
* `Page.position?_of_lt`, `Page.position?_length` — what a page says about a place.
* `Page.position?_eq_iff` — a page that is asked about a place too far to the right names the place
  before it nowhere.
-/

namespace ApplyLang.Report

/-! ## Counted on the text -/

/-- The character at a place ends a line: it is a line break, and not a carriage return with a line
    feed behind it. -/
def endsLine (text : List Char) (place : Nat) : Bool :=
  match text.drop place with
  | '\r' :: '\n' :: _ => false
  | c :: _ => Text.isLineBreak c
  | [] => false

/-- Line of a place: one more than the line breaks before it. -/
def lineOf (text : List Char) (place : Nat) : Nat :=
  (List.range place).countP (endsLine text) + 1

/-- Column of a place: one more than the characters between it and the last line break. -/
def columnOf (text : List Char) (place : Nat) : Nat :=
  ((List.range place).reverse.takeWhile fun i => !endsLine text i).length + 1

@[simp] theorem endsLine_cons_succ (c : Char) (text : List Char) (place : Nat) :
    endsLine (c :: text) (place + 1) = endsLine text place := rfl

theorem endsLine_cons_zero {c : Char} {text : List Char}
    (h : ∀ rest, c = '\r' → text = '\n' :: rest → False) :
    endsLine (c :: text) 0 = Text.isLineBreak c := by
  unfold endsLine
  split
  · rename_i heq
    obtain ⟨rfl, rfl⟩ := List.cons.inj heq
    exact (h _ rfl rfl).elim
  · rename_i heq
    obtain ⟨rfl, -⟩ := List.cons.inj heq
    rfl
  · rename_i heq
    cases heq

/-- The last character of a text ends a line if it is a line break. -/
theorem endsLine_concat (text : List Char) (c : Char) :
    endsLine (text ++ [c]) text.length = Text.isLineBreak c := by
  have hlast : endsLine (text ++ [c]) text.length = endsLine [c] 0 := by
    rw [endsLine, endsLine, List.drop_left, List.drop_zero]
  rw [hlast, endsLine_cons_zero (by simp)]

@[simp] theorem lineOf_zero (text : List Char) : lineOf text 0 = 1 := rfl

@[simp] theorem columnOf_zero (text : List Char) : columnOf text 0 = 1 := rfl

theorem columnOf_pos (text : List Char) (place : Nat) : 0 < columnOf text place :=
  Nat.succ_pos _

theorem lineOf_succ (text : List Char) (place : Nat) :
    lineOf text (place + 1) = lineOf text place + if endsLine text place then 1 else 0 := by
  simp only [lineOf, List.range_succ, List.countP_append, List.countP_singleton]
  omega

theorem columnOf_succ (text : List Char) (place : Nat) :
    columnOf text (place + 1) = if endsLine text place then 1 else columnOf text place + 1 := by
  cases h : endsLine text place <;>
    simp [columnOf, List.range_succ, h]

/-- Places are in the order of their lines, and within a line in that of their columns. -/
theorem lineOf_lt_or (text : List Char) {p q : Nat} (h : p < q) :
    lineOf text p < lineOf text q ∨
      lineOf text p = lineOf text q ∧ columnOf text p < columnOf text q := by
  induction q, h using Nat.le_induction with
  | base => rw [lineOf_succ, columnOf_succ]; split <;> omega
  | succ q _ ih => rw [lineOf_succ, columnOf_succ]; split <;> omega

/-! ## The lines of a page -/

/-- First places of the lines of a page. -/
def starts (offset : Nat) (pieces : List (List Char)) : List Nat :=
  (placeLines offset pieces).map Line.offset

@[simp] theorem starts_nil (offset : Nat) : starts offset [] = [] := rfl

@[simp] theorem starts_cons (offset : Nat) (piece : List Char) (pieces : List (List Char)) :
    starts offset (piece :: pieces) = offset :: starts (offset + piece.length) pieces := rfl

/-- No character is lost between lines. -/
theorem flatten_cutLines (current text : List Char) :
    (cutLines current text).flatten = current.reverse ++ text := by
  fun_induction cutLines current text <;> simp_all

theorem ne_nil_of_mem_cutLines (current text : List Char) :
    ∀ piece ∈ cutLines current text, piece ≠ [] := by
  fun_induction cutLines current text <;> simp_all

theorem total_placeLines (offset : Nat) (pieces : List (List Char)) :
    (⟨placeLines offset pieces⟩ : Page).total = pieces.flatten.length := by
  induction pieces generalizing offset with
  | nil => rfl
  | cons piece pieces ih =>
    have htail := ih (offset + piece.length)
    simp only [Page.total] at htail
    simp [Page.total, placeLines, htail]

@[simp] theorem Page.total_ofText (text : List Char) : (Page.ofText text).total = text.length := by
  rw [Page.ofText, total_placeLines, flatten_cutLines]
  rfl

theorem le_of_mem_starts {offset start : Nat} {pieces : List (List Char)}
    (h : start ∈ starts offset pieces) : offset ≤ start := by
  induction pieces generalizing offset with
  | nil => cases h
  | cons piece pieces ih =>
    rcases List.mem_cons.mp h with rfl | h
    · exact Nat.le_refl _
    · exact Nat.le_of_add_right_le (ih h)

/-- Lines start one after the other. -/
theorem pairwise_starts {offset : Nat} {pieces : List (List Char)}
    (h : ∀ piece ∈ pieces, piece ≠ []) : (starts offset pieces).Pairwise (· < ·) := by
  induction pieces generalizing offset with
  | nil => exact .nil
  | cons piece pieces ih =>
    obtain ⟨hpiece, hpieces⟩ := List.forall_mem_cons.mp h
    have hpos := List.length_pos_iff.mpr hpiece
    rw [starts_cons]
    refine .cons (fun start hstart => ?_) (ih hpieces)
    have hle := le_of_mem_starts hstart
    omega

/-- A line starts in front of any text. -/
theorem mem_starts_self (offset : Nat) (text : List Char) :
    offset ∈ starts offset (cutLines [] text) ↔ text ≠ [] := by
  have hflat := flatten_cutLines [] text
  cases hcut : cutLines [] text with
  | nil =>
    rw [hcut] at hflat
    simpa using hflat
  | cons piece pieces =>
    have hpiece := ne_nil_of_mem_cutLines [] text piece (by simp [hcut])
    rw [hcut] at hflat
    simp only [starts_cons, List.mem_cons, true_or, true_iff]
    rintro rfl
    exact hpiece (by simpa using (List.append_eq_nil_iff.mp hflat).1)

/-- No line starts within what has been read of a line. -/
theorem eq_or_lt_of_mem_starts {offset start : Nat} {current text : List Char}
    (h : start ∈ starts offset (cutLines current text)) :
    start = offset ∨ offset + current.length < start := by
  fun_induction cutLines current text generalizing offset with
  | case1 => cases h
  | case2 => exact .inl (List.mem_singleton.mp h)
  | case3 | case4 =>
    rcases List.mem_cons.mp h with rfl | h
    · exact .inl rfl
    · have hle := le_of_mem_starts h
      simp only [List.length_reverse, List.length_cons] at hle
      right
      omega
  | case5 current c rest _ hc ih =>
    rcases ih h with rfl | hlt
    · exact .inl rfl
    · rw [List.length_cons] at hlt
      right
      omega

/-- Behind what has been read of a line, a line starts where another ends and something follows. -/
theorem mem_starts_iff (offset : Nat) (current text : List Char) (i : Nat) :
    offset + current.length + i + 1 ∈ starts offset (cutLines current text) ↔
      i + 1 < text.length ∧ endsLine text i = true := by
  fun_induction cutLines current text generalizing offset i with
  | case1 | case2 => simp <;> omega
  | case3 current rest ih =>
    rw [starts_cons, List.mem_cons, or_iff_right (by omega)]
    simp only [List.length_reverse, List.length_cons]
    rcases i with _ | _ | i
    · -- between the two characters of the line break
      refine iff_of_false (fun h => ?_) (fun h => by cases h.2)
      have hle := le_of_mem_starts h
      omega
    · rw [show offset + current.length + (0 + 1) + 1 = offset + (current.length + 1 + 1) by omega,
        mem_starts_self, List.ne_nil_iff_length_pos]
      have hends : endsLine ('\r' :: '\n' :: rest) (0 + 1) = true := by
        cases rest <;> rfl
      simp [hends]
    · have hrest := ih (offset + (current.length + 1 + 1)) i
      rw [List.length_nil] at hrest
      rw [show offset + current.length + (i + 1 + 1) + 1 =
        offset + (current.length + 1 + 1) + 0 + i + 1 by omega, hrest]
      simp
  | case4 current c rest hnext hc ih =>
    rw [starts_cons, List.mem_cons, or_iff_right (by omega)]
    simp only [List.length_reverse, List.length_cons]
    rcases i with _ | i
    · rw [show offset + current.length + 0 + 1 = offset + (current.length + 1) by omega,
        mem_starts_self, List.ne_nil_iff_length_pos, endsLine_cons_zero hnext, hc]
      simp
    · have hrest := ih (offset + (current.length + 1)) i
      rw [List.length_nil] at hrest
      rw [show offset + current.length + (i + 1) + 1 =
        offset + (current.length + 1) + 0 + i + 1 by omega, hrest]
      simp
  | case5 current c rest hnext hc ih =>
    rcases i with _ | i
    · rw [endsLine_cons_zero hnext]
      refine iff_of_false (fun h => ?_) (fun h => hc h.2)
      rcases eq_or_lt_of_mem_starts h with h | h
      · omega
      · rw [List.length_cons] at h
        omega
    · have hrest := ih offset i
      rw [List.length_cons] at hrest
      rw [show offset + current.length + (i + 1) + 1 =
        offset + (current.length + 1) + i + 1 by omega, hrest]
      simp

/-! ## Places on a page -/

/-- In an ascending list, one step further takes the next number along if it is there. -/
theorem takeWhile_lt_succ {numbers : List Nat} (h : numbers.Pairwise (· < ·)) (n : Nat) :
    numbers.takeWhile (· < n + 1) =
      numbers.takeWhile (· < n) ++ if n ∈ numbers then [n] else [] := by
  induction h with
  | nil => rfl
  | @cons first rest hfirst _ ih =>
    rcases Nat.lt_trichotomy first n with hlt | rfl | hgt
    · have hne : n ≠ first := by omega
      rw [List.takeWhile_cons_of_pos (by simpa only [decide_eq_true_eq] using Nat.lt_succ_of_lt hlt),
        List.takeWhile_cons_of_pos (by simpa only [decide_eq_true_eq] using hlt), ih,
        List.cons_append]
      simp only [List.mem_cons, hne, false_or]
    · have hrest : rest.takeWhile (· < first + 1) = [] := by
        cases rest with
        | nil => rfl
        | cons second rest =>
          have hsecond := hfirst second List.mem_cons_self
          rw [List.takeWhile_cons_of_neg]
          simp only [decide_eq_true_eq]
          omega
      rw [List.takeWhile_cons_of_pos (by simp), hrest, List.takeWhile_cons_of_neg (by simp),
        if_pos List.mem_cons_self, List.nil_append]
    · have hmem : n ∉ first :: rest := by
        rintro (_ | ⟨_, hmem⟩)
        · omega
        · have hn := hfirst n hmem
          omega
      have hnot : ¬ first < n + 1 := by omega
      rw [List.takeWhile_cons_of_neg (by simpa only [decide_eq_true_eq] using hnot),
        List.takeWhile_cons_of_neg (by simpa only [decide_eq_true_eq] using hgt.not_gt),
        if_neg hmem, List.nil_append]

/-- The lines that start before a place. -/
def startsBefore (text : List Char) (place : Nat) : List Nat :=
  (starts 0 (cutLines [] text)).takeWhile (· < place)

theorem startsBefore_one {text : List Char} (h : text ≠ []) : startsBefore text 1 = [0] := by
  have hmem := (mem_starts_self 0 text).mpr h
  have hnone : (starts 0 (cutLines [] text)).takeWhile (· < 0) = [] := by
    rw [List.takeWhile_eq_nil_iff]
    simp
  rw [startsBefore, takeWhile_lt_succ (pairwise_starts (ne_nil_of_mem_cutLines _ _)), hnone,
    if_pos hmem, List.nil_append]

theorem startsBefore_add_two (text : List Char) (place : Nat) :
    startsBefore text (place + 2) = startsBefore text (place + 1) ++
      if place + 1 < text.length ∧ endsLine text place = true then [place + 1] else [] := by
  have hmem := mem_starts_iff 0 [] text place
  simp only [List.length_nil, Nat.zero_add] at hmem
  rw [startsBefore, takeWhile_lt_succ (pairwise_starts (ne_nil_of_mem_cutLines _ _))]
  simp only [hmem]
  rfl

/-- The lines that start at or before a character are as many as say its line, and the last of them
    says its column. -/
theorem exists_startsBefore {text : List Char} {place : Nat} (h : place < text.length) :
    ∃ before start, startsBefore text (place + 1) = before ++ [start] ∧
      before.length + 1 = lineOf text place ∧ start + columnOf text place = place + 1 := by
  induction place with
  | zero => exact ⟨[], 0, startsBefore_one (List.ne_nil_of_length_pos h), rfl, rfl⟩
  | succ place ih =>
    obtain ⟨before, start, hstarts, hline, hcolumn⟩ := ih (by omega)
    rw [startsBefore_add_two, hstarts, lineOf_succ, columnOf_succ]
    cases hends : endsLine text place with
    | true => exact ⟨before ++ [start], place + 1, by simp [h], by simp [hline], rfl⟩
    | false => exact ⟨before, start, by simp, by simpa using hline, by simp; omega⟩

namespace Page

variable {text : List Char} {place : Nat}

/-- A page looks a place up among the lines that start at or before it. -/
theorem position?_of_startsBefore {before : List Nat} {start : Nat} (h : place ≤ text.length)
    (hstarts : startsBefore text (place + 1) = before ++ [start]) :
    (ofText text).position? place = some (before.length + 1, place - start + 1) := by
  have hlines : ((ofText text).lines.takeWhile fun l => l.offset ≤ place).map Line.offset =
      before ++ [start] := by
    rw [← hstarts, startsBefore, starts, List.takeWhile_map]
    simp only [ofText, Function.comp_def, Nat.lt_succ_iff]
  have hlength := congrArg List.length hlines
  rw [List.length_map, List.length_append, List.length_singleton] at hlength
  have hline : ((ofText text).lines[before.length]?).map Line.offset = some start := by
    obtain ⟨after, hafter⟩ := List.takeWhile_prefix (l := starts 0 (cutLines [] text))
      (· < place + 1)
    rw [← List.getElem?_map, ofText, show (placeLines 0 (cutLines [] text)).map Line.offset =
      startsBefore text (place + 1) ++ after from hafter.symm, hstarts]
    simp
  obtain ⟨line, hget, rfl⟩ := Option.map_eq_some_iff.mp hline
  simp [position?, lineAt?, h, hlength, hget]

theorem position?_of_lt (h : place < text.length) :
    (ofText text).position? place = some (lineOf text place, columnOf text place) := by
  obtain ⟨before, start, hstarts, hline, hcolumn⟩ := exists_startsBefore h
  have hpos := columnOf_pos text place
  rw [position?_of_startsBefore (Nat.le_of_lt h) hstarts, hline,
    show place - start + 1 = columnOf text place by omega]

/-- The end of a text is on its last line. -/
theorem position?_length (h : text.length = place + 1) :
    (ofText text).position? (place + 1) = some (lineOf text place, columnOf text place + 1) := by
  have hlt : place < text.length := by omega
  obtain ⟨before, start, hstarts, hline, hcolumn⟩ := exists_startsBefore hlt
  have hsame : startsBefore text (place + 2) = before ++ [start] := by
    rw [startsBefore_add_two, hstarts, if_neg (by omega), List.append_nil]
  have hpos := columnOf_pos text place
  rw [position?_of_startsBefore (by omega) hsame, hline,
    show place + 1 - start + 1 = columnOf text place + 1 by omega]

theorem position?_of_gt (h : text.length < place) : (ofText text).position? place = none := by
  simp [position?, lineAt?, Nat.not_le_of_lt h]

/-- Asked about a place, or about one further to the right, a page names the line and the column of
    the place just if it was asked about that place; and at the end of the text, only if no line
    break stands right before it. -/
theorem position?_eq_iff {asked : Nat} (hplace : place ≤ text.length) (hasked : place ≤ asked)
    (hne : text ≠ []) :
    (ofText text).position? asked = some (lineOf text place, columnOf text place) ↔
      asked = place ∧ (place = text.length → endsLine text (place - 1) = false) := by
  have hpos := List.length_pos_iff.mpr hne
  rcases Nat.lt_trichotomy asked text.length with hlt | heq | hgt
  · rw [position?_of_lt hlt, Option.some_inj, Prod.mk.injEq]
    refine ⟨fun ⟨hline, hcolumn⟩ => ⟨?_, by omega⟩, ?_⟩
    · rcases Nat.lt_or_eq_of_le hasked with h | h
      · have horder := lineOf_lt_or text h
        omega
      · exact h.symm
    · rintro ⟨rfl, -⟩
      exact ⟨rfl, rfl⟩
  · obtain ⟨last, rfl⟩ : ∃ last, asked = last + 1 := ⟨asked - 1, by omega⟩
    rw [position?_length heq.symm, Option.some_inj, Prod.mk.injEq]
    rcases Nat.lt_or_eq_of_le hasked with h | rfl
    · refine iff_of_false (fun ⟨hline, hcolumn⟩ => ?_) (fun h' => by omega)
      rcases Nat.lt_or_eq_of_le (Nat.lt_succ_iff.mp h) with h | rfl
      · have horder := lineOf_lt_or text h
        omega
      · omega
    · rw [lineOf_succ, columnOf_succ, Nat.add_sub_cancel]
      cases hends : endsLine text last <;> simp [heq]
  · rw [position?_of_gt hgt]
    simp
    omega

end Page

end ApplyLang.Report
