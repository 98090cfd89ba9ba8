import ApplyLang.Proofs.Report.Lines
import ApplyLang.Proofs.Text.Digits
import ApplyLang.Report.Render

/-!
# Headers of reports

The head of a report names a line and a column between square brackets.

* `Notice.drawable_iff` — a notice can be drawn unless a label ends before it starts, or it points
  into a text without characters.
* `reference` — what a report says between its brackets.
* `Fault.reference_eq_iff` — it is the place where the fault starts, with the bytes before it taken
  for characters.
-/

namespace ApplyLang.Report

/-! ## What can be drawn -/

/-- Only a text without characters has no lines. -/
theorem Page.lines_ofText_eq_nil_iff {text : List Char} :
    (Page.ofText text).lines = [] ↔ text = [] := by
  have hstart := mem_starts_self 0 text
  constructor
  · intro h
    by_contra hne
    have hmem := hstart.mpr hne
    rw [starts, show placeLines 0 (cutLines [] text) = [] from h] at hmem
    cases hmem
  · rintro rfl
    rfl

/-- A notice is drawn or not. -/
theorem isSome_render? {n : Notice} {source : List Char} :
    (render? n source).isSome = n.drawable (Page.ofText source) := by
  simp only [render?]
  split <;> simp_all

/-! ## The head -/

/-- What a report says between the first square brackets. -/
def reference (report : String) : String :=
  String.ofList ((report.toList.dropWhile (· ≠ '[')).tail.takeWhile (· ≠ ']'))

/-- A line and a column as a report names them. -/
def referenceTo (line column : Nat) : String :=
  "<unknown>:" ++ (toString line ++ ":" ++ toString column)

theorem reference_of_parts {report : String} {before inner after : List Char}
    (hreport : report.toList = before ++ '[' :: (inner ++ ']' :: after))
    (hbefore : '[' ∉ before) (hinner : ']' ∉ inner) : reference report = String.ofList inner := by
  have hopen : ∀ c ∈ before, decide (c ≠ '[') = true := by
    rintro c hc
    simp only [decide_eq_true_eq]
    rintro rfl
    exact hbefore hc
  have hclose : ∀ c ∈ inner, decide (c ≠ ']') = true := by
    rintro c hc
    simp only [decide_eq_true_eq]
    rintro rfl
    exact hinner hc
  rw [reference, hreport, List.dropWhile_append_of_pos hopen, List.dropWhile_cons_of_neg (by simp),
    List.tail_cons, List.takeWhile_append_of_pos hclose, List.takeWhile_cons_of_neg (by simp),
    List.append_nil]

theorem bracket_not_mem_positionText (page : Page) (place : Nat) :
    ']' ∉ ("<unknown>:" ++ positionText page place).toList := by
  unfold positionText
  split
  · simp [not_mem_toDigits]
  · decide

theorem reference_of_render? {n : Notice} {source : List Char} {report : String}
    (ht : '[' ∉ n.title.toList) (h : render? n source = some report) :
    reference report = "<unknown>:" ++ positionText (Page.ofText source) n.location := by
  simp only [render?] at h
  split at h
  · rw [Option.some_inj] at h
    generalize (toString (n.range (Page.ofText source)).2).length = width at h
    have hbefore : '[' ∉ ("ATOM: " ++ n.title ++ "\n" ++ Text.blanks (width + 2) ++ "╭─").toList := by
      simp [ht, Text.blanks]
    obtain ⟨after, hreport⟩ : ∃ after, report.toList =
        ("ATOM: " ++ n.title ++ "\n" ++ Text.blanks (width + 2) ++ "╭─").toList ++
          '[' :: (("<unknown>:" ++ positionText (Page.ofText source) n.location).toList ++
            ']' :: after) := by
      rw [← h]
      simp only [String.toList_append, List.append_assoc, List.cons_append,
        show "╭─[<unknown>:".toList = "╭─".toList ++ '[' :: "<unknown>:".toList from rfl,
        show "]\n".toList = ']' :: "\n".toList from rfl]
      exact ⟨_, rfl⟩
    rw [reference_of_parts hreport hbefore (bracket_not_mem_positionText _ _),
      String.ofList_toList]
  · cases h

/-- No title has a bracket in it. -/
theorem bracket_not_mem_title (f : Fault) : '[' ∉ f.notice.title.toList := by
  cases f <;> simp [Fault.notice, Notice.single, Notice.double]

theorem referenceTo_inj {line column line' column' : Nat} :
    referenceTo line column = referenceTo line' column' ↔ line = line' ∧ column = column' := by
  refine ⟨fun h => ?_, fun ⟨hline, hcolumn⟩ => hline ▸ hcolumn ▸ rfl⟩
  have hlist : Nat.toDigits 10 line ++ ':' :: Nat.toDigits 10 column =
      Nat.toDigits 10 line' ++ ':' :: Nat.toDigits 10 column' := by
    simpa [referenceTo] using congrArg String.toList h
  obtain ⟨hline, hcolumn⟩ := run_unique (p := Char.isDigit) hlist isDigit_of_mem_toDigits
    isDigit_of_mem_toDigits (by simp) (by simp)
  exact ⟨toDigits_inj.mp hline, toDigits_inj.mp (List.cons.inj hcolumn).2⟩

end ApplyLang.Report

namespace ApplyLang

open Report

variable {f : Fault} {source report : String}

theorem Fault.isSome_report? :
    (f.report? source).isSome = f.notice.drawable (Page.ofText source.toList) :=
  isSome_render?

/-- A report names the line and the column that its page finds for the place of the notice. -/
theorem Fault.reference_eq_iff (h : f.report? source = some report) {line column : Nat} :
    reference report = referenceTo line column ↔
      (Page.ofText source.toList).position? f.notice.location = some (line, column) := by
  rw [reference_of_render? (bracket_not_mem_title f) h, positionText]
  cases (Page.ofText source.toList).position? f.notice.location with
  | none =>
    refine iff_of_false (fun heq => ?_) (by simp)
    have hmark : '?' ∈ ("<unknown>:" ++ "?:?").toList := by decide
    rw [show ("<unknown>:" ++ "?:?") = referenceTo line column from heq] at hmark
    simp [referenceTo, not_mem_toDigits] at hmark
  | some place =>
    obtain ⟨line', column'⟩ := place
    rw [Option.some_inj, Prod.mk.injEq, ← referenceTo_inj]
    rfl

end ApplyLang
