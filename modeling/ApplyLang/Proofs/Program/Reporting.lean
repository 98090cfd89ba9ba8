import ApplyLang.Proofs.Program.Blame
import ApplyLang.Proofs.Report.Header
import ApplyLang.Proofs.Source.Rejection
import ApplyLang.Proofs.Text.Digits

/-!
# Reports on programs that fail

The places of a fault are byte positions, and a report reads them as numbers of characters.

* `After.places_in_text` — every place that a failing program names starts between two characters of
  its text, and does not end before it starts.
* `After.isSome_report?_iff` — so there is a report on every program that fails and has characters.
* `After.reference_report?_iff` — the line and the column in the head of a report, and when they are
  those of the fault.

**Deviations.** A text without characters has no lines, so its error cannot be reported
(`not_isSome_report?_of_empty`). Behind a character of more than one byte, a report names a place
further right than the fault (`reference_report?_beside`); and at the end of a text that ends in a
line break it names the line that the break ends.
-/

namespace ApplyLang

open ApplyLang.Text (byteLength byteLength_eq_length_iff length_le_byteLength)
open ApplyLang.Report

/-! ## Notices -/

/-- The labels of a notice are for the places of its fault. -/
theorem Fault.mem_places_of_label {f : Fault} {l : Label} (hl : l ∈ f.notice.labels) :
    ⟨l.start, l.stop⟩ ∈ f.places := by
  cases f with
  | notCallable | mismatch =>
    simp only [notice, Notice.double, List.mem_cons, List.not_mem_nil, or_false] at hl
    rcases hl with rfl | rfl <;> simp [places, Label.ofSpan]
  | _ =>
    simp only [notice, Notice.single, List.mem_singleton] at hl
    subst hl
    simp [places, Label.ofSpan]

/-- A notice is about the start of a place of its fault. -/
theorem Fault.exists_place_of_location (f : Fault) :
    ∃ s ∈ f.places, s.start = f.notice.location := by
  cases f <;> simp [notice, Notice.single, Notice.double, places]

namespace Program

variable {h : Heap} {kept : List Value} {out : Sink} {source report : String} {ended : Ended}
  {f : Fault}

/-- Whether it was read or not, a program fails at places of its text. -/
theorem After.places_in_text (ha : After h kept) (he : Ends h out source ended)
    (hf : ended.result = .error f) {s : Span} (hs : s ∈ f.places) :
    s.start ≤ s.stop ∧ ∃ before rest, source.toList = before ++ rest ∧
      s.start = byteLength before := by
  rcases ends_iff.mp he with ⟨e, hp, rfl⟩ | ⟨program, hp, hend⟩
  · cases hf
    obtain ⟨before, rest, -, htext, -, ⟨hposition, -⟩, -⟩ := exists_of_parse_error hp
    cases List.mem_singleton.mp hs
    exact ⟨Nat.le_refl _, before, rest, htext, hposition⟩
  · obtain ⟨n, hn, rfl⟩ := (ha.settled.about hend hf).exists_node s hs
    obtain ⟨hpos, piece, before, after, htext, hstart, -⟩ := covers_of_has hp hn
    exact ⟨Nat.le_of_lt hpos, before, piece ++ after, by rw [htext, List.append_assoc], hstart⟩

/-! ## Whether there is a report -/

/-- A program that fails is reported on, unless it has no characters. -/
theorem After.isSome_report?_iff (ha : After h kept) (he : Ends h out source ended)
    (hf : ended.result = .error f) : (f.report? source).isSome = true ↔ source ≠ "" := by
  rw [Fault.isSome_report?]
  constructor
  · rintro hdrawable rfl
    rcases ends_iff.mp he with ⟨e, hp, rfl⟩ | ⟨program, hp, -⟩
    · cases hp
      cases hf
      cases hdrawable
    · cases hp
  · intro hne
    have hlabels : ∀ l ∈ f.notice.labels, l.start ≤ l.stop := fun l hl =>
      (ha.places_in_text he hf (Fault.mem_places_of_label hl)).1
    have hlines : (Page.ofText source.toList).lines ≠ [] := by
      simpa [Page.lines_ofText_eq_nil_iff] using hne
    simpa [Notice.drawable, hlines] using hlabels

/-- The error of a text of one comment is at its end, after more bytes than it has characters. -/
theorem isSome_report?_of_comment :
    let source := "# é"
    After Heap.initial [] ∧ ∃ ended f, Ends Heap.initial .unlimited source ended ∧
      ended.result = .error f ∧ (f.report? source).isSome = true := by
  have hends : Ends Heap.initial .unlimited "# é" _ := ⟨0, rfl⟩
  exact ⟨.fresh, _, _, hends, rfl, (After.isSome_report?_iff .fresh hends rfl).mpr (by decide)⟩

/-- A text without characters is no program, and there is no report on it. -/
theorem not_isSome_report?_of_empty :
    After Heap.initial [] ∧ ∃ ended f, Ends Heap.initial .unlimited "" ended ∧
      ended.result = .error f ∧ f.report? "" = none :=
  ⟨.fresh, _, _, ⟨0, rfl⟩, rfl, rfl⟩

/-! ## What a report names -/

/-- A report names the place that has as many characters before it as the fault has bytes. This is
    the place of the fault just if all those characters are single bytes; and at the end of the
    text, only if no line break stands right before it. -/
theorem After.reference_report?_iff (ha : After h kept) (he : Ends h out source ended)
    (hf : ended.result = .error f) (hr : f.report? source = some report) :
    ∃ before rest, source.toList = before ++ rest ∧ f.notice.location = byteLength before ∧
      (byteLength before < source.toList.length →
        reference report = referenceTo (lineOf source.toList (byteLength before))
          (columnOf source.toList (byteLength before))) ∧
      (reference report = referenceTo (lineOf source.toList before.length)
          (columnOf source.toList before.length) ↔
        (∀ c ∈ before, c.utf8Size = 1) ∧
          (rest = [] → ∀ c ∈ before.getLast?, Text.isLineBreak c = false)) := by
  obtain ⟨s, hs, hlocation⟩ := f.exists_place_of_location
  obtain ⟨-, before, rest, htext, hstart⟩ := ha.places_in_text he hf hs
  have hne : source.toList ≠ [] := by
    have hreport : (f.report? source).isSome = true := by rw [hr]; rfl
    simpa using (ha.isSome_report?_iff he hf).mp hreport
  refine ⟨before, rest, htext, hlocation ▸ hstart, fun hlt => ?_, ?_⟩
  · rw [Fault.reference_eq_iff hr, ← hlocation, hstart, Page.position?_of_lt hlt]
  · have hlength : before.length + rest.length = source.toList.length := by
      rw [htext, List.length_append]
    rw [Fault.reference_eq_iff hr, ← hlocation, hstart,
      Page.position?_eq_iff (by omega) (length_le_byteLength before) hne, byteLength_eq_length_iff]
    refine and_congr_right fun _ => ?_
    cases rest with
    | cons => simp [htext]
    | nil =>
      rw [List.append_nil] at htext
      rw [htext] at hne ⊢
      obtain ⟨init, last, rfl⟩ := List.eq_nil_or_concat before |>.resolve_left hne
      simp [endsLine_concat]

/-- A name on the third line: the first line break is one of two characters inside a text, the
    second ends a comment. -/
theorem reference_report?_of_lines :
    let source := "do(\"a\r\nb\", # c\n  x)"
    After Heap.initial [] ∧ ∃ ended report, Ends Heap.initial .unlimited source ended ∧
      ended.result = .error (.unbound ⟨17, 18⟩ "x") ∧
      (Fault.unbound ⟨17, 18⟩ "x").report? source = some report ∧
      reference report = referenceTo 3 3 := by
  obtain ⟨ended, hrun, hresult⟩ : ∃ ended, run? 100 Heap.initial .unlimited
      "do(\"a\r\nb\", # c\n  x)" = some ended ∧ ended.result = .error (.unbound ⟨17, 18⟩ "x") :=
    ⟨_, rfl, rfl⟩
  have hends : Ends Heap.initial .unlimited "do(\"a\r\nb\", # c\n  x)" ended := ⟨100, hrun⟩
  obtain ⟨report, hreport⟩ : ∃ report, (Fault.unbound ⟨17, 18⟩ "x").report?
      "do(\"a\r\nb\", # c\n  x)" = some report := by
    rw [← Option.isSome_iff_exists, Fault.isSome_report?]
    rfl
  obtain ⟨before, rest, -, hlocation, hreference, -⟩ :=
    After.reference_report?_iff .fresh hends hresult hreport
  refine ⟨.fresh, ended, report, hends, hresult, hreport, ?_⟩
  rw [← show 17 = byteLength before from hlocation] at hreference
  exact hreference (by decide)

/-- A name after a character of two bytes: the report names the place to its right. -/
theorem reference_report?_beside :
    let source := "do(\"é\", x)"
    After Heap.initial [] ∧ ∃ ended report, Ends Heap.initial .unlimited source ended ∧
      ended.result = .error (.unbound ⟨9, 10⟩ "x") ∧
      (Fault.unbound ⟨9, 10⟩ "x").report? source = some report ∧
      reference report = referenceTo 1 10 ∧
      byteLength "do(\"é\", ".toList = 9 ∧
      lineOf source.toList "do(\"é\", ".toList.length = 1 ∧
      columnOf source.toList "do(\"é\", ".toList.length = 9 := by
  obtain ⟨ended, hrun, hresult⟩ : ∃ ended, run? 100 Heap.initial .unlimited "do(\"é\", x)" =
      some ended ∧ ended.result = .error (.unbound ⟨9, 10⟩ "x") :=
    ⟨_, rfl, rfl⟩
  obtain ⟨report, hreport⟩ : ∃ report, (Fault.unbound ⟨9, 10⟩ "x").report? "do(\"é\", x)" =
      some report := by
    rw [← Option.isSome_iff_exists, Fault.isSome_report?]
    rfl
  exact ⟨.fresh, ended, report, ⟨100, hrun⟩, hresult, hreport,
    (Fault.reference_eq_iff hreport).mpr rfl, rfl, rfl, rfl⟩

end Program

end ApplyLang
