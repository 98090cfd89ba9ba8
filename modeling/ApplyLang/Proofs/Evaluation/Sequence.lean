import ApplyLang.Evaluation.Builtin
import ApplyLang.Proofs.Number.Whole

/-!
# Sequences

Arrays and texts are sequences: `length` counts the items of one, and `element` gives the item at an
index. The items of a text are its characters, however many bytes each of them has.

An index is a double. It is tested against the length, cut to a natural number, and then the item is
looked up, which could fail once more.

* `Sequence` — what the items of a sequence are.
* `itemAt_eq` — what the test, the cut and the lookup come to.
* `exists_item` — behind the test the lookup does not fail.
* `itemAt_of_value?`, `itemAt_of_ne` — what `element` gives for an index that is a natural number
  below the length, and for any other number.
* `Sequence.length_element` — the two functions agree on every sequence whose length is a double.
-/

namespace ApplyLang.Builtin

open Number (value? Addresses addresses_iff)

/-- The items of a value that is a sequence: those of an array, or the characters of a text, each
    as a text of its own. -/
inductive Sequence : Value → List Value → Prop
  | array (storage : Ref) (items : List Value) : Sequence (.array storage items) items
  | text (s : String) : Sequence (.text s) (s.toList.map fun c => .text (String.ofList [c]))

variable {call : Span} {v item : Value} {items : List Value} {x : Float} {k : ℕ}

theorem Sequence.itemsOf_eq (hs : Sequence v items) : itemsOf call v = .ok items := by
  cases hs with
  | array storage items => rfl
  | text s => rfl

/-! ## One index -/

/-- The code reads the test off the double and the item off the natural number it is cut to. -/
theorem exists_item (hsize : items.length < 2 ^ 53) (h : Addresses x items.length) :
    ∃ item, items[x.toUInt64.toNat]? = some item ∧ ∃ k : ℕ, value? x = some (k : ℚ) ∧
      items[k]? = some item := by
  obtain ⟨k, hk, hx⟩ := (addresses_iff hsize).1 h
  have hcut := Number.toNat_toUInt64 hx (by omega)
  have hitem : items[k]? = some items[k] := List.getElem?_eq_getElem hk
  exact ⟨items[k], by rw [hcut, hitem], k, hx, hitem⟩

theorem bind_index? (hsize : items.length < 2 ^ 53) :
    ((Number.index? x items.length).bind fun k => items[k]?) =
      (Number.natural? x).bind fun k => items[k]? := by
  rw [Number.index?_eq_natural? hsize]
  cases Number.natural? x with
  | none => rfl
  | some k =>
    by_cases hk : k < items.length
    · simp [Option.filter, hk]
    · simp [Option.filter, hk]

/-- What the test, the cut and the lookup come to: the item at the natural number that the index is
    equal to. -/
theorem itemAt_eq (hs : Sequence v items) (hsize : items.length < 2 ^ 53) :
    itemAt call v (.number x) = match (Number.natural? x).bind fun k => items[k]? with
      | some item => .ok item
      | none => .error (.outOfRange call (Number.text x) items.length) := by
  rw [← bind_index? hsize, itemAt, hs.itemsOf_eq]
  rfl

/-- An index that is a natural number below the length. -/
theorem itemAt_of_value? (hs : Sequence v items) (hsize : items.length < 2 ^ 53)
    (hx : value? x = some (k : ℚ)) (hitem : items[k]? = some item) :
    itemAt call v (.number x) = .ok item := by
  rw [itemAt_eq hs hsize, Number.natural?_eq_some_iff.2 hx, Option.bind_some, hitem]

/-- Any other number. -/
theorem itemAt_of_ne (hs : Sequence v items) (hsize : items.length < 2 ^ 53)
    (h : ¬ ∃ k < items.length, value? x = some (k : ℚ)) :
    itemAt call v (.number x) = .error (.outOfRange call (Number.text x) items.length) := by
  have hnone : ((Number.natural? x).bind fun k => items[k]?) = none := by
    rw [Option.bind_eq_none_iff]
    intro k hk
    rw [List.getElem?_eq_none_iff]
    by_contra hlt
    exact h ⟨k, not_le.1 hlt, Number.natural?_eq_some_iff.1 hk⟩
  rw [itemAt_eq hs hsize, hnone]

theorem itemAt_eq_ok_iff (hs : Sequence v items) (hsize : items.length < 2 ^ 53) :
    itemAt call v (.number x) = .ok item ↔
      ∃ k : ℕ, value? x = some (k : ℚ) ∧ items[k]? = some item := by
  constructor
  · intro h
    by_cases hk : ∃ k < items.length, value? x = some (k : ℚ)
    · obtain ⟨k, hk, hx⟩ := hk
      have hitem : items[k]? = some items[k] := List.getElem?_eq_getElem hk
      rw [itemAt_of_value? hs hsize hx hitem, Except.ok.injEq] at h
      exact ⟨k, hx, h ▸ hitem⟩
    · rw [itemAt_of_ne hs hsize hk] at h
      cases h
  · rintro ⟨k, hx, hitem⟩
    exact itemAt_of_value? hs hsize hx hitem

/-- The index is looked at before the sequence. -/
theorem itemAt_of_not_number {w n : Value} (hn : ∀ x, n ≠ .number x) :
    itemAt call w n = .error (mismatch call n ["Number"]) := by
  cases n with
  | number x => exact absurd rfl (hn x)
  | _ => rfl

/-! ## All indices -/

/-- The characters of a text are its items, and together they are the text. -/
theorem Sequence.text_parts {s : String} (hs : Sequence (.text s) items) :
    ∃ parts : List String, items = parts.map .text ∧ (∀ p ∈ parts, p.length = 1) ∧
      String.join parts = s := by
  cases hs
  refine ⟨s.toList.map fun c => String.ofList [c], by rw [List.map_map]; rfl, ?_, ?_⟩
  · intro p hp
    obtain ⟨c, -, rfl⟩ := List.mem_map.1 hp
    exact String.length_ofList
  · rw [← String.toList_inj, String.toList_join, List.flatMap_map]
    simp

/-! ## The two functions -/

section Apply

variable {h : Heap} {out : Sink}

/-- `length` gives the number of items, and `element` the items themselves: at the indices that are
    equal to a natural number below the length, and nowhere else. -/
theorem Sequence.length_element (hs : Sequence v items) (hsize : items.length < 2 ^ 53)
    (call : Span) (h : Heap) (out : Sink) :
    (∃ n, value? n = some (items.length : ℚ) ∧
      length.apply call [v] h out = (h.copy (.number n), out, .ok (.number n))) ∧
    (∀ x item, element.apply call [v, .number x] h out = (h.copy item, out, .ok item) ↔
      ∃ k : ℕ, value? x = some (k : ℚ) ∧ items[k]? = some item) ∧
    (∀ x, (¬ ∃ k < items.length, value? x = some (k : ℚ)) →
      element.apply call [v, .number x] h out =
        (h, out, .error (.outOfRange call (Number.text x) items.length))) ∧
    (∀ w n, (∀ x, n ≠ .number x) →
      element.apply call [w, n] h out = (h, out, .error (mismatch call n ["Number"]))) ∧
    (∀ x, (Addresses x items.length ↔ ∃ k < items.length, value? x = some (k : ℚ)) ∧
      (Addresses x items.length → ∃ item, items[x.toUInt64.toNat]? = some item ∧
        element.apply call [v, .number x] h out = (h.copy item, out, .ok item))) ∧
    ((List.range items.length).map fun k =>
      (element.apply call [v, .number (Number.ofNat k)] h out).2.2) = items.map .ok ∧
    ∀ s, v = .text s → ∃ parts : List String, items = parts.map .text ∧
      (∀ p ∈ parts, p.length = 1) ∧ String.join parts = s := by
  have hfound {x : Float} {item : Value} (hx : ∃ k : ℕ, value? x = some (k : ℚ) ∧
      items[k]? = some item) :
      element.apply call [v, .number x] h out = (h.copy item, out, .ok item) := by
    rw [apply_eq_of_ne (by decide) (by decide), compute, (itemAt_eq_ok_iff hs hsize).2 hx]
  have hresult (w n : Value) : (element.apply call [w, n] h out).2.2 = itemAt call w n := by
    rw [apply_result (by decide) (by decide), compute]
  refine ⟨?_, fun x item => ⟨fun hx => ?_, hfound⟩, fun x hx => ?_, fun w n hn => ?_,
    fun x => ⟨addresses_iff hsize, fun hx => ?_⟩, ?_, ?_⟩
  · refine ⟨Number.ofNat items.length, Number.value?_ofNat hsize, ?_⟩
    rw [apply_eq_of_ne (by decide) (by decide), compute, hs.itemsOf_eq]
    rfl
  · exact (itemAt_eq_ok_iff hs hsize).1 ((hresult v _).symm.trans (congrArg (·.2.2) hx))
  · rw [apply_eq_of_ne (by decide) (by decide), compute, itemAt_of_ne hs hsize hx]
  · rw [apply_eq_of_ne (by decide) (by decide), compute, itemAt_of_not_number hn]
  · obtain ⟨item, hcut, hk⟩ := exists_item hsize hx
    exact ⟨item, hcut, hfound hk⟩
  · refine List.ext_getElem (by simp) fun k hk hk' => ?_
    rw [List.length_map] at hk'
    have hvalue := Number.value?_ofNat (hk'.trans hsize)
    rw [List.getElem_map, List.getElem_map, List.getElem_range,
      hfound ⟨k, hvalue, List.getElem?_eq_getElem hk'⟩]
  · rintro s rfl
    exact hs.text_parts

/-- The zero with a minus sign is an index of the first character, and what is not a number or not
    whole is none. The second character has two bytes. -/
theorem length_element_accented :
    Sequence (.text "aé") [.text "a", .text "é"] ∧
    ∀ call h out,
      element.apply call [.text "aé", .number (-0)] h out = (h, out, .ok (.text "a")) ∧
      element.apply call [.text "aé", .number 1] h out = (h, out, .ok (.text "é")) ∧
      element.apply call [.text "aé", .number (0 / 0)] h out =
        (h, out, .error (.outOfRange call "NaN" 2)) ∧
      element.apply call [.text "aé", .number 0.5] h out =
        (h, out, .error (.outOfRange call "0.5" 2)) ∧
      element.apply call [.bool true, .text "0"] h out =
        (h, out, .error (.mismatch call call "String" ["Number"])) := by
  have hs : Sequence (.text "aé") [.text "a", .text "é"] := .text "aé"
  refine ⟨hs, fun call h out => ?_⟩
  obtain ⟨-, hitem, hrange, hmismatch, -⟩ := hs.length_element (by decide) call h out
  have hplace {x : Float} {k : ℕ} (h : Number.natural? x = some k) : value? x = some (k : ℚ) :=
    Number.natural?_eq_some_iff.1 h
  have hnone {x : Float} (h : Number.natural? x = none) :
      ¬ ∃ k < [Value.text "a", .text "é"].length, value? x = some (k : ℚ) := by
    rintro ⟨k, -, hx⟩
    rw [Number.natural?_eq_some_iff.2 hx] at h
    cases h
  refine ⟨(hitem _ _).2 ⟨0, hplace (by decide +kernel), rfl⟩,
    (hitem _ _).2 ⟨1, hplace (by decide +kernel), rfl⟩, ?_, ?_,
    hmismatch _ _ fun x => Value.noConfusion⟩
  · rw [show "NaN" = Number.text (0 / 0) by decide +kernel]
    exact hrange _ (hnone (by decide +kernel))
  · rw [show "0.5" = Number.text 0.5 by decide +kernel]
    exact hrange _ (hnone (by decide +kernel))

end Apply

end ApplyLang.Builtin
