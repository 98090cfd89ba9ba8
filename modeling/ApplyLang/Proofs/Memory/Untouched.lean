import ApplyLang.Proofs.Memory.Release

/-!
# What dropping handles leaves alone

Dropping a handle can free an object, which drops the handles in it, and so on. None of this goes
further than handles lead: if a set of references has with an object also all that the object holds,
then dropping handles to members changes nothing outside the set, not even a counter.

* `Heap.Closed` — such a set.
* `Closed.cell?_discard`, `Closed.cell?_release` — what is outside stays as it is.
-/

namespace ApplyLang.Heap

/-- Whatever an object of the set holds is in the set. -/
def Closed (P : Ref → Prop) (h : Heap) : Prop :=
  ∀ r o, P r → h.object? r = some o → ∀ x ∈ o.handles, P x

variable {P : Ref → Prop} {h : Heap}

theorem Closed.shrink (hc : h.Closed P) {k : Heap} (hk : h.Shrinks k) : k.Closed P :=
  fun r o hr ho => hc r o hr (hk.object r o ho)

/-! ## Handles -/

theorem cell?_put_of_ne (h : Heap) {r x : Ref} (hx : x ≠ r) (cell : Option Cell) :
    (h.put r cell).cell? x = h.cell? x := by
  unfold put cell?
  rw [Array.getElem?_setIfInBounds_ne (Ne.symm hx)]

theorem cell?_dropHandle_of_ne (h : Heap) {r x : Ref} (hx : x ≠ r) :
    (h.dropHandle r).1.cell? x = h.cell? x := by
  unfold dropHandle
  split
  · split_ifs
    · exact cell?_put_of_ne h hx _
    · exact cell?_put_of_ne h hx _
  · rfl

theorem Closed.mem_dropHandle (hc : h.Closed P) {r x : Ref} (hr : P r)
    (hx : x ∈ (h.dropHandle r).2) : P x := by
  unfold dropHandle at hx
  split at hx
  · rename_i c hcell
    split_ifs at hx
    · exact hc r c.object hr (object?_eq_some_iff.mpr ⟨c.holders, hcell⟩) x hx
    · cases hx
  · cases hx

theorem Closed.dropHandles (hc : h.Closed P) {refs : List Ref} (hr : ∀ r ∈ refs, P r) :
    (∀ x, ¬ P x → (h.dropHandles refs).1.cell? x = h.cell? x) ∧
      ∀ x ∈ (h.dropHandles refs).2, P x := by
  induction refs generalizing h with
  | nil => exact ⟨fun _ _ => rfl, fun x hx => absurd hx List.not_mem_nil⟩
  | cons r rest ih =>
    have hfirst := hr r List.mem_cons_self
    obtain ⟨hsame, hfreed⟩ := ih (hc.shrink (dropHandle_shrinks h r))
      fun s hs => hr s (List.mem_cons_of_mem _ hs)
    refine ⟨fun x hx => ?_, fun x hx => ?_⟩
    · have hne : x ≠ r := fun heq => hx (heq ▸ hfirst)
      exact (hsame x hx).trans (cell?_dropHandle_of_ne h hne)
    · rcases List.mem_append.mp hx with hx | hx
      · exact hc.mem_dropHandle hfirst hx
      · exact hfreed x hx

theorem Closed.cell?_dropRounds (hc : h.Closed P) (rounds : ℕ) {refs : List Ref}
    (hr : ∀ r ∈ refs, P r) {x : Ref} (hx : ¬ P x) :
    (dropRounds rounds h refs).cell? x = h.cell? x := by
  induction rounds generalizing h refs with
  | zero => rfl
  | succ rounds ih =>
    cases refs with
    | nil => rfl
    | cons r rest =>
      obtain ⟨hsame, hfreed⟩ := hc.dropHandles hr
      exact (ih (hc.shrink (dropHandles_shrinks h _)) hfreed).trans (hsame x hx)

theorem Closed.cell?_discard (hc : h.Closed P) {refs : List Ref} (hr : ∀ r ∈ refs, P r) {x : Ref}
    (hx : ¬ P x) : (h.discard refs).cell? x = h.cell? x :=
  hc.cell?_dropRounds _ hr hx

/-! ## Releases -/

theorem Closed.emptyFrame (hc : h.Closed P) {r : Ref} (hr : P r) :
    (h.emptyFrame r).1.Closed P ∧ (∀ x, ¬ P x → (h.emptyFrame r).1.cell? x = h.cell? x) ∧
      ∀ x ∈ (h.emptyFrame r).2, P x := by
  cases hf : h.frame? r with
  | none =>
    rw [emptyFrame_of_none hf]
    exact ⟨hc, fun _ _ => rfl, fun x hx => absurd hx List.not_mem_nil⟩
  | some f =>
    have ho := frame?_eq_some_iff.mp hf
    have hheld := hc r _ hr ho
    rw [emptyFrame_of_frame ho]
    refine ⟨fun s o hs hso x hx => ?_, fun x hx => ?_, fun x hx => ?_⟩
    · rw [object?_replace (alive_of_object? ho)] at hso
      split_ifs at hso with heq
      · cases hso
        refine hheld x (List.mem_append_left _ ?_)
        simpa [Object.handles] using hx
      · exact hc s o hs hso x hx
    · have hne : x ≠ r := fun heq => hx (heq ▸ hr)
      show (h.replace r _).cell? x = h.cell? x
      unfold replace
      split
      · exact cell?_put_of_ne h hne _
      · rfl
    · exact hheld x (List.mem_append_right _ hx)

theorem Closed.emptyFrames (hc : h.Closed P) {refs : List Ref} (hr : ∀ r ∈ refs, P r) :
    (h.emptyFrames refs).1.Closed P ∧
      (∀ x, ¬ P x → (h.emptyFrames refs).1.cell? x = h.cell? x) ∧
      ∀ x ∈ (h.emptyFrames refs).2, P x := by
  induction refs generalizing h with
  | nil => exact ⟨hc, fun _ _ => rfl, fun x hx => absurd hx List.not_mem_nil⟩
  | cons r rest ih =>
    obtain ⟨hfirst, hsame, hheld⟩ := hc.emptyFrame (hr r List.mem_cons_self)
    obtain ⟨hrest, hsame', hheld'⟩ := ih hfirst fun s hs => hr s (List.mem_cons_of_mem _ hs)
    refine ⟨hrest, fun x hx => (hsame' x hx).trans (hsame x hx), fun x hx => ?_⟩
    rcases List.mem_append.mp hx with hx | hx
    · exact hheld x hx
    · exact hheld' x hx

/-- A release changes nothing outside a closed set with the frame and all frames that are emptied. -/
theorem Closed.cell?_release (hc : h.Closed P) {r : Ref} (hr : P r) (hlost : ∀ x ∈ h.lost r, P x)
    {x : Ref} (hx : ¬ P x) : (h.release r).cell? x = h.cell? x := by
  have hsingle : ∀ s ∈ [r], P s := fun s hs => List.mem_singleton.mp hs ▸ hr
  by_cases hone : h.holders r = 1
  · rw [release_of_last hone]
    exact hc.cell?_discard hsingle hx
  · obtain ⟨hempty, hsame, hheld⟩ := hc.emptyFrames hlost
    rw [release_of_shared hone]
    refine (hempty.cell?_discard (fun s hs => ?_) hx).trans (hsame x hx)
    rcases List.mem_append.mp hs with hs | hs
    · exact hheld s hs
    · exact hsingle s hs

end ApplyLang.Heap
