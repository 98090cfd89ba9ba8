import ApplyLang.Proofs.Memory.Tracing
import Mathlib.Data.Fintype.EquivFin

/-!
# What keeps itself alive

Objects that hold one another in a circle survive whatever handles are dropped, and so does anything
with a holder that survives. A release with the only handle just drops it and leaves such circles
alone, while the long way looks for them.

* `Heap.Supported` — a set of objects each of which has a holder in the set or outside memory.
* `Balanced.supported_discard` — dropping other handles leaves such a set there.
* `Heap.Circle` — members that nobody rescues, on a way of links that comes back.
* `Serves.alive_discard_of_collect` — the long way leaves nothing that dropping the handle would not.
* `Serves.discard_eq_collect_iff` — both leave the same if and only if there is no such circle.
-/

namespace ApplyLang.Heap

variable {h k : Heap} {outer : List Ref} {S : Ref → Prop}

/-! ## Supported sets -/

/-- Everything in the set is there, and somebody outside memory or an object of the set holds it. -/
def Supported (h : Heap) (outer : List Ref) (S : Ref → Prop) : Prop :=
  ∀ x, S x → h.alive x = true ∧ (x ∈ outer ∨ ∃ y, S y ∧ x ∈ h.handlesAt y)

theorem linked_pos_of_mem {x y : Ref} (hx : x ∈ h.handlesAt y) : 0 < h.linked x := by
  cases ho : h.object? y with
  | none =>
    rw [handlesAt_of_none ho] at hx
    cases hx
  | some o =>
    rw [handlesAt_of_object? ho] at hx
    have hle := count_le_linked (x := x) ho
    have hpos := List.count_pos_iff.mpr hx
    omega

/-- Where objects stay as they are, only their presence has to be checked. -/
theorem Supported.shrink (hS : h.Supported outer S) (hk : h.Shrinks k)
    (halive : ∀ x, S x → k.alive x = true) : k.Supported outer S := by
  intro x hx
  refine ⟨halive x hx, ?_⟩
  rcases (hS x hx).2 with hout | ⟨y, hy, hheld⟩
  · exact .inl hout
  · right
    refine ⟨y, hy, ?_⟩
    obtain ⟨o, ho⟩ := alive_iff.mp (halive y hy)
    rw [handlesAt_of_object? ho]
    rwa [handlesAt_of_object? (hk.object y o ho)] at hheld

/-- The last handle to an object is nobody else's, so its object is not in the set. -/
theorem Supported.dropHandle {r : Ref} {rest : List Ref} (hS : h.Supported outer S)
    (hb : h.Balanced (r :: rest)) (hsub : outer ⊆ rest) : (h.dropHandle r).1.Supported outer S := by
  refine hS.shrink (dropHandle_shrinks h r) ?_
  intro x hx
  obtain ⟨o, ho⟩ := alive_iff.mp (hS x hx).1
  obtain ⟨p, hp⟩ := alive_iff.mp (hb.alive_of_mem (r := r) List.mem_cons_self)
  obtain ⟨n, hc⟩ := object?_eq_some_iff.mp hp
  have hholders := hb.holders_eq r
  have hn : h.holders r = n := by rw [holders, hc]
  rw [List.count_cons_self] at hholders
  by_cases hone : n = 1
  · subst hone
    have hne : x ≠ r := by
      rintro rfl
      rcases (hS x hx).2 with hout | ⟨y, -, hheld⟩
      · have hpos := List.count_pos_iff.mpr (hsub hout)
        omega
      · have hpos := linked_pos_of_mem hheld
        omega
    rw [dropHandle_of_last hc]
    refine alive_of_object? (o := o) ?_
    rw [object?_put h r x none (lt_size_of_object? hp), if_neg hne, ho]
  · rw [dropHandle_of_shared hc (by omega)]
    exact alive_of_object? ((object?_put_self h hc).trans ho)

theorem Supported.dropHandles {refs rest : List Ref} (hS : h.Supported outer S)
    (hb : h.Balanced (refs ++ rest)) (hsub : outer ⊆ rest) :
    (h.dropHandles refs).1.Supported outer S := by
  induction refs generalizing h rest with
  | nil => exact hS
  | cons r refs ih =>
    have hlater : outer ⊆ refs ++ rest := List.Subset.trans hsub (List.subset_append_right _ _)
    have hfirst : (h.dropHandle r).1.Balanced ((h.dropHandle r).2 ++ (refs ++ rest)) :=
      hb.dropHandle
    have hnext : (h.dropHandle r).1.Balanced (refs ++ ((h.dropHandle r).2 ++ rest)) := by
      apply hfirst.congr
      intro x
      simp only [List.count_append]
      omega
    exact ih (hS.dropHandle hb hlater) hnext (List.Subset.trans hsub (List.subset_append_right _ _))

theorem Supported.dropRounds (rounds : ℕ) {refs rest : List Ref} (hS : h.Supported outer S)
    (hb : h.Balanced (refs ++ rest)) (hsub : outer ⊆ rest) :
    (dropRounds rounds h refs).Supported outer S := by
  induction rounds generalizing h refs with
  | zero => exact hS
  | succ rounds ih =>
    cases refs with
    | nil => exact hS
    | cons r refs => exact ih (hS.dropHandles hb hsub) hb.dropHandles

/-- A supported set survives when other handles are dropped. -/
theorem Balanced.supported_discard {refs : List Ref} (hb : h.Balanced (refs ++ outer))
    (hS : h.Supported outer S) : (h.discard refs).Supported outer S :=
  hS.dropRounds _ hb (List.Subset.refl _)

/-- Everything that is alive is supported. -/
theorem Balanced.supported_alive (hb : h.Balanced outer) :
    h.Supported outer fun x => h.alive x = true := by
  intro x hx
  refine ⟨hx, ?_⟩
  have hpos := hb.holders_pos x hx
  rw [hb.holders_eq x] at hpos
  by_cases hout : x ∈ outer
  · exact .inl hout
  · right
    rw [List.count_eq_zero_of_not_mem hout, Nat.zero_add] at hpos
    obtain ⟨y, o, ho, hxo⟩ := exists_of_linked_pos hpos
    exact ⟨y, alive_of_object? ho, handlesAt_of_object? ho ▸ hxo⟩

/-- What supports itself in a part of memory supports itself in all of it. -/
theorem Supported.of_shrinks (hS : k.Supported outer S) (hk : h.Shrinks k) :
    h.Supported outer S := by
  intro x hx
  obtain ⟨ha, hheld⟩ := hS x hx
  refine ⟨hk.alive ha, hheld.imp_right ?_⟩
  rintro ⟨y, hy, hxy⟩
  refine ⟨y, hy, ?_⟩
  obtain ⟨o, ho⟩ := alive_iff.mp (hS y hy).1
  rw [handlesAt_of_object? (hk.object y o ho)]
  rwa [handlesAt_of_object? ho] at hxy

/-! ## Circles -/

variable {frames : List Ref} {values : List Value} {r : Ref}

/-- A member of the survey from `r` that nobody rescues, and that is on a way of links that comes
    back to it. -/
def Circle (h : Heap) (r : Ref) (frames : List Ref) (values : List Value) (n : Ref) : Prop :=
  h.Reaches r n ∧ ¬ h.Rescued r frames values n ∧ Relation.TransGen h.Links n n

theorem not_rescued_of_reaches {x y : Ref} (hy : ¬ h.Rescued r frames values y)
    (hxy : h.Reaches x y) : ¬ h.Rescued r frames values x := by
  rintro ⟨z, hz, hbeside, hzx⟩
  exact hy ⟨z, hz, hbeside, hzx.trans hxy⟩

/-- A link to a member that nobody rescues is a handle. -/
theorem mem_handlesAt_of_links {x y : Ref} (hy : h.Reaches r y)
    (hx : ¬ h.Rescued r frames values x) (hl : h.Links y x) : x ∈ h.handlesAt y := by
  rcases (h.links_iff y x).mp hl with htarget | hpin
  · have hpos := List.count_pos_iff.mpr htarget
    exact List.count_pos_iff.mp (hpos.trans_le (h.count_targetsAt_le y x))
  · exact absurd ⟨x, hy.tail hl, .of_pin hy hpin, .refl⟩ hx

theorem Serves.alive_of_reaches (hs : h.Serves (r :: frames) values) {x : Ref}
    (hx : h.Reaches r x) : h.alive x = true := by
  obtain ⟨visited, hc⟩ := survey_complete hs.balanced.valid
    (hs.alive_of_mem_frames (r := r) List.mem_cons_self)
  exact hc.counts.alive x (List.mem_append_left _ ((hc.mem_iff_reaches x).mpr hx))

/-- What lies on a circle holds itself. -/
theorem Serves.supported_circle (hs : h.Serves (r :: frames) values) {n : Ref}
    (hn : h.Circle r frames values n) (outer : List Ref) :
    h.Supported outer fun x => h.Reaches n x ∧ h.Reaches x n := by
  obtain ⟨hreach, hnot, hback⟩ := hn
  rintro x ⟨hnx, hxn⟩
  refine ⟨hs.alive_of_reaches (hreach.trans hnx), .inr ?_⟩
  -- the last link on the way to `x`, or on the way back if `x` is where the circle begins
  obtain ⟨y, hny, hl⟩ : ∃ y, h.Reaches n y ∧ h.Links y x := by
    rcases Relation.ReflTransGen.cases_tail hnx with heq | hlast
    · rw [heq]
      exact Relation.TransGen.tail'_iff.mp hback
    · exact hlast
  refine ⟨y, ⟨hny, .head hl hxn⟩, ?_⟩
  exact mem_handlesAt_of_links (hreach.trans hny) (not_rescued_of_reaches hnot hxn) hl

/-- A circle goes through a frame: a function links to the frame that it was made in. -/
theorem Serves.exists_frame_of_circle (hs : h.Serves (r :: frames) values) {n : Ref}
    (hn : h.Circle r frames values n) :
    ∃ m f, h.Reaches n m ∧ h.Reaches m n ∧ h.object? m = some (.frame f) := by
  obtain ⟨m, hl, hmn⟩ := Relation.TransGen.head'_iff.mp hn.2.2
  cases hl with
  | parent hf => exact ⟨n, _, .refl, .refl, hf⟩
  | bound hf => exact ⟨n, _, .refl, .refl, hf⟩
  | captured hc =>
    obtain ⟨g, hg⟩ := hs.balanced.valid n _ hc
    exact ⟨_, g, .single (.captured hc), hmn, hg⟩

/-- In a finite set in which everything has a predecessor, some way comes back. -/
theorem exists_transGen_self {P : ℕ → Prop} {R : ℕ → ℕ → Prop} {bound : ℕ}
    (hbound : ∀ x, P x → x < bound) (hpred : ∀ x, P x → ∃ y, P y ∧ R y x) {x : ℕ} (hx : P x) :
    ∃ z, P z ∧ Relation.TransGen R z z := by
  by_contra hnone
  push Not at hnone
  let step : {x // P x} → {x // P x} → Prop := fun a b => R a b
  have hirrefl : ∀ a, ¬ Relation.TransGen step a a := by
    intro a ha
    exact hnone a a.2 (ha.lift Subtype.val fun _ _ hab => hab)
  have hfinite : Finite {x // P x} :=
    Finite.of_injective (fun a => (⟨a.1, hbound a a.2⟩ : Fin bound))
      fun a b hab => Subtype.ext (Fin.mk.inj hab)
  have : Std.Irrefl (Relation.TransGen step) := ⟨hirrefl⟩
  have hwf := Finite.wellFounded_of_trans_of_irrefl (Relation.TransGen step)
  obtain ⟨m, -, hmin⟩ := hwf.has_min Set.univ ⟨⟨x, hx⟩, trivial⟩
  obtain ⟨y, hy, hym⟩ := hpred m m.2
  exact hmin ⟨y, hy⟩ trivial (.single hym)

/-! ## The only handle -/

theorem Serves.balanced_cons (hs : h.Serves (r :: frames) values) :
    h.Balanced (r :: (frames ++ values.flatMap Value.handles)) :=
  hs.balanced

/-- No link leads to a frame that no object holds. -/
theorem Valid.not_links_of_unheld (hv : h.Valid) {f : Frame} (hf : h.object? r = some (.frame f))
    (hunheld : ∀ y o, h.object? y = some o → r ∉ o.handles) (y : Ref) : ¬ h.Links y r := by
  intro hl
  cases hl with
  | parent hg _ hp => exact hunheld y _ hg (List.mem_append_left _ (by simp [hp]))
  | bound hg _ hb hx =>
    obtain ⟨c, hc⟩ := ((hv y _ hg).2 _ hb).closure hv r hx
    cases hc.symm.trans hf
  | captured hc => exact hunheld y _ hc (List.mem_singleton_self _)

/-- Nobody rescues a frame that has no other holder. -/
theorem Serves.not_rescued_of_last (hs : h.Serves (r :: frames) values) (hone : h.holders r = 1) :
    ¬ h.Rescued r frames values r := by
  obtain ⟨f, hf⟩ := hs.frame r List.mem_cons_self
  have hvalid := hs.valid
  have hcount := hs.balanced_cons.holders_eq r
  rw [hone, List.count_cons_self] at hcount
  have houter : r ∉ frames ++ values.flatMap Value.handles := by
    intro hmem
    have hpos := List.count_pos_iff.mpr hmem
    omega
  have hunheld : ∀ y o, h.object? y = some o → r ∉ o.handles := by
    intro y o ho hmem
    have hle := count_le_linked (x := r) ho
    have hpos := List.count_pos_iff.mpr hmem
    omega
  rintro ⟨y, -, hbeside, hyr⟩
  rcases Relation.ReflTransGen.cases_tail hyr with rfl | ⟨z, -, hl⟩
  · cases hbeside with
    | frame hmem => exact houter (List.mem_append_left _ hmem)
    | value hv hmem =>
      exact houter (List.mem_append_right _ (List.mem_flatMap.mpr ⟨_, hv, hmem⟩))
    | object ho hmem _ => exact hunheld _ _ ho hmem
    | array _ hg _ hb hmem =>
      have harray := (hvalid _ _ hg).2 _ hb
      obtain ⟨c, hc⟩ := Value.closure_of_mem_closuresIn hvalid (hvalid _ _ harray) r hmem
      cases hc.symm.trans hf
  · exact hvalid.not_links_of_unheld hf hunheld z hl

/-- The long way leaves nothing that dropping the handle would not leave as well. -/
theorem Serves.alive_discard_of_collect (hs : h.Serves (r :: frames) values) {n : Ref}
    (hn : (h.collect r).alive n = true) : (h.discard [r]).alive n = true := by
  have hb : h.Balanced ([r] ++ (frames ++ values.flatMap Value.handles)) := hs.balanced
  have hleft := hs.balanced_cons.collect.supported_alive.of_shrinks hs.balanced_cons.collect_shrinks
  exact (hb.supported_discard hleft n hn).1

/-- A member that nobody rescues and that is left by dropping the handle is held by another such
    member. -/
theorem Serves.exists_holder_of_left (hs : h.Serves (r :: frames) values) {n : Ref}
    (hreach : h.Reaches r n) (hnot : ¬ h.Rescued r frames values n)
    (ha : (h.discard [r]).alive n = true) :
    ∃ y, (h.Reaches r y ∧ ¬ h.Rescued r frames values y ∧ (h.discard [r]).alive y = true) ∧
      h.Links y n := by
  have hb : h.Balanced ([r] ++ (frames ++ values.flatMap Value.handles)) := hs.balanced
  obtain ⟨visited, hc⟩ := survey_complete hs.balanced.valid
    (hs.alive_of_mem_frames (r := r) List.mem_cons_self)
  have hlost : (h.survey r).Lost n :=
    ⟨(hc.mem_iff n).mpr ((hc.mem_iff_reaches n).mpr hreach),
      mt (hs.marked_iff_rescued hc hreach).mp hnot⟩
  obtain ⟨houter, hheld⟩ := hs.balanced_cons.of_lost hc hlost
  rcases (hb.discard.supported_alive n ha).2 with hout | ⟨y, hy, hny⟩
  · exact absurd hout houter
  · obtain ⟨o, ho⟩ := alive_iff.mp hy
    have hbefore := (discard_shrinks h [r]).object y o ho
    rw [handlesAt_of_object? ho] at hny
    obtain ⟨hylost, htarget⟩ := hheld y o hbefore hny
    have hyreach := (hc.mem_iff_reaches y).mp ((hc.mem_iff y).mp hylost.1)
    refine ⟨y, ⟨hyreach, mt (hs.marked_iff_rescued hc hyreach).mpr hylost.2, hy⟩, ?_⟩
    rw [links_iff, targetsAt_of_object? hbefore]
    exact .inl htarget

/-- Without a circle, dropping the handle takes every member along that nobody rescues. -/
theorem Serves.not_alive_discard (hs : h.Serves (r :: frames) values)
    (hnone : ¬ ∃ n, h.Circle r frames values n) {n : Ref} (hreach : h.Reaches r n)
    (hnot : ¬ h.Rescued r frames values n) : (h.discard [r]).alive n = false := by
  by_contra ha
  obtain ⟨z, ⟨hz, hznot, -⟩, hback⟩ := exists_transGen_self (R := h.Links)
    (P := fun x => h.Reaches r x ∧ ¬ h.Rescued r frames values x ∧
      (h.discard [r]).alive x = true)
    (fun x hx => lt_size_of_alive ((discard_shrinks h [r]).alive hx.2.2))
    (fun x hx => hs.exists_holder_of_left hx.1 hx.2.1 hx.2.2)
    ⟨hreach, hnot, by simpa using ha⟩
  exact hnone ⟨z, hz, hznot, hback⟩

/-- Without a circle, the long way leaves whatever dropping the handle leaves: none of that is
    emptied. -/
theorem Serves.alive_collect_of_discard (hs : h.Serves (r :: frames) values)
    (hr : ¬ h.Rescued r frames values r) (hnone : ¬ ∃ n, h.Circle r frames values n) {n : Ref}
    (ha : (h.discard [r]).alive n = true) : (h.collect r).alive n = true := by
  have hb : h.Balanced ([r] ++ (frames ++ values.flatMap Value.handles)) := hs.balanced
  have hleft : ∀ x, (h.discard [r]).alive x = true → x ∉ h.lost r := by
    intro x hx hlost
    obtain ⟨hreach, hnot, -⟩ := (hs.mem_lost_iff_not_rescued hr).mp hlost
    rw [hs.not_alive_discard hnone hreach hnot] at hx
    cases hx
  have hsame : ∀ x, (h.discard [r]).alive x = true →
      (h.emptyFrames (h.lost r)).1.object? x = h.object? x := by
    intro x hx
    rw [object?_emptyFrames, if_neg (hleft x hx)]
  have hsupported : (h.emptyFrames (h.lost r)).1.Supported
      (frames ++ values.flatMap Value.handles) fun x => (h.discard [r]).alive x = true := by
    intro x hx
    obtain ⟨hax, hheld⟩ := hb.discard.supported_alive.of_shrinks (discard_shrinks h [r]) x hx
    obtain ⟨o, ho⟩ := alive_iff.mp hax
    refine ⟨alive_of_object? ((hsame x hx).trans ho), hheld.imp_right ?_⟩
    rintro ⟨y, hy, hxy⟩
    refine ⟨y, hy, ?_⟩
    rwa [handlesAt, hsame y hy]
  have hempty : (h.emptyFrames (h.lost r)).1.Balanced
      (((h.emptyFrames (h.lost r)).2 ++ [r]) ++ (frames ++ values.flatMap Value.handles)) := by
    apply (hb.emptyFrames (h.lost r)).congr
    intro x
    simp only [List.count_append]
    omega
  exact (hempty.supported_discard hsupported n ha).1

/-- Dropping the only handle to a frame and the long way leave the same frames with the same bindings
    if and only if there is no circle for the survey to find. -/
theorem Serves.discard_eq_collect_iff (hs : h.Serves (r :: frames) values)
    (hone : h.holders r = 1) :
    (∀ n, (h.discard [r]).frame? n = (h.collect r).frame? n) ↔
      ¬ ∃ n, h.Circle r frames values n := by
  have hb : h.Balanced ([r] ++ (frames ++ values.flatMap Value.handles)) := hs.balanced
  have hr := hs.not_rescued_of_last hone
  have hdrop := discard_shrinks h [r]
  constructor
  · rintro hsame ⟨n, hn⟩
    obtain ⟨m, f, hnm, hmn, hf⟩ := hs.exists_frame_of_circle hn
    have hleft := (hb.supported_discard (hs.supported_circle hn _) m ⟨hnm, hmn⟩).1
    have hgone := hs.not_alive_collect hr (hn.1.trans hnm) (not_rescued_of_reaches hn.2.1 hmn)
    have hframe : (h.collect r).frame? m = some f := by
      rw [← hsame m, frame?_eq_some_iff, hdrop.eq_of_alive hleft, hf]
    rw [alive_of_object? (frame?_eq_some_iff.mp hframe)] at hgone
    cases hgone
  · intro hnone n
    have hobject : (h.discard [r]).object? n = (h.collect r).object? n := by
      cases ha : (h.collect r).alive n with
      | true =>
        rw [hdrop.eq_of_alive (hs.alive_discard_of_collect ha),
          hs.balanced_cons.collect_shrinks.eq_of_alive ha]
      | false =>
        have hdead : (h.discard [r]).alive n = false := by
          by_contra hleft
          rw [hs.alive_collect_of_discard hr hnone (by simpa using hleft)] at ha
          cases ha
        rw [object?_of_not_alive ha, object?_of_not_alive hdead]
    rw [frame?, frame?, hobject]

end ApplyLang.Heap
