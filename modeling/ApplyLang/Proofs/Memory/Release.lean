import ApplyLang.Proofs.Memory.Live
import ApplyLang.Proofs.Memory.Roots

/-!
# Releasing a frame

A release empties frames, but only such as are freed by it: whatever is left of memory afterwards is
as it was before.

* `Heap.collect` — the long way to release a frame, taken if it has other holders.
* `Balanced.release` — memory is balanced for the handles that are left.
* `Balanced.release_shrinks` — what is still there has not changed. An emptied frame is held by lost
  members alone; the functions among these go with the bindings that held them, and then the frames
  go from the innermost outwards.
-/

namespace ApplyLang

/-- An object without its bindings. -/
def Object.emptied : Object → Object
  | .frame f => .frame { f with bindings := [] }
  | o => o

theorem Object.mem_handles_of_emptied {o : Object} {x : Ref} (hx : x ∈ o.emptied.handles) :
    x ∈ o.handles := by
  cases o with
  | frame f =>
    simp only [Object.emptied, Object.handles, List.flatMap_nil, List.append_nil] at hx
    exact List.mem_append_left _ hx
  | closure c => exact hx
  | array items => exact hx

namespace Heap

variable {h : Heap} {outer : List Ref}

/-! ## Emptying frames -/

theorem emptyFrame_of_frame {r : Ref} {f : Frame} (hf : h.object? r = some (.frame f)) :
    h.emptyFrame r = (h.replace r (.frame { f with bindings := [] }),
      f.bindings.flatMap fun b => b.2.handles) := by
  unfold emptyFrame
  rw [frame?_eq_some_iff.mpr hf]

theorem emptyFrame_of_none {r : Ref} (hf : h.frame? r = none) : h.emptyFrame r = (h, []) := by
  unfold emptyFrame
  rw [hf]

theorem emptyFrame_evolves (h : Heap) (r : Ref) : h.Evolves (h.emptyFrame r).1 := by
  cases hf : h.frame? r with
  | none => rw [emptyFrame_of_none hf]; exact .refl h
  | some f =>
    have ho := frame?_eq_some_iff.mp hf
    rw [emptyFrame_of_frame ho]
    exact replace_evolves (o := .frame f) ho ⟨rfl, rfl⟩

theorem emptyFrames_evolves (h : Heap) (refs : List Ref) : h.Evolves (h.emptyFrames refs).1 := by
  induction refs generalizing h with
  | nil => exact .refl h
  | cons r rest ih => exact (emptyFrame_evolves h r).trans (ih _)

theorem size_emptyFrames (h : Heap) (refs : List Ref) :
    (h.emptyFrames refs).1.cells.size = h.cells.size := by
  induction refs generalizing h with
  | nil => rfl
  | cons r rest ih =>
    refine (ih (h.emptyFrame r).1).trans ?_
    unfold emptyFrame
    split
    · exact size_replace h r _
    · rfl

theorem object?_emptyFrame (h : Heap) (r x : Ref) :
    (h.emptyFrame r).1.object? x =
      if x = r then (h.object? x).map Object.emptied else h.object? x := by
  cases hf : h.frame? r with
  | some f =>
    have ho := frame?_eq_some_iff.mp hf
    rw [emptyFrame_of_frame ho, object?_replace (alive_of_object? ho)]
    split_ifs with hx
    · rw [hx, ho]; rfl
    · rfl
  | none =>
    rw [emptyFrame_of_none hf]
    split_ifs with hx
    · subst hx
      cases ho : h.object? x with
      | none => rfl
      | some o =>
        cases o with
        | frame f => rw [frame?_eq_some_iff.mpr ho] at hf; cases hf
        | closure c => rfl
        | array items => rfl
    · rfl

theorem emptied_emptied (o : Object) : o.emptied.emptied = o.emptied := by
  cases o <;> rfl

theorem object?_emptyFrames (h : Heap) (refs : List Ref) (x : Ref) :
    (h.emptyFrames refs).1.object? x =
      if x ∈ refs then (h.object? x).map Object.emptied else h.object? x := by
  induction refs generalizing h with
  | nil => simp [emptyFrames]
  | cons r rest ih =>
    show ((h.emptyFrame r).1.emptyFrames rest).1.object? x = _
    rw [ih, object?_emptyFrame]
    by_cases hr : x = r
    · subst hr
      rw [if_pos rfl, if_pos List.mem_cons_self]
      split_ifs
      · rw [Option.map_map, Function.comp_def]
        simp only [emptied_emptied]
      · rfl
    · rw [if_neg hr]
      simp only [List.mem_cons, hr, false_or]

theorem Balanced.emptyFrame (hb : h.Balanced outer) (r : Ref) :
    (h.emptyFrame r).1.Balanced ((h.emptyFrame r).2 ++ outer) := by
  cases hf : h.frame? r with
  | none => rw [emptyFrame_of_none hf]; exact hb
  | some f =>
    have ho := frame?_eq_some_iff.mp hf
    rw [emptyFrame_of_frame ho]
    refine hb.replace (o := .frame f) ho ⟨rfl, rfl⟩ ⟨(hb.valid r _ ho).1, fun b hb => ?_⟩ fun x => ?_
    · exact absurd hb List.not_mem_nil
    · simp only [Object.handles, List.flatMap_nil, List.append_nil, List.count_append]
      omega

theorem Balanced.emptyFrames (hb : h.Balanced outer) (refs : List Ref) :
    (h.emptyFrames refs).1.Balanced ((h.emptyFrames refs).2 ++ outer) := by
  induction refs generalizing h outer with
  | nil => exact hb
  | cons r rest ih =>
    apply (ih (hb.emptyFrame r)).congr
    intro x
    simp only [Heap.emptyFrames, List.count_append]
    omega

/-! ## What is lost -/

/-- The links of an object, by what they lead to. -/
theorem Balanced.target_cases (hb : h.Balanced outer) {y n : Ref} {o : Object}
    (ho : h.object? y = some o) (hn : n ∈ Survey.targetsOf o) :
    (∃ f g, o = .frame f ∧ h.object? n = some (.frame g) ∧ n < y) ∨
      (∃ f c, o = .frame f ∧ f.isSealed = false ∧ h.object? n = some (.closure c)) ∨
        ∃ c g, o = .closure c ∧ h.object? n = some (.frame g) := by
  have hv := hb.valid y o ho
  cases o with
  | frame f =>
    rw [Survey.targetsOf_frame] at hn
    split_ifs at hn with hseal
    · exact absurd hn List.not_mem_nil
    · rcases List.mem_append.mp hn with hp | hbind
      · obtain ⟨hlt, g, hg⟩ := hv.1 n (Option.mem_toList.mp hp)
        exact .inl ⟨f, g, rfl, hg, hlt⟩
      · right; left
        obtain ⟨⟨name, v⟩, hmem, hlink⟩ := List.mem_filterMap.mp hbind
        have hvalue := hv.2 _ hmem
        cases v with
        | closure r =>
          cases hlink
          obtain ⟨c, hc⟩ := hvalue
          exact ⟨f, c, rfl, by simpa using hseal, hc⟩
        | bool | number | text | array | builtin => cases hlink
  | closure c =>
    right; right
    rw [Survey.targetsOf, List.mem_singleton] at hn
    obtain ⟨g, hg⟩ := hv
    exact ⟨c, g, rfl, hn ▸ hg⟩
  | array items => exact absurd hn List.not_mem_nil

theorem getD_false_iff {live : Array Bool} {r : Ref} (hr : r < live.size) :
    live.getD r false = true ↔ Survey.Marked live r := by
  simp [Survey.Marked, Array.getD_eq_getD_getElem?, Array.getElem?_eq_getElem hr]

theorem size_live {r : Ref} {visited : List Ref}
    (hc : Survey.Complete h (h.survey r) r visited) :
    (h.survey r).live.size = h.cells.size :=
  (h.survey r).size_live.trans hc.counts.size_eq

/-- If the released frame itself can be reached from outside, nothing is lost. -/
theorem lost_of_marked {r : Ref} (hr : r < (h.survey r).live.size)
    (hmark : Survey.Marked (h.survey r).live r) : h.lost r = [] := by
  unfold lost
  simp only [(getD_false_iff hr).mpr hmark, if_true]

/-- Otherwise the frames to be emptied are the lost frames without a seal. -/
theorem mem_lost_iff {r : Ref} (hr : r < (h.survey r).live.size)
    (hmark : ¬ Survey.Marked (h.survey r).live r)
    (hsize : (h.survey r).live.size = h.cells.size) {n : Ref} :
    n ∈ h.lost r ↔
      (h.survey r).Lost n ∧ ∃ f, h.object? n = some (.frame f) ∧ f.isSealed = false := by
  unfold lost
  simp only [mt (getD_false_iff hr).mp hmark, Bool.false_eq_true, if_false]
  rw [List.mem_filter, Survey.mem_refs]
  constructor
  · rintro ⟨hmember, htest⟩
    simp only [Bool.and_eq_true, Bool.not_eq_true'] at htest
    obtain ⟨⟨hlive, hframe⟩, hseal⟩ := htest
    obtain ⟨f, hf⟩ := Option.isSome_iff_exists.mp hframe
    have ho := frame?_eq_some_iff.mp hf
    refine ⟨⟨hmember, fun hn => ?_⟩, f, ho, ?_⟩
    · rw [← getD_false_iff (hsize ▸ lt_size_of_object? ho), hlive] at hn
      cases hn
    · rwa [isSealed, hf] at hseal
  · rintro ⟨⟨hmember, hn⟩, f, ho, hseal⟩
    have hlive := mt (getD_false_iff (hsize ▸ lt_size_of_object? ho)).mp hn
    refine ⟨hmember, ?_⟩
    simp [hlive, isSealed, frame?_eq_some_iff.mpr ho, hseal]

/-! ## Giving up a handle -/

/-- The long way to give up a handle, whoever else holds the frame: the frames that the survey finds
    lost are emptied, then the handles that were in them are dropped, and the handle itself. -/
def collect (h : Heap) (r : Ref) : Heap :=
  (h.emptyFrames (h.lost r)).1.discard ((h.emptyFrames (h.lost r)).2 ++ [r])

theorem release_of_last {r : Ref} (hr : h.holders r = 1) : h.release r = h.discard [r] := by
  unfold release
  rw [if_pos hr]

theorem release_of_shared {r : Ref} (hr : h.holders r ≠ 1) : h.release r = h.collect r := by
  unfold release
  rw [if_neg hr]
  rfl

theorem Balanced.collect {r : Ref} (hb : h.Balanced (r :: outer)) :
    (h.collect r).Balanced outer := by
  apply Balanced.discard
  apply (hb.emptyFrames (h.lost r)).congr
  intro x
  simp only [List.count_append, List.count_cons, List.count_nil]
  omega

theorem Balanced.release {r : Ref} (hb : h.Balanced (r :: outer)) :
    (h.release r).Balanced outer := by
  by_cases hr : h.holders r = 1
  · rw [release_of_last hr]
    have hone : h.Balanced ([r] ++ outer) := hb
    exact hone.discard
  · rw [release_of_shared hr]
    exact hb.collect

theorem collect_evolves (h : Heap) (r : Ref) : h.Evolves (h.collect r) :=
  (emptyFrames_evolves h _).trans (discard_shrinks _ _).evolves

theorem release_evolves (h : Heap) (r : Ref) : h.Evolves (h.release r) := by
  by_cases hr : h.holders r = 1
  · rw [release_of_last hr]
    exact (discard_shrinks h [r]).evolves
  · rw [release_of_shared hr]
    exact collect_evolves h r

/-- What is left was there before, with its bindings unless it was to be emptied. -/
theorem object?_of_collect {r x : Ref} {o : Object} (ho : (h.collect r).object? x = some o) :
    (if x ∈ h.lost r then (h.object? x).map Object.emptied else h.object? x) = some o := by
  rw [← object?_emptyFrames]
  exact (discard_shrinks _ _).object x o ho

/-- Whatever still holds a lost member afterwards is lost as well. It is a frame inside that member
    or a function made in it, since the bindings of lost frames are gone. -/
theorem Balanced.holder_of_lost {r n : Ref} {visited : List Ref} (hb : h.Balanced (r :: outer))
    (hc : Survey.Complete h (h.survey r) r visited)
    (hr : ¬ Survey.Marked (h.survey r).live r) (hn : (h.survey r).Lost n)
    (ha : (h.collect r).alive n = true) :
    ∃ y, (h.survey r).Lost y ∧ (h.collect r).alive y = true ∧
      (∃ g, h.object? n = some (.frame g)) ∧ (n < y ∨ ∃ c, h.object? y = some (.closure c)) := by
  obtain ⟨houter, hheld⟩ := hb.of_lost hc hn
  have hb' := hb.collect
  have hpos := hb'.holders_pos n ha
  rw [hb'.holders_eq n, List.count_eq_zero_of_not_mem houter, Nat.zero_add] at hpos
  obtain ⟨y, o, ho, hno⟩ := exists_of_linked_pos hpos
  have hbefore := object?_of_collect ho
  obtain ⟨p, hp, hnp⟩ : ∃ p, h.object? y = some p ∧ n ∈ p.handles := by
    split_ifs at hbefore
    · obtain ⟨p, hp, rfl⟩ := Option.map_eq_some_iff.mp hbefore
      exact ⟨p, hp, Object.mem_handles_of_emptied hno⟩
    · exact ⟨o, hbefore, hno⟩
  obtain ⟨hy, htarget⟩ := hheld y p hp hnp
  refine ⟨y, hy, alive_of_object? ho, ?_⟩
  rcases hb.target_cases hp htarget with
    ⟨f, g, -, hg, hlt⟩ | ⟨f, c, rfl, hseal, hcl⟩ | ⟨c, g, rfl, hg⟩
  · exact ⟨⟨g, hg⟩, .inl hlt⟩
  · -- the frame that binds the function is emptied, so of its handles only its parent is left
    have hlt : r < h.cells.size := lt_size_of_alive (hb.alive_of_mem (r := r) (by simp))
    have hsize := size_live hc
    rw [if_pos ((mem_lost_iff (hsize ▸ hlt) hr hsize).mpr ⟨hy, f, hp, hseal⟩), hp] at hbefore
    cases hbefore
    simp only [Object.emptied, Object.handles, List.flatMap_nil, List.append_nil] at hno
    obtain ⟨-, g, hg⟩ := (hb.valid y _ hp).1 n (Option.mem_toList.mp hno)
    rw [hcl] at hg
    cases hg
  · exact ⟨⟨g, hg⟩, .inr ⟨c, hp⟩⟩

/-- Nothing lost survives: a survivor would be held by a younger frame that is lost and survives. -/
theorem Balanced.lost_not_alive {r n : Ref} {visited : List Ref} (hb : h.Balanced (r :: outer))
    (hc : Survey.Complete h (h.survey r) r visited)
    (hr : ¬ Survey.Marked (h.survey r).live r) (hn : (h.survey r).Lost n) :
    (h.collect r).alive n = false := by
  -- from the youngest reference downwards
  induction hk : h.cells.size - n using Nat.strong_induction_on generalizing n with
  | _ k ih =>
    by_contra halive
    obtain ⟨y, hy, hay, hframe, hcase⟩ :=
      hb.holder_of_lost hc hr hn (by simpa using halive)
    rcases hcase with hlt | ⟨c, hcl⟩
    · obtain ⟨m, hm⟩ := Option.isSome_iff_exists.mp hy.1
      have hsize : y < h.cells.size := hc.counts.size_eq ▸ Survey.lt_size_of_member? hm
      have hdead := ih (h.cells.size - y) (hk ▸ Nat.sub_lt_sub_left (hlt.trans hsize) hlt) hy rfl
      rw [hdead] at hay
      cases hay
    · obtain ⟨-, -, -, ⟨g, hg⟩, -⟩ := hb.holder_of_lost hc hr hy hay
      rw [hcl] at hg
      cases hg

/-- Only what is freed has been emptied. -/
theorem Balanced.collect_shrinks {r : Ref} (hb : h.Balanced (r :: outer)) :
    h.Shrinks (h.collect r) := by
  have halive := hb.alive_of_mem (r := r) (by simp)
  obtain ⟨visited, hc⟩ := survey_complete hb.valid halive
  have hsize : (h.collect r).cells.size = h.cells.size :=
    (discard_shrinks _ _).size_eq.trans (size_emptyFrames h _)
  refine ⟨hsize, fun x o ho => ?_⟩
  have hbefore := object?_of_collect ho
  split_ifs at hbefore with hx
  · exfalso
    have hlive := size_live hc
    have hlt : r < (h.survey r).live.size := hlive ▸ lt_size_of_alive halive
    have hmark : ¬ Survey.Marked (h.survey r).live r := by
      intro hmark
      rw [lost_of_marked hlt hmark] at hx
      exact List.not_mem_nil hx
    have hdead := hb.lost_not_alive hc hmark ((mem_lost_iff hlt hmark hlive).mp hx).1
    rw [alive_of_object? ho] at hdead
    cases hdead
  · exact hbefore

/-- Whatever a release leaves is as it was. -/
theorem Balanced.release_shrinks {r : Ref} (hb : h.Balanced (r :: outer)) :
    h.Shrinks (h.release r) := by
  by_cases hone : h.holders r = 1
  · rw [release_of_last hone]
    exact discard_shrinks h [r]
  · rw [release_of_shared hone]
    exact hb.collect_shrinks

/-- Whoever holds a frame may give it up. -/
theorem Serves.release_shrinks {frames : List Ref} {values : List Value} {r : Ref}
    (hs : h.Serves frames values) (hr : r ∈ frames) : h.Shrinks (h.release r) := by
  have hfirst := hs.perm (List.perm_cons_erase hr).symm (.refl _)
  exact Balanced.release_shrinks hfirst.balanced

theorem Serves.release {r : Ref} {frames : List Ref} {values : List Value}
    (hs : h.Serves (r :: frames) values) : (h.release r).Serves frames values :=
  hs.evolve (release_evolves h r) (Balanced.release hs.balanced)
    (fun _ hr => .inl (List.mem_cons_of_mem _ hr)) fun _ => .inl

end Heap

end ApplyLang
