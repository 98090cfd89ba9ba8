import ApplyLang.Proofs.Memory.Tracing
import ApplyLang.Proofs.Memory.Untouched
import ApplyLang.Proofs.Program.Process

/-!
# What a program leaves in memory

When a program has ended, the last step gives up its frame, and with it go all frames that this frame
reaches and nobody else does. A frame of the program that its own frame does not reach stays for
good, and keeps the frames around it: that happens when a function that is bound where it was made
outlives the release of its frame as a result, and is dropped only then.

* `Heap.Closing` — memory when a program gives up its frame.
* `Closing.release_iff` — no frame of the program is left if and only if all of them were reached
  from the program's own frame.
* `Program.After.leaves_no_frame_iff` — the same of a whole program that puts no function into an
  array and does not return one.
* `Program.leaves_frames` — a program that leaves its frame behind.
-/

namespace ApplyLang

/-- No array storage from a reference on has a function in it. -/
def Heap.PlainArrays (h : Heap) (start : Ref) : Prop :=
  ∀ r items, start ≤ r → h.object? r = some (.array items) → Value.closuresIn items = []

/-- An array storage that has no function in it, or another object. -/
def Object.plain : Object → Bool
  | .array items => (Value.closuresIn items).isEmpty
  | _ => true

instance (h : Heap) (start : Ref) : Decidable (h.PlainArrays start) :=
  decidable_of_iff (∀ r < h.cells.size, start ≤ r → (h.object? r).all Object.plain = true) <| by
    constructor
    · intro hall r items hr ho
      have hplain := hall r (Heap.lt_size_of_object? ho) hr
      rw [ho] at hplain
      exact List.isEmpty_iff.mp hplain
    · intro hplain r _ hr
      cases ho : h.object? r with
      | none => rfl
      | some o =>
        cases o with
        | array items => exact List.isEmpty_iff.mpr (hplain r items hr ho)
        | frame | closure => rfl

theorem Value.closures_of_closuresIn {items : List Value} (hi : closuresIn items = []) {v : Value}
    (hv : v ∈ items) : v.closures = [] := by
  induction items with
  | nil => cases hv
  | cons item rest ih =>
    obtain ⟨hitem, hrest⟩ := List.append_eq_nil_iff.mp hi
    rcases List.mem_cons.mp hv with rfl | hv
    · exact hitem
    · exact ih hrest hv

namespace Heap

/-- The last handle to an object takes it along. -/
theorem not_alive_discard_last {h : Heap} {r : Ref} (hone : h.holders r = 1) :
    (h.discard [r]).alive r = false := by
  obtain ⟨o, ho⟩ := alive_iff.mp (alive_of_holders_pos (by omega : 0 < h.holders r))
  obtain ⟨n, hcell⟩ := object?_eq_some_iff.mp ho
  have hn : n = 1 := by rwa [holders, hcell] at hone
  subst hn
  have hrest := dropRounds_shrinks h.cells.size (h.dropHandles [r]).1 (h.dropHandles [r]).2
  have hgone : (h.dropHandles [r]).1.alive r = false := by
    show (h.dropHandle r).1.alive r = false
    rw [dropHandle_of_last hcell, alive, cell?_put h r r none (lt_size_of_object? ho), if_pos rfl]
    rfl
  by_contra hleft
  obtain ⟨p, hp⟩ := alive_iff.mp (by simpa using hleft)
  rw [alive_of_object? (hrest.object r p hp)] at hgone
  cases hgone

theorem frame?_of_size_le {h : Heap} {r : Ref} (hr : h.cells.size ≤ r) : h.frame? r = none := by
  rw [frame?, object?, cell?_of_size_le hr]
  rfl

/-- Memory at the moment when a program gives up its frame, the first that it has made. All that is
    inside is new, what was there in the beginning does not hold any of it, and neither do the values
    that others keep. -/
structure Closing (w : Realm) (h : Heap) (values : List Value) : Prop where
  fresh : ∀ r, w.inside r → w.start.cells.size ≤ r
  start : ∀ r o, w.start.object? r = some o → ∀ x ∈ o.handles, w.start.alive x = true
  within : h.Within w
  serves : h.Serves [w.start.cells.size, Heap.global] values
  arrays : h.PlainArrays w.start.cells.size
  values : ∀ v ∈ values, ∀ x ∈ v.handles, w.start.cells.size ≤ x →
    ∃ items, h.object? x = some (.array items)

namespace Closing

variable {w : Realm} {h : Heap} {values : List Value}

/-! ## What is reached -/

theorem global_frame (hc : Closing w h values) : h.object? Heap.global = some (.frame globalFrame) := by
  obtain ⟨f, hf⟩ := hc.serves.frame Heap.global (by simp)
  rw [hf, hc.within.global _ hf]

/-- From the global frame nothing else is reached. -/
theorem eq_of_reaches_global (hc : Closing w h values) {x : Ref} (hx : h.Reaches Heap.global x) :
    x = Heap.global := by
  induction hx with
  | refl => rfl
  | tail _ hl ih =>
    subst ih
    cases hl with
    | parent hf hs => cases hc.global_frame.symm.trans hf; cases hs
    | bound hf hs => cases hc.global_frame.symm.trans hf; cases hs
    | captured hf => cases hc.global_frame.symm.trans hf

/-- Links lead from what is new to what is new, and to the global frame. -/
theorem new_of_links (hc : Closing w h values) {y x : Ref} (hy : w.start.cells.size ≤ y)
    (hl : h.Links y x) : w.start.cells.size ≤ x ∨ x = Heap.global := by
  have hin := w.inside_of_new y hy
  cases hl with
  | parent hf _ hp =>
    have hframe : Frame.Within w y _ := hc.within.object y _ hin hf
    exact (hframe.parent x hp).imp_left (hc.fresh x)
  | bound hf _ hb hx =>
    have hframe : Frame.Within w y _ := hc.within.object y _ hin hf
    exact .inl (hc.fresh x (hframe.bound _ hb x (Value.mem_refs_of_mem_closures hx)))
  | captured hf =>
    have hclosure : Closure.Within w _ := hc.within.object y _ hin hf
    exact .inl (hc.fresh _ hclosure.scope)

theorem new_of_reaches (hc : Closing w h values) {x : Ref}
    (hx : h.Reaches w.start.cells.size x) : w.start.cells.size ≤ x ∨ x = Heap.global := by
  induction hx with
  | refl => exact .inl le_rfl
  | @tail y x _ hl ih =>
    rcases ih with hy | rfl
    · exact hc.new_of_links hy hl
    · exact .inr (hc.eq_of_reaches_global (.single hl))

/-! ## Who holds what is new -/

/-- A new frame or function is held by new frames and functions, and each of these holders is a
    link. -/
theorem holder (hc : Closing w h values) {x y : Ref} {o : Object} (hx : w.start.cells.size ≤ x)
    (hplain : ∀ items, h.object? x ≠ some (.array items)) (ho : h.object? y = some o)
    (hxo : x ∈ o.handles) : w.start.cells.size ≤ y ∧ h.Links y x := by
  have hvalid := hc.serves.balanced.valid y o ho
  have hstorage : ∀ v : Value, v.ValidIn h → x ∈ v.handles → v.closures = [x] := by
    intro v hv hxv
    cases v with
    | closure r =>
      rw [List.mem_singleton.mp hxv]
      rfl
    | array storage items =>
      rw [List.mem_singleton.mp hxv] at hplain
      exact absurd hv (hplain items)
    | bool | number | text | builtin => cases hxv
  have hy : w.start.cells.size ≤ y := by
    by_contra hold
    have hout : ¬ w.inside y := fun hin => hold (hc.fresh y hin)
    have halive := hc.start y o (hc.within.outside y o hout ho) x hxo
    exact absurd (lt_size_of_alive halive) (not_lt.mpr hx)
  refine ⟨hy, ?_⟩
  have hwithin := hc.within.object y o (w.inside_of_new y hy) ho
  cases o with
  | frame f =>
    have hs : f.isSealed = false := Frame.Within.unsealed hwithin hy
    rcases List.mem_append.mp hxo with hp | hb
    · exact .parent ho hs (Option.mem_toList.mp hp)
    · obtain ⟨b, hb, hxb⟩ := List.mem_flatMap.mp hb
      refine .bound ho hs hb ?_
      rw [hstorage b.2 (hvalid.2 b hb) hxb]
      exact List.mem_singleton_self x
  | closure c =>
    rw [List.mem_singleton.mp hxo]
    exact .captured ho
  | array items =>
    obtain ⟨v, hv, hxv⟩ := List.mem_flatMap.mp hxo
    have hnone := Value.closures_of_closuresIn (hc.arrays y items hy ho) hv
    rw [hstorage v (hvalid v hv) hxv] at hnone
    cases hnone

/-- A new function is held by a new frame that binds it. -/
theorem bound_of_closure (hc : Closing w h values) {x : Ref} {c : Closure}
    (hx : w.start.cells.size ≤ x) (hcl : h.object? x = some (.closure c)) :
    ∃ y f, w.start.cells.size ≤ y ∧ h.object? y = some (.frame f) ∧ h.Links y x := by
  have hplain : ∀ items, h.object? x ≠ some (.array items) := by simp [hcl]
  have houter : x ∉ [w.start.cells.size, Heap.global] ++ values.flatMap Value.handles := by
    intro hmem
    rcases List.mem_append.mp hmem with hframe | hvalue
    · obtain ⟨f, hf⟩ := hc.serves.frame x hframe
      cases hcl.symm.trans hf
    · obtain ⟨v, hv, hxv⟩ := List.mem_flatMap.mp hvalue
      obtain ⟨items, hitems⟩ := hc.values v hv x hxv hx
      exact hplain items hitems
  have hholders := hc.serves.balanced.holders_eq x
  have hpos := hc.serves.balanced.holders_pos x (alive_of_object? hcl)
  rw [List.count_eq_zero_of_not_mem houter] at hholders
  obtain ⟨y, o, ho, hxo⟩ := exists_of_linked_pos (h := h) (x := x) (by omega)
  obtain ⟨hy, hl⟩ := hc.holder hx hplain ho hxo
  cases hl with
  | parent hf hs hp => exact ⟨y, _, hy, hf, .parent hf hs hp⟩
  | bound hf hs hb hxb => exact ⟨y, _, hy, hf, .bound hf hs hb hxb⟩
  | captured hcy =>
    -- a function holds a frame
    obtain ⟨g, hg⟩ := hc.serves.balanced.valid y _ hcy
    cases hcl.symm.trans hg

/-! ## All frames are reached -/

section Reached

variable (hc : Closing w h values) (hall : ∀ r f, w.start.cells.size ≤ r →
  h.object? r = some (.frame f) → h.Reaches w.start.cells.size r)

include hc hall

/-- If all new frames are reached, nobody else holds what is new. -/
theorem not_heldBeside {x : Ref} (hx : w.start.cells.size ≤ x)
    (hreach : h.Reaches w.start.cells.size x) :
    ¬ h.HeldBeside w.start.cells.size [Heap.global] values x := by
  obtain ⟨f, hf⟩ := hc.serves.frame w.start.cells.size (by simp)
  have hplain := hreach.not_array hc.serves.balanced.valid hf
  intro hbeside
  cases hbeside with
  | frame hframe =>
    rw [List.mem_singleton.mp hframe] at hx
    exact absurd w.global_lt (not_lt.mpr hx)
  | value hv hxv =>
    obtain ⟨items, hitems⟩ := hc.values _ hv x hxv hx
    exact hplain items hitems
  | @object y o ho hxo hy =>
    obtain ⟨hnew, hl⟩ := hc.holder hx hplain ho hxo
    cases hl with
    | parent hg hs _ | bound hg hs _ _ =>
      rcases hy with hnot | hseal
      · exact hnot (hall y _ hnew hg)
      · rw [isSealed, frame?_eq_some_iff.mpr hg] at hseal
        exact absurd hseal (by simp [hs])
    | captured hcy =>
      rcases hy with hnot | hseal
      · obtain ⟨z, g, hz, hg, hl⟩ := hc.bound_of_closure hnew hcy
        exact hnot ((hall z g hz hg).tail hl)
      · rw [isSealed, frame?, hcy] at hseal
        cases hseal
  | @array y storage g name items hy hg hs hb hxi =>
    have hnew : w.start.cells.size ≤ y := by
      rcases hc.new_of_reaches hy with hnew | rfl
      · exact hnew
      · cases hc.global_frame.symm.trans hg
        cases hs
    have hframe : g.Within w y := hc.within.object y _ (w.inside_of_new y hnew) hg
    have hstored : (Value.array storage items).ValidIn h := hc.serves.valid_of_bound hg hb
    have hstorage : w.inside storage := hframe.bound _ hb storage (by simp [Value.refs])
    rw [hc.arrays storage items (hc.fresh _ hstorage) hstored] at hxi
    cases hxi

theorem not_rescued {x : Ref} (hx : w.start.cells.size ≤ x) :
    ¬ h.Rescued w.start.cells.size [Heap.global] values x := by
  rintro ⟨y, hy, hbeside, hyx⟩
  rcases hc.new_of_reaches hy with hnew | rfl
  · exact hc.not_heldBeside hall hnew hy hbeside
  · rw [hc.eq_of_reaches_global hyx] at hx
    exact absurd w.global_lt (not_lt.mpr hx)

end Reached

/-- A frame that nobody else holds has no frames inside it. -/
theorem eq_of_last (hc : Closing w h values) (hone : h.holders w.start.cells.size = 1) {r : Ref}
    {f : Frame} (hr : w.start.cells.size ≤ r) (hf : h.object? r = some (.frame f)) :
    r = w.start.cells.size := by
  induction r using Nat.strong_induction_on generalizing f with
  | _ r ih =>
    by_contra hne
    have hlt : w.start.cells.size < r := lt_of_le_of_ne hr (Ne.symm hne)
    have hframe : f.Within w r := hc.within.object r _ (w.inside_of_new r hr) hf
    obtain ⟨p, hp, hin⟩ := hframe.around hlt
    obtain ⟨hpr, g, hg⟩ := (hc.serves.balanced.valid r _ hf).1 p hp
    have hfirst := ih p hpr (hc.fresh p hin) hg
    -- the frame around is the first one, which has this handle besides that of its owner
    have hmem : w.start.cells.size ∈ (Object.frame f).handles :=
      List.mem_append_left _ (by rw [hp, hfirst]; exact List.mem_singleton_self _)
    have hlinked := count_le_linked hf (x := w.start.cells.size)
    have hpos := List.count_pos_iff.mpr hmem
    have hholders := hc.serves.balanced.holders_eq w.start.cells.size
    rw [hone, List.cons_append, List.count_cons_self] at hholders
    omega

/-- If all new frames are reached from the first one, they go with it. -/
theorem frame?_release (hc : Closing w h values) (hall : ∀ r f, w.start.cells.size ≤ r →
    h.object? r = some (.frame f) → h.Reaches w.start.cells.size r) {r : Ref}
    (hr : w.start.cells.size ≤ r) : (h.release w.start.cells.size).frame? r = none := by
  by_contra hleft
  obtain ⟨f, hf⟩ := Option.ne_none_iff_exists'.mp hleft
  have hafter := frame?_eq_some_iff.mp hf
  have hbefore := (hc.serves.release_shrinks List.mem_cons_self).object r _ hafter
  have hdead : (h.release w.start.cells.size).alive r = false := by
    by_cases hone : h.holders w.start.cells.size = 1
    · rw [hc.eq_of_last hone hr hbefore, release_of_last hone]
      exact not_alive_discard_last hone
    · exact hc.serves.not_alive_of_not_rescued hone (hc.not_rescued hall le_rfl)
        (hall r f hr hbefore) (hc.not_rescued hall hr)
  rw [alive_of_object? hafter] at hdead
  cases hdead

/-! ## Some frame is not reached -/

/-- What the first frame reaches, what has been there before and array storages do not hold anything
    else. -/
theorem closed (hc : Closing w h values) :
    h.Closed fun x => h.Reaches w.start.cells.size x ∨ x < w.start.cells.size ∨
      ∃ items, h.object? x = some (.array items) := by
  intro r o hr ho x hxo
  by_contra hx
  push Not at hx
  obtain ⟨hnot, hnew, hplain⟩ := hx
  obtain ⟨hrnew, hl⟩ := hc.holder hnew hplain ho hxo
  rcases hr with hreach | hold | ⟨items, hitems⟩
  · exact hnot (hreach.tail hl)
  · exact absurd hold (not_lt.mpr hrnew)
  · cases hl with
    | parent hf | bound hf | captured hf => cases hitems.symm.trans hf

/-- A frame that is not reached stays. -/
theorem frame?_release_of_not_reaches (hc : Closing w h values) {r : Ref} {f : Frame}
    (hr : w.start.cells.size ≤ r) (hf : h.object? r = some (.frame f))
    (hnot : ¬ h.Reaches w.start.cells.size r) :
    (h.release w.start.cells.size).frame? r = some f := by
  have houtside : ¬ (h.Reaches w.start.cells.size r ∨ r < w.start.cells.size ∨
      ∃ items, h.object? r = some (.array items)) := by
    rintro (hreach | hold | ⟨items, hitems⟩)
    · exact hnot hreach
    · exact absurd hold (not_lt.mpr hr)
    · cases hf.symm.trans hitems
  have hlost : ∀ x ∈ h.lost w.start.cells.size, h.Reaches w.start.cells.size x := by
    intro x hx
    have hnot := hc.serves.not_rescued_of_mem_lost hx
    exact ((hc.serves.mem_lost_iff_not_rescued hnot).mp hx).1
  have hcell := hc.closed.cell?_release (.inl .refl) (fun x hx => .inl (hlost x hx)) houtside
  rw [frame?_eq_some_iff, object?, hcell]
  exact hf

/-- No frame of a program is left when its own frame has been given up, if and only if all of them
    were reached from there. -/
theorem release_iff (hc : Closing w h values) :
    (∀ r, w.start.cells.size ≤ r → (h.release w.start.cells.size).frame? r = none) ↔
      ∀ r f, w.start.cells.size ≤ r → h.object? r = some (.frame f) →
        h.Reaches w.start.cells.size r := by
  constructor
  · intro hnone r f hr hf
    by_contra hnot
    have hleft := hc.frame?_release_of_not_reaches hr hf hnot
    rw [hnone r hr] at hleft
    cases hleft
  · intro hall r hr
    exact hc.frame?_release hall hr

end Closing

end Heap

/-! ## Machines -/

namespace Machine

variable {m : Machine} {r : Ref}

/-- The end of a program gives up its frame and does nothing else. -/
theorem Leaving.step_eq (hm : m.Leaving (.leave r [])) :
    m.step = ⟨m.heap.release r, m.out, m.control, []⟩ := by
  have hnothing : (m.heap.release r).discardValues [] = m.heap.release r := Heap.dropRounds_nil _ _
  obtain ⟨hpending, hdone⟩ := hm
  obtain ⟨heap, out, control, pending⟩ := m
  cases hpending
  cases control with
  | eval node scope => exact absurd rfl (hdone node scope)
  | value v => exact congrArg (Machine.mk · out (.value v) []) hnothing
  | fault f => exact congrArg (Machine.mk · out (.fault f) []) hnothing

theorem Leaving.finishes (hm : m.Leaving (.leave r [])) {ended : Ended} (hf : m.Finishes ended) :
    ended.heap = m.heap.release r ∧ ∀ v, m.control = .value v → ended.result = .ok v := by
  have hstep := hm.step_eq
  cases hf with
  | here hresult =>
    unfold result? at hresult
    rw [hm.pending] at hresult
    cases hc : m.control <;> rw [hc] at hresult <;> cases hresult
  | step _ hs =>
    rw [hstep] at hs
    cases hc : m.control with
    | eval node scope => exact absurd hc (hm.done node scope)
    | value v =>
      rw [hc] at hs
      have hend := hs.unique (.here rfl)
      rw [hend]
      exact ⟨rfl, fun w hw => congrArg Except.ok (Control.value.inj hw)⟩
    | fault f =>
      rw [hc] at hs
      have hend := hs.unique (.here rfl)
      rw [hend]
      exact ⟨rfl, fun w hw => by cases hw⟩

end Machine

/-! ## Programs -/

theorem Heap.Balanced.alive_of_handle {h : Heap} {outer : List Ref} (hb : h.Balanced outer) {r x : Ref}
    {o : Object} (ho : h.object? r = some o) (hx : x ∈ o.handles) : h.alive x = true := by
  have hlinked := Heap.count_le_linked (x := x) ho
  have hpos := List.count_pos_iff.mpr hx
  have hholders := hb.holders_eq x
  exact Heap.alive_of_holders_pos (by omega)

/-- Memory when a program is about to end, without a function as its result. -/
theorem Heap.Settled.closing {h : Heap} {kept : List Value} (hs : h.Settled kept) {node : Node}
    {m : Machine} (hw : m.Within (Realm.ofProgram hs.global node))
    (hsound : m.Sound [Heap.global] kept) (hm : m.Leaving (.leave h.cells.size []))
    (harrays : m.heap.PlainArrays h.cells.size)
    (hresult : ∀ r, m.control ≠ .value (.closure r)) :
    m.heap.Closing (Realm.ofProgram hs.global node) (m.control.values ++ kept) := by
  have hserves : m.heap.Serves [h.cells.size, Heap.global] (m.control.values ++ kept) := by
    have hs' := hsound.holds.serves
    rw [Machine.frames, Machine.kept, hm.pending] at hs'
    exact hs'
  refine ⟨fun _ hr => hr, fun r o ho x hx => hs.serves.balanced.alive_of_handle ho hx, hw.heap,
    hserves, harrays, fun v hv x hx hnew => ?_⟩
  rcases List.mem_append.mp hv with hv | hv
  · -- of all results only an array holds anything
    have hcontrol : m.control = .value v := by
      cases hc : m.control with
      | value u =>
        rw [hc] at hv
        rw [List.mem_singleton.mp hv]
      | eval | fault =>
        rw [hc] at hv
        cases hv
    have hvalid : v.ValidIn m.heap := hserves.value v (by simp [hv])
    cases v with
    | closure s => exact absurd hcontrol (hresult s)
    | array storage items =>
      rw [List.mem_singleton.mp hx]
      exact ⟨items, hvalid⟩
    | bool | number | text | builtin => cases hx
  · -- what was kept before is older than the program
    have halive := (hs.serves.value v hv).alive hx
    exact absurd (lt_size_of_alive halive) (not_lt.mpr hnew)

namespace Program

/-- A program comes through a state on its way. -/
def Passes (h : Heap) (out : Sink) (source : String) (m : Machine) : Prop :=
  ∃ node fuel, parse source = .ok node ∧ m = (Machine.ofProgram h out node).run fuel

variable {h : Heap} {kept : List Value} {out : Sink} {source : String} {ended : Ended} {m : Machine}

/-- A program that ends has been about to give up its frame. -/
theorem Ends.leaving {node : Node} (he : Ends h out source ended) (hp : parse source = .ok node) :
    ∃ m, Passes h out source m ∧ m.Leaving (.leave h.cells.size []) := by
  rcases ends_iff.mp he with ⟨e, hp', -⟩ | ⟨node', hp', hf⟩
  · cases hp.symm.trans hp'
  · have hlast : (Machine.ofProgram h out node').pending = [.leave h.cells.size []] := by
      show [Pending.leave (h.retain Heap.global).cells.size []] = _
      rw [Heap.size_retain]
    obtain ⟨fuel, hm⟩ := hf.leaving ⟨[], hlast.symm⟩
    exact ⟨_, ⟨node', fuel, hp', rfl⟩, hm⟩

/-- What is left of a program that gives up its frame. -/
theorem After.release_iff (ha : After h kept) (he : Ends h out source ended)
    (hresult : ∀ r, ended.result ≠ .ok (.closure r)) (hpass : Passes h out source m)
    (hm : m.Leaving (.leave h.cells.size [])) (harrays : m.heap.PlainArrays h.cells.size) :
    (∀ r, h.cells.size ≤ r → ended.heap.frame? r = none) ↔
      ∀ r f, h.cells.size ≤ r → m.heap.object? r = some (.frame f) →
        m.heap.Reaches h.cells.size r := by
  have hs := ha.settled
  obtain ⟨node, fuel, hp, rfl⟩ := hpass
  rcases ends_iff.mp he with ⟨e, hp', -⟩ | ⟨node', hp', hf⟩
  · cases hp.symm.trans hp'
  · cases hp.symm.trans hp'
    obtain ⟨hheap, hvalue⟩ := hm.finishes (hf.run fuel)
    have hsound := hs.sound out node
    have hclosing := hs.closing ((Machine.ofProgram_within hs.global out node).run fuel hsound)
      (hsound.run fuel) hm harrays fun r hr => hresult r (hvalue _ hr)
    rw [hheap]
    exact hclosing.release_iff

/-- A program that ends, never puts a function into an array and does not return one leaves none of
    its frames behind if and only if all frames that it has made and that are still there are reached
    from its own frame when this is given up. -/
theorem After.leaves_no_frame_iff (ha : After h kept) (he : Ends h out source ended)
    (harrays : ∀ m, Passes h out source m → m.heap.PlainArrays h.cells.size)
    (hresult : ∀ r, ended.result ≠ .ok (.closure r)) :
    (∀ r, h.cells.size ≤ r → ended.heap.frame? r = none) ↔
      ∀ m, Passes h out source m → m.Leaving (.leave h.cells.size []) →
        ∀ r f, h.cells.size ≤ r → m.heap.object? r = some (.frame f) →
          m.heap.Reaches h.cells.size r := by
  constructor
  · intro hnone m hpass hm
    exact (ha.release_iff he hresult hpass hm (harrays m hpass)).mp hnone
  · intro hall
    cases hp : parse source with
    | ok node =>
      obtain ⟨m, hpass, hm⟩ := he.leaving hp
      exact (ha.release_iff he hresult hpass hm (harrays m hpass)).mpr (hall m hpass hm)
    | error e =>
      -- a text that is no program makes no frames
      intro r hr
      rcases ends_iff.mp he with ⟨e', -, rfl⟩ | ⟨node, hp', -⟩
      · exact Heap.frame?_of_size_le hr
      · cases hp.symm.trans hp'

/-- Checks that a program ends within a number of steps and has no function in an array of its own
    after any of them. -/
def plainArrays (fuel : ℕ) (h : Heap) (out : Sink) (source : String) : Bool :=
  match parse source with
  | .ok node =>
    ((Machine.ofProgram h out node).run fuel).result?.isSome &&
      decide (∀ k ≤ fuel, ((Machine.ofProgram h out node).run k).heap.PlainArrays h.cells.size)
  | .error _ => true

theorem Passes.plainArrays {fuel : ℕ} (hcheck : Program.plainArrays fuel h out source = true)
    (hm : Passes h out source m) : m.heap.PlainArrays h.cells.size := by
  obtain ⟨node, k, hp, rfl⟩ := hm
  simp only [Program.plainArrays, hp, Bool.and_eq_true, decide_eq_true_eq] at hcheck
  obtain ⟨hend, hall⟩ := hcheck
  obtain ⟨result, hresult⟩ := Option.isSome_iff_exists.mp hend
  rcases Nat.le_total k fuel with hk | hk
  · exact hall k hk
  · rw [Machine.run_of_le hresult hk]
    exact hall fuel le_rfl

/-- A function that is bound under its own name and called: its frame goes with that of the program,
    which reaches it. -/
theorem leaves_no_frame_recursive :
    let source := "do(define(f, func(f)), f(), true)"
    After Heap.initial [] ∧ ∃ ended, Ends Heap.initial .unlimited source ended ∧
      (∀ m, Passes Heap.initial .unlimited source m → m.heap.PlainArrays 1) ∧
      ended.result = .ok (.bool true) ∧
      (∀ r, 1 ≤ r → ended.heap.frame? r = none) ∧
      ∀ m, Passes Heap.initial .unlimited source m → m.Leaving (.leave 1 []) →
        ∀ r f, 1 ≤ r → m.heap.object? r = some (.frame f) → m.heap.Reaches 1 r := by
  obtain ⟨ended, hrun, hresult, hsize, hnone⟩ : ∃ ended,
      run? 14 Heap.initial .unlimited "do(define(f, func(f)), f(), true)" = some ended ∧
      ended.result = .ok (.bool true) ∧ ended.heap.cells.size = 4 ∧
      ∀ r < 4, 1 ≤ r → ended.heap.frame? r = none :=
    ⟨_, rfl, rfl, by decide +kernel, by decide +kernel⟩
  have hcheck : plainArrays 14 Heap.initial .unlimited "do(define(f, func(f)), f(), true)" = true := by
    decide +kernel
  have hleft : ∀ r, 1 ≤ r → ended.heap.frame? r = none := by
    intro r hr
    rcases Nat.lt_or_ge r 4 with hlt | hge
    · exact hnone r hlt hr
    · exact Heap.frame?_of_size_le (hsize.trans_le hge)
  have hplain : ∀ r, ended.result ≠ .ok (.closure r) := by simp [hresult]
  have hiff := After.leaves_no_frame_iff .fresh ⟨14, hrun⟩ (fun _ hm => hm.plainArrays hcheck) hplain
  exact ⟨.fresh, ended, ⟨14, hrun⟩, fun _ hm => hm.plainArrays hcheck, hresult, hleft, hiff.mp hleft⟩

/-- A program that never has a function in an array and ends in a truth value, but leaves its frame
    and another one behind. The function `g` is bound where it was made, so the frame there stays when
    the call returns `g`. Once this result is dropped nobody reaches that frame, and it still has a
    handle to the frame of the program. -/
theorem leaves_frames :
    let source := "do(define(mk, func(do(define(g, func(g)), g))), mk(), true)"
    ∃ ended, Ends Heap.initial .unlimited source ended ∧
      (∀ m, Passes Heap.initial .unlimited source m → m.heap.PlainArrays 1) ∧
      ended.result = .ok (.bool true) ∧
      (ended.heap.frame? 1).isSome = true ∧ (ended.heap.frame? 3).isSome = true := by
  obtain ⟨ended, hrun, hresult, hfirst, hsecond⟩ : ∃ ended,
      run? 20 Heap.initial .unlimited
        "do(define(mk, func(do(define(g, func(g)), g))), mk(), true)" = some ended ∧
      ended.result = .ok (.bool true) ∧ (ended.heap.frame? 1).isSome = true ∧
      (ended.heap.frame? 3).isSome = true :=
    ⟨_, rfl, rfl, by decide +kernel, by decide +kernel⟩
  have hcheck : plainArrays 20 Heap.initial .unlimited
      "do(define(mk, func(do(define(g, func(g)), g))), mk(), true)" = true := by
    decide +kernel
  exact ⟨ended, ⟨20, hrun⟩, fun _ hm => hm.plainArrays hcheck, hresult, hfirst, hsecond⟩

end Program

end ApplyLang
