import ApplyLang.Proofs.Evaluation.Growth
import ApplyLang.Proofs.Evaluation.Locality
import ApplyLang.Proofs.Session.Reachability

/-!
# What an evaluation touches

An evaluation in a frame gets at what can be reached from the frame, and a call gets at what can be
reached from the function and the arguments. Everything else comes out as it went in. Of what an
evaluation gets at, only the frame that it stands in may gain names.

* `Moment` — the moments of a session, with all that is held.
* `Territory.reach` — what can be reached from roots, together with the storages of arrays.
* `Moment.defines_in_scope` — the names of the frames that were there before an evaluation.
* `Moment.keeps_to_reach` — what an evaluation or a call leaves alone, and what it hands over.
-/

namespace ApplyLang

/-- At some moment of a session memory is `h`, and `frames` and `values` are all that is held: between
    two steps, in the middle of an evaluation, or when a step has made the values that it writes
    down. -/
inductive Moment : Heap → List Ref → List Value → Prop
  | between {s : Session} (hs : s.Reached) : Moment s.heap s.frames s.kept
  | during {s : Session} {m : Machine} (hs : s.Reached) (hm : s.Evaluating m) :
      Moment m.heap (m.frames ++ s.frames) (m.control.values ++ (m.kept ++ s.kept))
  | made {s : Session} {written : List Written} {h : Heap} {made : List Value} (hs : s.Reached)
      (hm : Session.makeAll s.values s.heap written = .ok (h, made)) :
      Moment h s.frames (made ++ s.kept)

theorem Moment.serves {h : Heap} {frames : List Ref} {values : List Value}
    (hm : Moment h frames values) : h.Serves frames values := by
  cases hm with
  | between hs => exact hs.sound.serves
  | during hs hm => exact (hs.sound.evaluating hm).holds.serves
  | made hs hm => exact (hs.sound.makeAll hm).serves

/-! ## What roots reach -/

theorem Value.mem_closuresIn {items : List Value} {v : Value} {r : Ref} (hv : v ∈ items)
    (hr : r ∈ v.closures) : r ∈ closuresIn items := by
  induction items with
  | nil => cases hv
  | cons item rest ih =>
    rw [closuresIn]
    rcases List.mem_cons.mp hv with rfl | hv
    · exact List.mem_append_left _ hr
    · exact List.mem_append_right _ (ih hv)

namespace Heap

variable {h : Heap} {frames roots : List Ref} {values arguments : List Value} {P : Ref → Prop}

/-- A member of a set, or the storage of an array whose functions are members. -/
def Around (h : Heap) (P : Ref → Prop) (x : Ref) : Prop :=
  P x ∨ ∃ items, h.object? x = some (.array items) ∧ ∀ y ∈ Value.closuresIn items, P y

theorem around_of_closures {v : Value} (hv : v.ValidIn h) (hP : ∀ y ∈ v.closures, P y) :
    ∀ x ∈ v.handles, h.Around P x := by
  intro x hx
  cases v with
  | closure r => exact .inl (hP x hx)
  | array storage items =>
    rw [List.mem_singleton.mp hx]
    exact .inr ⟨items, hv, hP⟩
  | bool | number | text | builtin => cases hx

/-- Roots in a closed set reach nothing outside of it. -/
theorem Closed.reachable (hc : h.Closed P) (hvalid : h.Valid) (hframes : ∀ r ∈ frames, P r)
    (hvalues : ∀ v ∈ values, v.ValidIn h ∧ ∀ r ∈ v.handles, P r) {x : Ref}
    (hx : h.Reachable frames values x) : P x := by
  induction hx with
  | frame hr => exact hframes _ hr
  | value hm hr => exact hc.closures hvalid (hvalues _ hm).1 (hvalues _ hm).2 _ hr
  | parent _ hf hp ih => exact hc.parent ih hf hp
  | bound _ hf hb hx ih =>
    exact hc.closures hvalid ((hvalid _ _ hf).2 _ hb) (hc.bound ih hf hb) _ hx
  | captured _ ho ih => exact hc _ _ ih ho _ (List.mem_singleton_self _)

end Heap

/-- What can be reached from roots. Names may be added to the frames among the roots. -/
def Territory.reach (h : Heap) (frames : List Ref) (values : List Value) : Territory where
  start := h
  inside x := h.cells.size ≤ x ∨ h.Around (h.Reachable frames values) x
  home x := h.cells.size ≤ x ∨ x ∈ frames
  inside_of_new _ hx := .inl hx
  home_of_new _ hx := .inl hx

namespace Heap.Serves

variable {h : Heap} {frames roots : List Ref} {values arguments : List Value}

/-- Whatever is in reach holds only what is in reach. -/
theorem reach_closed (hs : h.Serves frames values) (hroots : ∀ r ∈ roots, r ∈ frames)
    (harguments : ∀ v ∈ arguments, v ∈ values) :
    h.Closed (Territory.reach h roots arguments).inside := by
  have hvalid := hs.valid
  intro r o hr ho x hx
  right
  rcases hr with hnew | hreach | ⟨items, hitems, hall⟩
  · exact absurd (lt_size_of_object? ho) (not_lt.mpr hnew)
  · rcases hs.object_of_reachable (hreach.mono hroots harguments) with ⟨f, hf⟩ | ⟨c, hc⟩
    · cases ho.symm.trans hf
      rcases List.mem_append.mp hx with hp | hx
      · exact .inl (.parent hreach hf (Option.mem_toList.mp hp))
      · obtain ⟨b, hb, hx⟩ := List.mem_flatMap.mp hx
        have hclosures : ∀ y ∈ b.2.closures, h.Reachable roots arguments y := fun y hy =>
          .bound hreach hf hb hy
        exact around_of_closures ((hvalid r _ hf).2 b hb) hclosures x hx
    · cases ho.symm.trans hc
      rw [List.mem_singleton.mp hx]
      exact .inl (.captured hreach hc)
  · cases ho.symm.trans hitems
    obtain ⟨v, hv, hx⟩ := List.mem_flatMap.mp hx
    have hclosures : ∀ y ∈ v.closures, h.Reachable roots arguments y := fun y hy =>
      hall y (Value.mem_closuresIn hv hy)
    exact around_of_closures (hvalid r _ hitems v hv) hclosures x hx

theorem reach_local (hs : h.Serves frames values) (hroots : ∀ r ∈ roots, r ∈ frames)
    (harguments : ∀ v ∈ arguments, v ∈ values) : h.Local (.reach h roots arguments) :=
  Heap.Local.start (t := .reach h roots arguments) (hs.reach_closed hroots harguments)

theorem inside_reach (hs : h.Serves frames values) (harguments : ∀ v ∈ arguments, v ∈ values) :
    ∀ v ∈ arguments, v.Inside (.reach h roots arguments) := by
  intro v hv x hx
  have hclosures : ∀ y ∈ v.closures, h.Reachable roots arguments y := fun y hy => .value hv hy
  exact .inr (around_of_closures (hs.value v (harguments v hv)) hclosures x hx)

end Heap.Serves

/-! ## The end of an evaluation -/

/-- An evaluation has ended in memory that serves the result and what was held before, and has stayed
    in a territory. -/
structure Ended.Stays (t : Territory) (frames : List Ref) (values : List Value) (ended : Ended) :
    Prop where
  serves : ended.heap.Serves frames (resultValues ended.result ++ values)
  evolves : t.start.Evolves ended.heap
  memory : ended.heap.Local t
  result : ∀ v ∈ resultValues ended.result, v.Inside t

theorem Machine.Finishes.stays {m : Machine} {t : Territory} {base : List Ref}
    {others : List Value} {ended : Ended} (he : m.Finishes ended) (hs : m.Sound base others)
    (hl : m.Local t) (hk : t.start.Evolves m.heap) : ended.Stays t base others := by
  obtain ⟨hmemory, hresult⟩ := he.local_of_start hl hs
  obtain ⟨fuel, hfinish⟩ := Machine.finishes_iff.mp he
  exact ⟨hs.finish? hfinish, hk.trans (Machine.finish?_changes hfinish).evolves, hmemory, hresult⟩

/-- An evaluation that started in memory `h` has left alone all frames that could not be reached from
    the roots, and a frame that can be reached from its result could be reached or is new. -/
structure Ended.KeepsTo (h : Heap) (frames : List Ref) (values : List Value) (ended : Ended) :
    Prop where
  frame : ∀ r f, h.frame? r = some f → ¬ h.Reachable frames values r →
    ended.heap.frame? r = some f
  result : ∀ v, ended.result = .ok v → ∀ r f, ended.heap.Reachable [] [v] r →
    ended.heap.frame? r = some f → h.Reachable frames values r ∨ h.cells.size ≤ r

theorem Ended.Stays.keepsTo {h : Heap} {frames roots : List Ref} {values arguments : List Value}
    {ended : Ended} (hs : ended.Stays (.reach h roots arguments) frames values) :
    ended.KeepsTo h roots arguments := by
  constructor
  · intro r f hframe hnot
    have hf := Heap.frame?_eq_some_iff.mp hframe
    have houtside : ¬ (Territory.reach h roots arguments).inside r := by
      rintro (hnew | hreach | ⟨items, hitems, -⟩)
      · exact absurd (Heap.lt_size_of_object? hf) (not_lt.mpr hnew)
      · exact hnot hreach
      · cases hf.symm.trans hitems
    have hcell := hs.memory.outside r houtside
    rw [Heap.frame?_eq_some_iff, Heap.object?, hcell]
    exact hf
  · intro v hv r f hreach hframe
    have hvalues : ∀ w ∈ [v], w.ValidIn ended.heap ∧
        ∀ x ∈ w.handles, (Territory.reach h roots arguments).inside x := by
      rw [List.forall_mem_singleton]
      have hmem : v ∈ resultValues ended.result := by
        rw [hv]
        exact List.mem_cons_self
      exact ⟨hs.serves.value v (List.mem_append_left _ hmem), hs.result v hmem⟩
    have hin := hs.memory.closed.reachable hs.serves.valid (List.forall_mem_nil _)
      hvalues hreach
    rcases hin with hnew | hreach | ⟨items, hitems, -⟩
    · exact .inr hnew
    · exact .inl hreach
    · -- the storage of an array does not become a frame
      have hf := Heap.frame?_eq_some_iff.mp hframe
      obtain ⟨o, ho, hlike⟩ := hs.evolves.like_of_alive hitems (Heap.alive_of_object? hf)
      cases ho.symm.trans hf
      exact hlike.elim

namespace Moment

variable {h : Heap} {frames : List Ref} {values : List Value} {out : Sink} {ended : Ended}

theorem evaluation_stays (hm : Moment h frames values) {scope : Ref} (hscope : scope ∈ frames)
    {node : Node} (he : (Machine.ofNode h out node scope).Finishes ended) :
    ended.Stays (.reach h [scope] []) frames values := by
  have hs := hm.serves
  have hl := hs.reach_local (List.forall_mem_singleton.mpr hscope) (List.forall_mem_nil _)
  have hhosts : (Territory.reach h [scope] []).Hosts scope :=
    ⟨.inr (.inl (.frame (List.mem_singleton_self scope))), .inr (List.mem_singleton_self scope)⟩
  exact he.stays (Machine.ofNode_sound hs hscope out node) (Machine.ofNode_local hl out node hhosts)
    (.refl h)

theorem call_stays (hm : Moment h frames values) {function : Value} {arguments others : List Value}
    (hvalues : values.Perm (function :: arguments ++ others)) {call : Call}
    (he : (Machine.ofCall h out call function arguments).Finishes ended) :
    ended.Stays (.reach h [] (function :: arguments)) frames others := by
  have hs := hm.serves.perm (.refl _) hvalues.symm
  have hmem : ∀ v ∈ function :: arguments, v ∈ function :: arguments ++ others := fun _ hv =>
    List.mem_append_left _ hv
  have hl : h.Local (.reach h [] (function :: arguments)) :=
    hs.reach_local (List.forall_mem_nil _) hmem
  have hcall := Machine.ofCall_local hl out call (fun v hv => hs.value v (hmem v hv))
    (hs.inside_reach hmem)
  exact he.stays (Machine.ofCall_sound hs out call) hcall
    (Machine.ofCall_changes h out call function arguments).evolves

/-- An evaluation adds names to the frame that it stands in and to no other frame that was there, and
    no frame that is left loses a name. -/
theorem defines_in_scope (hm : Moment h frames values) {scope : Ref} (hscope : scope ∈ frames)
    {node : Node} (he : (Machine.ofNode h out node scope).Finishes ended) :
    (∀ r f, h.frame? r = some f → r ≠ scope → ended.heap.alive r = true →
      ∀ name, ended.heap.owns r name = h.owns r name) ∧
    ∀ name, h.owns scope name = true → ended.heap.owns scope name = true := by
  obtain ⟨hserves, -, hl, -⟩ := hm.evaluation_stays hscope he
  constructor
  · intro r f hf hne halive name
    have hlt := Heap.lt_size_of_object? (Heap.frame?_eq_some_iff.mp hf)
    have hhome : ¬ (Territory.reach h [scope] []).home r := by
      rintro (hnew | hmem)
      · exact absurd hlt (not_lt.mpr hnew)
      · exact hne (List.mem_singleton.mp hmem)
    exact Bool.eq_iff_iff.mpr ⟨hl.gained r hhome name, hl.kept r halive name⟩
  · exact hl.kept scope (hserves.alive_of_mem_frames hscope)

end Moment

/-- The frame 2 is inside the frame 1, which binds a name. -/
def Session.nested : Session where
  heap := ⟨#[some ⟨3, .frame ⟨Heap.globalBindings, none, true⟩⟩,
    some ⟨2, .frame ⟨[("x", .text "a")], some 0, false⟩⟩,
    some ⟨1, .frame ⟨[], some 1, false⟩⟩]⟩
  out := .unlimited
  scopes := [("d", 2), ("c", 1), ("g", 0)]
  weaks := []
  values := []

/-- The evaluation of `do(define(y, "b"), set(x, "c"))` in the inner frame. -/
def Machine.nested : Machine :=
  .ofNode Session.nested.heap .unlimited
    (.apply (.word "do" ⟨0, 2⟩)
      [.apply (.word "define" ⟨3, 9⟩) [.word "y" ⟨10, 11⟩, .text "b" ⟨13, 16⟩] ⟨3, 17⟩,
        .apply (.word "set" ⟨19, 22⟩) [.word "x" ⟨23, 24⟩, .text "c" ⟨26, 29⟩] ⟨19, 30⟩]
      ⟨0, 31⟩) 2

def Ended.nested : Ended where
  heap := ⟨#[some ⟨3, .frame ⟨Heap.globalBindings, none, true⟩⟩,
    some ⟨2, .frame ⟨[("x", .text "c")], some 0, false⟩⟩,
    some ⟨1, .frame ⟨[("y", .text "b")], some 1, false⟩⟩]⟩
  out := .unlimited
  result := .ok (.text "c")

theorem Session.performAll_nested : performAll 0 (.start .unlimited)
    [.global "g", .child "g" "c", .define "c" "x" (.text "a"), .child "c" "d"] =
      .ok (nested, [.done, .done, .done, .done]) :=
  rfl

theorem Machine.finish?_nested : nested.finish? 30 = some Ended.nested :=
  rfl

/-- A name is defined in the inner frame, and the binding of another one changes in the frame around
    it, which has the names that it had. -/
theorem defines_in_inner_frame :
    Moment Session.nested.heap [0, 2, 1, 0] [] ∧ Machine.nested.Finishes Ended.nested ∧
    (∀ name, Ended.nested.heap.owns 1 name = Session.nested.heap.owns 1 name) ∧
    ∀ name, Session.nested.heap.owns 2 name = true → Ended.nested.heap.owns 2 name = true := by
  have hm : Moment Session.nested.heap [0, 2, 1, 0] [] :=
    .between ⟨_, Session.becomes_performAll Session.performAll_nested⟩
  have hscope : 2 ∈ [0, 2, 1, 0] := by decide
  have he := Machine.finishes_iff.mpr ⟨30, Machine.finish?_nested⟩
  obtain ⟨hothers, hown⟩ := hm.defines_in_scope hscope he
  exact ⟨hm, he, hothers 1 _ rfl (by decide) rfl, hown⟩

namespace Moment

variable {h : Heap} {frames : List Ref} {values : List Value} {out : Sink} {ended : Ended}

/-- An evaluation in a frame that somebody holds, and a call of a function with arguments that
    somebody holds, keep to what can be reached from there. -/
theorem keeps_to_reach (hm : Moment h frames values) :
    (∀ scope ∈ frames, ∀ node, (Machine.ofNode h out node scope).Finishes ended →
      ended.KeepsTo h [scope] []) ∧
    ∀ call function arguments others, values.Perm (function :: arguments ++ others) →
      (Machine.ofCall h out call function arguments).Finishes ended →
        ended.KeepsTo h [] (function :: arguments) :=
  ⟨fun _ hscope _ he => (hm.evaluation_stays hscope he).keepsTo,
    fun _ _ _ _ hvalues he => (hm.call_stays hvalues he).keepsTo⟩

end Moment

/-- A function has been made in the frame 1, and the frame 2 is beside it. -/
def Session.beside : Session where
  heap := ⟨#[some ⟨4, .frame ⟨Heap.globalBindings, none, true⟩⟩,
    some ⟨2, .frame ⟨[], some 0, false⟩⟩,
    some ⟨1, .frame ⟨[("x", .text "b")], some 0, false⟩⟩,
    some ⟨1, .closure ⟨[("x", ⟨5, 6⟩)], .apply (.word "define" ⟨8, 14⟩)
      [.word "y" ⟨15, 16⟩, .word "x" ⟨18, 19⟩] ⟨8, 20⟩, 1⟩⟩]⟩
  out := .unlimited
  scopes := [("d", 2), ("c", 1), ("g", 0)]
  weaks := []
  values := [("f", .closure 3)]

/-- Memory with one more copy of the function, for the call. -/
def Heap.beside : Heap :=
  Session.beside.heap.retain 3

def Ended.beside : Ended where
  heap := ⟨Session.beside.heap.cells.push none⟩
  out := .unlimited
  result := .ok (.text "a")

theorem Session.performAll_beside : ∃ answers, performAll 100 (.start .unlimited)
    [.global "g", .child "g" "c", .child "g" "d", .define "d" "x" (.text "b"),
      .evaluate "c" "func(x, define(y, x))" (some "f")] = .ok (beside, answers) :=
  ⟨_, rfl⟩

theorem Session.makeAll_beside : makeAll beside.values beside.heap [.stored "f", .text "a"] =
    .ok (.beside, [.closure 3, .text "a"]) :=
  rfl

theorem Machine.finish?_beside :
    (ofCall .beside .unlimited ⟨"f", ⟨0, 0⟩⟩ (.closure 3) [.text "a"]).finish? 30 =
      some Ended.beside :=
  rfl

theorem Moment.beside : Moment .beside [0, 2, 1, 0] [.closure 3, .text "a", .closure 3] := by
  obtain ⟨_, hp⟩ := Session.performAll_beside
  exact .made ⟨_, Session.becomes_performAll hp⟩ Session.makeAll_beside

theorem Heap.not_reachable_beside : ¬ Heap.beside.Reachable [] [.closure 3, .text "a"] 2 := by
  intro hreach
  have hs := Moment.beside.serves
  have hclosed : Heap.beside.Closed (· ≠ 2) := by
    intro r o _ ho
    have hnone : ∀ r < 4, ∀ x ∈ Heap.beside.handlesAt r, x ≠ 2 := by decide
    rw [← handlesAt_of_object? ho]
    exact hnone r (lt_size_of_object? ho)
  refine hclosed.reachable hs.valid (List.forall_mem_nil _) (fun v hv => ?_) hreach rfl
  refine ⟨hs.value v (List.mem_append_left _ hv), ?_⟩
  revert v
  decide

/-- A call binds names in a frame of its own, which is gone in the end, and leaves the frame alone
    that cannot be reached from the function. -/
theorem call_keeps_frame_beside :
    Moment .beside [0, 2, 1, 0] [.closure 3, .text "a", .closure 3] ∧
    (Machine.ofCall .beside .unlimited ⟨"f", ⟨0, 0⟩⟩ (.closure 3) [.text "a"]).Finishes .beside ∧
    Ended.beside.KeepsTo .beside [] [.closure 3, .text "a"] ∧
    Ended.beside.heap.frame? 2 = some ⟨[("x", .text "b")], some 0, false⟩ := by
  have he := Machine.finishes_iff.mpr ⟨30, Machine.finish?_beside⟩
  have hkeeps := Moment.beside.keeps_to_reach.2 _ _ _ [.closure 3] (.refl _) he
  exact ⟨.beside, he, hkeeps, hkeeps.frame 2 _ rfl Heap.not_reachable_beside⟩

end ApplyLang
