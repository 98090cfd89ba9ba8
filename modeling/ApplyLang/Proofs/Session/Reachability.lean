import ApplyLang.Proofs.Session.Soundness

/-!
# What a release may not touch

A frame that somebody can still reach has to survive the release of a handle, with its bindings.
Handles that are left when a frame is released are roots: those of the tables, and during an
evaluation also those of the work that waits.

* `Heap.Reachable` — what can be reached from roots, through whatever memory holds: sealed frames
  and arrays included, although a release does not look into either.
* `Releasing` — the moments at which a frame is released, with the roots that are left.
* `Releasing.keeps_reachable` — at each of them, whatever can be reached stays as it is.
-/

namespace ApplyLang

namespace Heap

/-- What can be reached from frames and from values. -/
inductive Reachable (h : Heap) (frames : List Ref) (values : List Value) : Ref → Prop
  | frame {r : Ref} (hr : r ∈ frames) : Reachable h frames values r
  | value {v : Value} {r : Ref} (hv : v ∈ values) (hr : r ∈ v.closures) : Reachable h frames values r
  | parent {r p : Ref} {f : Frame} (hr : Reachable h frames values r)
      (hf : h.object? r = some (.frame f)) (hp : f.parent = some p) : Reachable h frames values p
  | bound {r x : Ref} {f : Frame} {b : String × Value} (hr : Reachable h frames values r)
      (hf : h.object? r = some (.frame f)) (hb : b ∈ f.bindings) (hx : x ∈ b.2.closures) :
      Reachable h frames values x
  | captured {r : Ref} {c : Closure} (hr : Reachable h frames values r)
      (hc : h.object? r = some (.closure c)) : Reachable h frames values c.scope

variable {h : Heap} {frames frames' : List Ref} {values values' : List Value}

theorem Reachable.mono {x : Ref} (hx : h.Reachable frames values x)
    (hf : ∀ r ∈ frames, r ∈ frames') (hv : ∀ v ∈ values, v ∈ values') :
    h.Reachable frames' values' x := by
  induction hx with
  | frame hr => exact .frame (hf _ hr)
  | value hm hr => exact .value (hv _ hm) hr
  | parent _ ho hp ih => exact .parent ih ho hp
  | bound _ ho hb hx ih => exact .bound ih ho hb hx
  | captured _ ho ih => exact .captured ih ho

/-- What roots reach is a frame or a function. -/
theorem Serves.object_of_reachable (hs : h.Serves frames values) {x : Ref}
    (hx : h.Reachable frames values x) :
    (∃ f, h.object? x = some (.frame f)) ∨ ∃ c, h.object? x = some (.closure c) := by
  have hvalid := hs.balanced.valid
  induction hx with
  | frame hr => exact .inl (hs.frame _ hr)
  | value hm hr => exact .inr ((hs.value _ hm).closure hvalid _ hr)
  | parent _ ho hp _ => exact .inl ((hvalid _ _ ho).1 _ hp).2
  | bound _ ho hb hx _ => exact .inr (((hvalid _ _ ho).2 _ hb).closure hvalid _ hx)
  | captured _ ho _ => exact .inl (hvalid _ _ ho)

/-- What roots reach is there. -/
theorem Serves.alive_of_reachable (hs : h.Serves frames values) {x : Ref}
    (hx : h.Reachable frames values x) : h.alive x = true := by
  rcases hs.object_of_reachable hx with ⟨f, hf⟩ | ⟨c, hc⟩
  · exact alive_of_object? hf
  · exact alive_of_object? hc

/-- A path from the roots is still there after memory has shrunk, as long as the roots are served. -/
theorem Reachable.shrink {k : Heap} {x : Ref} (hx : h.Reachable frames values x)
    (hs : k.Serves frames values) (hk : h.Shrinks k) : k.Reachable frames values x := by
  induction hx with
  | frame hr => exact .frame hr
  | value hm hr => exact .value hm hr
  | parent _ ho hp ih => exact .parent ih ((hk.eq_of_alive (hs.alive_of_reachable ih)).trans ho) hp
  | bound _ ho hb hx ih =>
    exact .bound ih ((hk.eq_of_alive (hs.alive_of_reachable ih)).trans ho) hb hx
  | captured _ ho ih => exact .captured ih ((hk.eq_of_alive (hs.alive_of_reachable ih)).trans ho)

theorem Serves.keeps_reached {r : Ref} (hs : h.Serves (r :: frames) values) {x : Ref}
    (hx : h.Reachable frames values x) :
    (h.release r).alive x = true ∧ (h.release r).object? x = h.object? x := by
  have hk : h.Shrinks (h.release r) := Balanced.release_shrinks hs.balanced
  have halive := hs.release.alive_of_reachable (hx.shrink hs.release hk)
  exact ⟨halive, hk.eq_of_alive halive⟩

end Heap

/-! ## Moments of release -/

namespace Session

/-- The evaluations that a session may start: of a text in one of its scopes, of a call of what it
    writes down, and of a program. -/
inductive Starts (s : Session) : Machine → Prop
  | evaluate {name source : String} {r : Ref} {node : Node} (hr : s.scopes.get name = .ok r)
      (hn : parse source = .ok node) : Starts s (.ofNode s.heap s.out node r)
  | apply {function : Written} {arguments : List Written} {h h' : Heap} {f : Value}
      {made : List Value} (hf : make s.values s.heap function = .ok (h, f))
      (ha : makeAll s.values h arguments = .ok (h', made)) (call : Call) :
      Starts s (.ofCall h' s.out call f made)
  | run {source : String} {m : Machine} (hm : Program.start s.heap s.out source = .ok m) : Starts s m

/-- The states of the evaluations that a session may start. -/
inductive Evaluating (s : Session) : Machine → Prop
  | start {m : Machine} (hm : s.Starts m) : Evaluating s m
  | step {m : Machine} (hm : Evaluating s m) : Evaluating s m.step

variable {s : Session} {m : Machine}

theorem Sound.starts (hs : s.Sound) (hm : s.Starts m) : m.Sound s.frames s.kept := by
  cases hm with
  | evaluate hr hn =>
    exact Machine.ofNode_sound hs.serves (mem_frames_of_get hr) _ _
  | apply hf ha call =>
    have hmade := makeAll_makes (hs.make hf).serves (fun _ => List.mem_cons_of_mem _) ha
    exact Machine.ofCall_sound (hmade.serves.perm (.refl _) List.perm_middle.symm) _ call
  | run hm =>
    unfold Program.start at hm
    split at hm
    · cases hm
    · cases hm
      exact Machine.ofProgram_sound hs.serves List.mem_cons_self _ _

theorem Sound.evaluating (hs : s.Sound) (hm : s.Evaluating m) : m.Sound s.frames s.kept := by
  induction hm with
  | start hm => exact hs.starts hm
  | step _ ih => exact ih.step

end Session

/-- The handle `r` is about to be released in memory `h`, by a step of a session or by the end of a
    call or of a run. Roots are left in the tables, in the value or the call that ends, and in the
    work that waits. -/
inductive Releasing : Heap → Ref → List Ref → List Value → Prop
  | step {s : Session} {name : String} {r : Ref} (hs : s.Reached) (hr : s.scopes.get name = .ok r) :
      Releasing s.heap r (Heap.global :: (s.scopes.erase name).map Prod.snd)
        (s.values.map Prod.snd)
  | value {s : Session} {h : Heap} {out : Sink} {v : Value} {r : Ref} {kept : List Value}
      {rest : List Pending} (hs : s.Reached)
      (hm : s.Evaluating ⟨h, out, .value v, .leave r kept :: rest⟩) :
      Releasing h r
        (rest.flatMap Pending.scopes ++ rest.flatMap Pending.frames ++
          Heap.global :: s.scopes.map Prod.snd)
        (v :: kept ++ rest.flatMap Pending.kept ++ s.values.map Prod.snd)
  | fault {s : Session} {h : Heap} {out : Sink} {f : Fault} {r : Ref} {kept : List Value}
      {rest : List Pending} (hs : s.Reached)
      (hm : s.Evaluating ⟨h, out, .fault f, .leave r kept :: rest⟩) :
      Releasing h r
        (rest.flatMap Pending.scopes ++ rest.flatMap Pending.frames ++
          Heap.global :: s.scopes.map Prod.snd)
        (kept ++ rest.flatMap Pending.kept ++ s.values.map Prod.snd)

namespace Machine

theorem Anchored.scope_mem {base : List Ref} {pending : List Pending} (ha : Anchored base pending)
    {r : Ref} (hr : r ∈ pending.flatMap Pending.scopes) :
    r ∈ pending.flatMap Pending.frames ++ base := by
  induction pending with
  | nil => cases hr
  | cons work rest ih =>
    rw [List.flatMap_cons, List.append_assoc]
    apply List.mem_append_right
    rcases List.mem_append.mp hr with hr | hr
    · exact ha.1 r hr
    · exact ih ha.2 hr

/-- Scopes that are only named are held by somebody, so they reach nothing else. -/
theorem Anchored.reachable {h : Heap} {base : List Ref} {values : List Value} {x : Ref}
    {pending : List Pending} (ha : Anchored base pending)
    (hx : h.Reachable (pending.flatMap Pending.scopes ++ pending.flatMap Pending.frames ++ base)
      values x) : h.Reachable (pending.flatMap Pending.frames ++ base) values x := by
  refine hx.mono (fun r hr => ?_) fun _ => id
  rw [List.append_assoc] at hr
  rcases List.mem_append.mp hr with hr | hr
  · exact ha.scope_mem hr
  · exact hr

end Machine

/-- Whatever can still be reached when a handle is released is alive afterwards, and is what it was:
    a frame has the very same bindings. -/
theorem Releasing.keeps_reachable {h : Heap} {r : Ref} {frames : List Ref} {values : List Value}
    (hm : Releasing h r frames values) {x : Ref} (hx : h.Reachable frames values x) :
    (h.release r).alive x = true ∧ (h.release r).object? x = h.object? x := by
  cases hm with
  | step hs hr => exact (hs.sound.serves_erase hr).keeps_reached hx
  | value hs hm =>
    obtain ⟨⟨hserves, ha⟩, -⟩ := hs.sound.evaluating hm
    apply Heap.Serves.keeps_reached _ (ha.2.reachable hx)
    simpa [Machine.frames, Machine.kept, Control.values, Pending.frames, Pending.kept,
      Session.frames, Session.kept] using hserves
  | fault hs hm =>
    obtain ⟨⟨hserves, ha⟩, -⟩ := hs.sound.evaluating hm
    apply Heap.Serves.keeps_reached _ (ha.2.reachable hx)
    simpa [Machine.frames, Machine.kept, Control.values, Pending.frames, Pending.kept,
      Session.frames, Session.kept] using hserves

/-- A frame whose handle is released, but which is around another one, keeps its binding. -/
theorem keeps_frame_around : ∃ s,
    Session.performAll 0 (.start .unlimited)
        [.global "g", .child "g" "c", .define "c" "x" (.text "kept"), .child "c" "d"] =
      .ok (s, [.done, .done, .done, .done]) ∧
    Releasing s.heap 1 [0, 2, 0] [] ∧ s.heap.Reachable [0, 2, 0] [] 1 ∧
    (s.heap.release 1).object? 1 = some (.frame ⟨[("x", .text "kept")], some 0, false⟩) := by
  have hp : Session.performAll 0 (.start .unlimited)
      [.global "g", .child "g" "c", .define "c" "x" (.text "kept"), .child "c" "d"] =
    .ok (_, _) := rfl
  have hget : Table.get [("d", 2), ("c", 1), ("g", 0)] "c" = .ok 1 := rfl
  have hm := Releasing.step ⟨_, Session.becomes_performAll hp⟩ hget
  refine ⟨_, hp, hm, ?hx, (Releasing.keeps_reachable hm ?hx).2⟩
  exact .parent (.frame (r := 2) (by decide)) (f := ⟨[], some 1, false⟩) rfl rfl

end ApplyLang
