import ApplyLang.Evaluation.Program
import ApplyLang.Proofs.Memory.Release

/-!
# What an evaluation holds

Memory serves the handles of a machine at every step: the frames of the calls under way, the value
under control, and the values that wait. A scope that is named but not held is anchored. It is the
frame of a call that ends later, or a frame that is held by whoever started the machine.

* `Machine.Sound` — the invariant.
* `Machine.Sound.step`, `Machine.Sound.run` — steps keep it.
-/

namespace ApplyLang

/-- The frames that a piece of work holds. -/
def Pending.frames : Pending → List Ref
  | leave frame _ => [frame]
  | _ => []

/-- The scopes that a piece of work goes on in. -/
def Pending.scopes : Pending → List Ref
  | operator _ _ _ scope => [scope]
  | argument _ _ _ _ scope => [scope]
  | choice _ _ scope => [scope]
  | test _ _ scope => [scope]
  | again _ _ scope => [scope]
  | next _ _ scope => [scope]
  | write _ _ scope => [scope]
  | leave _ _ => []

/-- The values under control. -/
def Control.values : Control → List Value
  | value v => [v]
  | _ => []

/-- The scopes under control. -/
def Control.scopes : Control → List Ref
  | eval _ scope => [scope]
  | _ => []

/-- The values in a result. -/
def resultValues : Except Fault Value → List Value
  | .ok v => [v]
  | .error _ => []

namespace Machine

/-- Frames of the calls under way. -/
def frames (m : Machine) : List Ref :=
  m.pending.flatMap Pending.frames

/-- The values that wait. -/
def kept (m : Machine) : List Value :=
  m.pending.flatMap Pending.kept

/-- Work goes on in scopes that are held further down. -/
def Anchored (base : List Ref) : List Pending → Prop
  | [] => True
  | work :: rest =>
    (∀ s ∈ work.scopes, s ∈ rest.flatMap Pending.frames ++ base) ∧ Anchored base rest

/-- Memory serves what waits and some values in hand, besides the frames and values of others. -/
structure Holds (base : List Ref) (others hand : List Value) (m : Machine) : Prop where
  serves : m.heap.Serves (m.frames ++ base) (hand ++ (m.kept ++ others))
  anchored : Anchored base m.pending

/-- Memory serves everything that a machine needs to go on. -/
structure Sound (base : List Ref) (others : List Value) (m : Machine) : Prop where
  holds : m.Holds base others m.control.values
  scopes : ∀ s ∈ m.control.scopes, s ∈ m.frames ++ base

variable {base : List Ref} {others hand : List Value} {m : Machine}

/-! ## What waits first -/

/-- A value and the values that the work waiting for it keeps are valid. -/
theorem Sound.valid_of_first {heap : Heap} {out : Sink} {v : Value} {work : Pending}
    {pending : List Pending}
    (hm : Machine.Sound base others ⟨heap, out, .value v, work :: pending⟩) :
    ∀ x ∈ v :: work.kept, x.ValidIn heap := by
  intro x hx
  apply hm.holds.serves.value x
  rcases List.mem_cons.mp hx with rfl | hx
  · exact List.mem_append_left _ List.mem_cons_self
  · simp only [kept, List.flatMap_cons, List.mem_append]
    exact .inr (.inl (.inl hx))

/-- The frame of the innermost call may be released. -/
theorem Sound.release_shrinks {heap : Heap} {out : Sink} {control : Control} {work : Pending}
    {pending : List Pending}
    (hm : Machine.Sound base others ⟨heap, out, control, work :: pending⟩) :
    ∀ r ∈ work.frames, heap.Shrinks (heap.release r) := by
  intro r hr
  apply hm.holds.serves.release_shrinks
  exact List.mem_append_left _ (List.mem_append_left _ hr)

/-! ## Going on -/

theorem Holds.perm {hand' : List Value} (hm : m.Holds base others hand) (hp : hand'.Perm hand) :
    m.Holds base others hand' :=
  ⟨hm.serves.perm (.refl _) (hp.append_right _), hm.anchored⟩

/-- Memory may change as long as it serves the same frames. -/
theorem Holds.change {hand' : List Value} {k : Heap} (hm : m.Holds base others hand)
    (hk : k.Serves (m.frames ++ base) (hand' ++ (m.kept ++ others))) :
    { m with heap := k }.Holds base others hand' :=
  ⟨hk, hm.anchored⟩

theorem Holds.forget {vs : List Value} (hm : m.Holds base others (vs ++ hand)) :
    (m.forget vs).Holds base others hand := by
  have hs := hm.serves
  rw [List.append_assoc] at hs
  exact hm.change hs.discardValues

theorem Holds.forgetAll {vs : List Value} (hm : m.Holds base others vs) :
    (m.forget vs).Holds base others [] := by
  rw [← List.append_nil vs] at hm
  exact hm.forget

theorem Holds.fail (hm : m.Holds base others []) (f : Fault) : (m.fail f).Sound base others :=
  ⟨⟨hm.serves, hm.anchored⟩, fun _ hs => absurd hs List.not_mem_nil⟩

theorem Holds.gotoValue {v : Value} (hm : m.Holds base others [v]) :
    (m.goto (.value v)).Sound base others :=
  ⟨⟨hm.serves, hm.anchored⟩, fun _ hs => absurd hs List.not_mem_nil⟩

theorem Holds.gotoEval (hm : m.Holds base others []) (node : Node) {scope : Ref}
    (hs : scope ∈ m.frames ++ base) : (m.goto (.eval node scope)).Sound base others := by
  refine ⟨⟨hm.serves, hm.anchored⟩, fun s hs' => ?_⟩
  rw [List.mem_singleton.mp hs']
  exact hs

theorem Holds.await (hm : m.Holds base others hand) (work : Pending) (hkept : work.kept = hand)
    (hframes : work.frames = []) (hscopes : ∀ s ∈ work.scopes, s ∈ m.frames ++ base)
    (node : Node) {scope : Ref} (hs : scope ∈ m.frames ++ base) :
    (m.await (.eval node scope) work).Sound base others := by
  have hf : (m.await (.eval node scope) work).frames = m.frames := by
    simp [Machine.await, Machine.frames, hframes]
  refine ⟨⟨?_, hscopes, hm.anchored⟩, fun s hs' => ?_⟩
  · rw [hf]
    have hk := hm.serves
    rw [← hkept, ← List.append_assoc] at hk
    exact hk
  · rw [List.mem_singleton.mp hs', hf]
    exact hs

/-! ## Nodes -/

theorem Holds.lookup (hm : m.Holds base others []) (target : Target) (scope : Ref) :
    (m.lookup target scope).Sound base others := by
  unfold Machine.lookup
  cases hv : m.heap.find? scope target.name with
  | none => exact hm.fail _
  | some v => exact (hm.change (hm.serves.copy (hm.serves.valid_of_find? hv))).gotoValue

theorem Holds.makeFunction (hm : m.Holds base others []) (arguments : List Node) (span : Span)
    {scope : Ref} (hs : scope ∈ m.frames ++ base) :
    (m.makeFunction arguments span scope).Sound base others := by
  unfold Machine.makeFunction
  cases arguments.getLast? with
  | none => exact hm.fail _
  | some body =>
    cases parametersOf arguments.dropLast with
    | error f => exact hm.fail f
    | ok parameters =>
      obtain ⟨f, hf⟩ := hm.serves.frame scope hs
      exact (hm.change (hm.serves.newClosure (c := ⟨parameters, body, scope⟩) hf)).gotoValue

theorem Holds.startWrite (hm : m.Holds base others []) (form : Form) (kind : Write)
    (arguments : List Node) (span : Span) {scope : Ref} (hs : scope ∈ m.frames ++ base) :
    (m.startWrite form kind arguments span scope).Sound base others := by
  unfold Machine.startWrite
  cases writeParts form arguments span with
  | error f => exact hm.fail f
  | ok parts =>
    refine hm.await (.write ..) rfl rfl (fun s hs' => ?_) _ hs
    rwa [List.mem_singleton.mp hs']

theorem Holds.startForm (hm : m.Holds base others []) (form : Form) (arguments : List Node)
    (span : Span) {scope : Ref} (hs : scope ∈ m.frames ++ base) :
    (m.startForm form arguments span scope).Sound base others := by
  have hscope : ∀ s ∈ [scope], s ∈ m.frames ++ base := by simpa using hs
  have hnothing : m.Holds base others [.nothing] := hm.change hm.serves.nothing
  unfold Machine.startForm
  cases form with
  | choose =>
    dsimp only
    split
    · exact hm.await (.choice ..) rfl rfl hscope _ hs
    · exact hm.fail _
  | loop =>
    dsimp only
    split
    · exact hm.await (.test ..) rfl rfl hscope _ hs
    · exact hm.fail _
  | sequence =>
    cases arguments with
    | nil => exact hnothing.gotoValue
    | cons first rest =>
      exact hnothing.await (.next ..) rfl rfl hscope _ hs
  | define => exact hm.startWrite _ _ _ _ hs
  | assign => exact hm.startWrite _ _ _ _ hs
  | function => exact hm.makeFunction _ _ hs

theorem Holds.startNode (hm : m.Holds base others []) (node : Node) {scope : Ref}
    (hs : scope ∈ m.frames ++ base) : (m.startNode node scope).Sound base others := by
  cases node with
  | number x _ => exact (hm.change (hm.serves.plain (v := .number x) rfl trivial)).gotoValue
  | text x _ => exact (hm.change (hm.serves.plain (v := .text x) rfl trivial)).gotoValue
  | word name span => exact hm.lookup _ _
  | apply operator arguments span =>
    unfold Machine.startNode
    dsimp only
    split
    · exact hm.startForm _ _ _ hs
    · refine hm.await (.operator ..) rfl rfl (fun s hs' => ?_) _ hs
      rwa [List.mem_singleton.mp hs']

/-! ## Calls -/

theorem bindParameters_serves {h : Heap} {frames : List Ref} {values : List Value}
    (hs : h.Serves frames values) {r : Ref} (hr : r ∈ frames) (parameters : List (String × Span))
    (arguments : List Value) (ha : ∀ v ∈ arguments, v ∈ values) :
    (bindParameters h r parameters arguments).Serves frames values := by
  induction parameters generalizing h arguments with
  | nil => exact hs
  | cons parameter parameters ih =>
    cases arguments with
    | nil => exact hs
    | cons v arguments =>
      obtain ⟨f, hf⟩ := hs.frame r hr
      have hv := hs.value v (ha v List.mem_cons_self)
      exact ih (hs.bind hf hv) arguments fun w hw => ha w (List.mem_cons_of_mem _ hw)

theorem Holds.enter {call : Call} {c : Closure} {function : Value} {arguments : List Value}
    {f : Frame} (hm : m.Holds base others (function :: arguments))
    (hc : m.heap.object? c.scope = some (.frame f)) :
    (m.enter call c function arguments).Sound base others := by
  unfold Machine.enter
  split_ifs
  · have hk := bindParameters_serves (hm.serves.child hc) List.mem_cons_self c.parameters arguments
      fun v hv => List.mem_append_left _ (List.mem_cons_of_mem _ hv)
    refine ⟨⟨?_, fun _ hs => absurd hs List.not_mem_nil, hm.anchored⟩, fun s hs => ?_⟩
    · rw [← List.append_assoc] at hk
      exact hk
    · rw [List.mem_singleton.mp hs]
      exact List.mem_cons_self
  · exact hm.forgetAll.fail _

end Machine

/-! ## Built-in functions -/

/-- A computation with a result has a first part with a result. -/
theorem exists_of_bind_eq_ok {ε α β : Type} {x : Except ε α} {f : α → Except ε β} {b : β}
    (h : x >>= f = .ok b) : ∃ a, x = .ok a ∧ f a = .ok b := by
  cases x with
  | error e => cases h
  | ok a => exact ⟨a, rfl, h⟩

namespace Builtin

variable {h : Heap} {frames : List Ref} {values : List Value}

/-- What stands at an index is a character of a text or an item of an array. -/
theorem itemAt_cases {call : Span} {sequence index v : Value}
    (hv : itemAt call sequence index = .ok v) :
    v.handles = [] ∨ ∃ storage items, sequence = .array storage items ∧ v ∈ items := by
  cases index with
  | number x =>
    obtain ⟨items, hitems, hfound⟩ := exists_of_bind_eq_ok hv
    split at hfound
    · rename_i item hitem
      cases hfound
      obtain ⟨k, -, hk⟩ := Option.bind_eq_some_iff.mp hitem
      have hmem := List.mem_of_getElem? hk
      cases sequence with
      | array storage stored =>
        cases hitems
        exact .inr ⟨storage, _, rfl, hmem⟩
      | text x =>
        cases hitems
        obtain ⟨c, -, rfl⟩ := List.mem_map.mp hmem
        exact .inl rfl
      | bool | number | closure | builtin => cases hitems
    · cases hfound
  | bool | text | array | closure | builtin => cases hv

/-- The result of a built-in function is a number, a text or a truth value, or comes out of an
    argument. -/
theorem compute_cases {f : Builtin} {call : Span} {arguments : List Value} {v : Value}
    (hv : f.compute call arguments = .ok v) :
    v.handles = [] ∨ v ∈ arguments ∨
      ∃ storage items, Value.array storage items ∈ arguments ∧ v ∈ items := by
  unfold compute at hv
  split at hv
  · obtain ⟨_, -, hr⟩ := exists_of_bind_eq_ok hv; cases hr; exact .inl rfl
  · obtain ⟨_, -, hr⟩ := exists_of_bind_eq_ok hv; cases hr; exact .inl rfl
  · obtain ⟨_, -, hr⟩ := exists_of_bind_eq_ok hv; cases hr; exact .inl rfl
  · obtain ⟨_, -, hr⟩ := exists_of_bind_eq_ok hv; cases hr; exact .inl rfl
  · cases hv; exact .inl rfl
  · obtain ⟨_, -, hr⟩ := exists_of_bind_eq_ok hv; cases hr; exact .inl rfl
  · obtain ⟨_, -, hr⟩ := exists_of_bind_eq_ok hv; cases hr; exact .inl rfl
  · cases hv; exact .inr (.inl List.mem_cons_self)
  · obtain ⟨_, -, hr⟩ := exists_of_bind_eq_ok hv; cases hr; exact .inl rfl
  · rcases itemAt_cases hv with hplain | ⟨storage, items, rfl, hmem⟩
    · exact .inl hplain
    · exact .inr (.inr ⟨storage, items, List.mem_cons_self, hmem⟩)
  · cases hv

theorem compute_valid (hs : h.Serves frames values) {f : Builtin} {call : Span}
    {arguments : List Value} {v : Value} (ha : ∀ w ∈ arguments, w.ValidIn h)
    (hv : f.compute call arguments = .ok v) : v.ValidIn h := by
  rcases compute_cases hv with hplain | hmem | ⟨storage, items, hmem, hitem⟩
  · exact Value.validIn_of_handles hplain
  · exact ha v hmem
  · exact hs.valid_of_item (ha _ hmem) hitem

theorem apply_serves (hs : h.Serves frames values) (f : Builtin) (call : Span)
    {arguments : List Value} (ha : ∀ v ∈ arguments, v.ValidIn h) (out : Sink) :
    (f.apply call arguments h out).1.Serves frames
      (resultValues (f.apply call arguments h out).2.2 ++ values) := by
  have hcompute : ∀ v, f.compute call arguments = .ok v → (h.copy v).Serves frames (v :: values) :=
    fun v hv => hs.copy (compute_valid hs ha hv)
  unfold apply
  split
  · exact hs.newArray ha
  · split
    · exact hs
    · rename_i v hv
      split
      · split
        · exact hcompute v hv
        · exact hs
      · exact hcompute v hv

end Builtin

namespace Machine

variable {base : List Ref} {others : List Value} {m : Machine}

theorem Holds.callBuiltin {call : Call} {function : Value} {arguments : List Value}
    (hm : m.Holds base others (function :: arguments)) (f : Builtin) :
    (m.callBuiltin call f function arguments).Sound base others := by
  have hvalid : ∀ v ∈ arguments, v.ValidIn m.heap := fun v hv =>
    hm.serves.value v (List.mem_append_left _ (List.mem_cons_of_mem _ hv))
  have hk := f.apply_serves hm.serves call.span hvalid m.out
  unfold Machine.callBuiltin
  split
  · rename_i heap out v heq
    rw [heq] at hk
    refine ⟨⟨?_, hm.anchored⟩, fun _ hs => absurd hs List.not_mem_nil⟩
    apply Heap.Serves.discardValues
    exact hk.perm (.refl _) List.perm_middle
  · rename_i heap out fault heq
    rw [heq] at hk
    refine ⟨⟨?_, hm.anchored⟩, fun _ hs => absurd hs List.not_mem_nil⟩
    exact Heap.Serves.discardValues hk

theorem Holds.apply {function : Value} {arguments : List Value}
    (hm : m.Holds base others (function :: arguments)) (call : Call) (blamed : Span) :
    (m.apply call blamed function arguments).Sound base others := by
  have hvalid : function.ValidIn m.heap := hm.serves.value _ List.mem_cons_self
  cases function with
  | closure r =>
    obtain ⟨c, hc⟩ := hvalid
    obtain ⟨f, hf⟩ := hm.serves.balanced.valid r _ hc
    simp only [Machine.apply, Heap.closure?_eq_some_iff.mpr hc]
    exact hm.enter hf
  | builtin f => exact hm.callBuiltin f
  | bool | number | text | array => exact hm.forgetAll.fail _

theorem Holds.proceed {function : Value} {before : List Value} {scope : Ref}
    (hm : m.Holds base others (function :: before)) (hs : scope ∈ m.frames ++ base) (call : Call)
    (rest : List Node) : (m.proceed call function before rest scope).Sound base others := by
  cases rest with
  | nil => exact (hm.perm (before.reverse_perm.cons function)).apply call call.span
  | cons node rest =>
    refine hm.await (.argument ..) rfl rfl (fun s hs' => ?_) node hs
    rwa [List.mem_singleton.mp hs']

/-! ## Steps -/

theorem Holds.write {v : Value} {scope : Ref} (hm : m.Holds base others [v])
    (hs : scope ∈ m.frames ++ base) (kind : Write) (target : Target) :
    (m.write kind target scope v).Sound base others := by
  have hvalid : v.ValidIn m.heap := hm.serves.value v List.mem_cons_self
  obtain ⟨f, hf⟩ := hm.serves.frame scope hs
  have hfail : ∀ e, ((m.forget [v]).fail (bindFault e target)).Sound base others := fun e =>
    hm.forgetAll.fail _
  unfold Machine.write
  dsimp only
  split
  · rename_i heap hwritten
    have hk : heap.Serves (m.frames ++ base) ([v] ++ (m.kept ++ others)) := by
      cases kind with
      | define => exact hm.serves.define hf hvalid hwritten
      | assign => exact hm.serves.assign hvalid hwritten
    exact (hm.change hk).gotoValue
  · exact hfail _

/-- A call ends: its frame is released, then the function and the arguments are let go of. -/
theorem Holds.leave {frame : Ref} {kept hand : List Value} (ha : Anchored base m.pending)
    (hs : m.heap.Serves (frame :: (m.frames ++ base)) (hand ++ (kept ++ (m.kept ++ others)))) :
    ({ m with heap := m.heap.release frame }.forget kept).Holds base others hand := by
  have hk := Heap.Serves.release hs
  apply Holds.forget
  refine ⟨?_, ha⟩
  apply hk.perm (.refl _)
  show ((kept ++ hand) ++ (m.kept ++ others)).Perm _
  rw [← List.append_assoc hand]
  exact List.perm_append_comm.append_right _

theorem resume_sound {work : Pending} {v : Value}
    (hw : ∀ s ∈ work.scopes, s ∈ m.frames ++ base) (ha : Anchored base m.pending)
    (hs : m.heap.Serves (work.frames ++ (m.frames ++ base))
      (v :: (work.kept ++ (m.kept ++ others)))) :
    (m.resume work v).Sound base others := by
  cases work with
  | operator operator call arguments scope =>
    have hm : m.Holds base others [v] := ⟨hs, ha⟩
    dsimp only [Machine.resume]
    split_ifs
    · exact hm.proceed (hw scope (by simp [Pending.scopes])) call arguments
    · exact hm.forgetAll.fail _
  | argument call function before rest scope =>
    have hm : m.Holds base others (v :: function :: before) := ⟨hs, ha⟩
    exact (hm.perm (.swap v function before)).proceed (hw scope (by simp [Pending.scopes])) call rest
  | choice yes no scope =>
    have hm : m.Holds base others [v] := ⟨hs, ha⟩
    exact hm.forgetAll.gotoEval _ (hw scope (by simp [Pending.scopes]))
  | test condition body scope =>
    have hm : m.Holds base others [v] := ⟨hs, ha⟩
    have hforget := hm.forgetAll
    dsimp only [Machine.resume]
    split_ifs
    · exact hforget.await (.again ..) rfl rfl hw _ (hw scope (by simp [Pending.scopes]))
    · exact (hforget.change hforget.serves.nothing).gotoValue
  | again condition body scope =>
    have hm : m.Holds base others [v] := ⟨hs, ha⟩
    have hforget := hm.forgetAll
    exact hforget.await (.test ..) rfl rfl hw _ (hw scope (by simp [Pending.scopes]))
  | next previous rest scope =>
    have hm : m.Holds base others [v, previous] := ⟨hs, ha⟩
    have hm' : m.Holds base others ([previous] ++ [v]) := hm.perm (.swap v previous [])
    have hforget := hm'.forget
    cases rest with
    | nil => exact hforget.gotoValue
    | cons node rest =>
      exact hforget.await (.next ..) rfl rfl hw _ (hw scope (by simp [Pending.scopes]))
  | write kind target scope =>
    have hm : m.Holds base others [v] := ⟨hs, ha⟩
    exact hm.write (hw scope (by simp [Pending.scopes])) kind target
  | leave frame kept =>
    have hm : ({ m with heap := m.heap.release frame }.forget kept).Holds base others [v] :=
      .leave ha hs
    exact hm.gotoValue

theorem unwind_sound {work : Pending} (ha : Anchored base m.pending)
    (hs : m.heap.Serves (work.frames ++ (m.frames ++ base)) (work.kept ++ (m.kept ++ others)))
    (f : Fault) : (m.unwind work f).Sound base others := by
  cases work with
  | leave frame kept =>
    have hm : ({ m with heap := m.heap.release frame }.forget kept).Holds base others [] :=
      .leave ha hs
    exact hm.fail f
  | operator | argument | choice | test | again | next | write =>
    have hm : m.Holds base others (Pending.kept _) := ⟨hs, ha⟩
    exact hm.forgetAll.fail f

theorem Sound.step (hm : m.Sound base others) : m.step.Sound base others := by
  obtain ⟨⟨hs, ha⟩, hscopes⟩ := hm
  obtain ⟨heap, out, control, pending⟩ := m
  cases control with
  | eval node scope => exact Holds.startNode ⟨hs, ha⟩ node (hscopes scope (by simp [Control.scopes]))
  | value v =>
    cases pending with
    | nil => exact ⟨⟨hs, ha⟩, hscopes⟩
    | cons work pending =>
      apply resume_sound ha.1 ha.2
      simpa [frames, kept, Control.values] using hs
  | fault f =>
    cases pending with
    | nil => exact ⟨⟨hs, ha⟩, hscopes⟩
    | cons work pending =>
      apply unwind_sound ha.2
      simpa [frames, kept, Control.values] using hs

theorem Sound.run (fuel : ℕ) (hm : m.Sound base others) : (m.run fuel).Sound base others := by
  induction fuel generalizing m with
  | zero => exact hm
  | succ fuel ih =>
    unfold Machine.run
    split_ifs
    · exact hm
    · exact ih hm.step

/-! ## Beginning and end -/

theorem ofNode_sound {h : Heap} {scope : Ref} (hs : h.Serves base others) (hscope : scope ∈ base)
    (out : Sink) (node : Node) : (ofNode h out node scope).Sound base others :=
  ⟨⟨hs, trivial⟩, fun s hs' => by rwa [List.mem_singleton.mp hs']⟩

theorem ofProgram_sound {h : Heap} (hs : h.Serves base others) (hglobal : Heap.global ∈ base)
    (out : Sink) (node : Node) : (ofProgram h out node).Sound base others := by
  obtain ⟨f, hf⟩ := hs.frame _ hglobal
  refine ⟨⟨hs.child hf, fun _ hs => absurd hs List.not_mem_nil, trivial⟩, fun s hs' => ?_⟩
  rw [List.mem_singleton.mp hs']
  exact List.mem_cons_self

theorem ofCall_sound {h : Heap} {function : Value} {arguments : List Value}
    (hs : h.Serves base (function :: arguments ++ others)) (out : Sink) (call : Call) :
    (ofCall h out call function arguments).Sound base others := by
  have hm : Holds base others (function :: arguments) ⟨h, out, .value .nothing, []⟩ := ⟨hs, trivial⟩
  exact hm.apply call call.span

/-- In the end memory serves the result, and those who were served from the start. -/
theorem Sound.finish? {fuel : ℕ} {ended : Ended} (hm : m.Sound base others)
    (he : m.finish? fuel = some ended) :
    ended.heap.Serves base (resultValues ended.result ++ others) := by
  obtain ⟨result, hresult, rfl⟩ := Option.map_eq_some_iff.mp he
  obtain ⟨⟨hs, -⟩, -⟩ := hm.run fuel
  unfold result? at hresult
  split at hresult
  · rename_i v hcontrol hpending
    cases hresult
    simpa [hcontrol, hpending, frames, kept, Control.values, resultValues] using hs
  · rename_i f hcontrol hpending
    cases hresult
    simpa [hcontrol, hpending, frames, kept, Control.values, resultValues] using hs
  · cases hresult

end Machine

end ApplyLang
