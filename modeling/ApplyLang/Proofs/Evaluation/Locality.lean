import ApplyLang.Proofs.Memory.Territory
import ApplyLang.Proofs.Evaluation.Soundness
import ApplyLang.Proofs.Evaluation.Ending

/-!
# Evaluation in a territory

An evaluation that starts in a territory stays there: with what it holds it gets at nothing else, it
defines names only in the frame that it started in and in frames that it makes, and what it hands
over in the end comes from the territory.

* `Machine.Local` — a machine is in a territory: so are memory, its control, and what waits.
* `Machine.Local.step` — a step keeps it there, the end of a call included.
* `Machine.Finishes.local_of_start` — memory and the result at the end of an evaluation.
-/

namespace ApplyLang

variable {t : Territory}

/-- Work may go on in a frame: what it leads to is in the territory, and it may get new names. -/
def Territory.Hosts (t : Territory) (r : Ref) : Prop :=
  t.inside r ∧ t.home r

theorem Territory.hosts_of_new (t : Territory) {r : Ref} (hr : t.start.cells.size ≤ r) :
    t.Hosts r :=
  ⟨t.inside_of_new r hr, t.home_of_new r hr⟩

/-- The control of a machine is in a territory. -/
structure Control.Inside (t : Territory) (c : Control) : Prop where
  scopes : ∀ s ∈ c.scopes, t.Hosts s
  values : ∀ v ∈ c.values, v.Inside t

/-- Work that waits goes on in a territory, and keeps what is there. -/
structure Pending.Inside (t : Territory) (work : Pending) : Prop where
  scopes : ∀ s ∈ work.scopes, t.Hosts s
  frames : ∀ r ∈ work.frames, t.inside r
  kept : ∀ v ∈ work.kept, v.Inside t

/-- Work in one frame that keeps nothing. -/
theorem Pending.Inside.of_scope {work : Pending} {scope : Ref} (hscopes : work.scopes = [scope])
    (hframes : work.frames = []) (hkept : work.kept = []) (hs : t.Hosts scope) :
    work.Inside t := by
  refine ⟨?_, ?_, ?_⟩
  · rw [hscopes]
    exact List.forall_mem_singleton.mpr hs
  · rw [hframes]
    exact List.forall_mem_nil _
  · rw [hkept]
    exact List.forall_mem_nil _

namespace Machine

/-- Memory and what waits are in a territory, whatever the control is. -/
structure Waits (t : Territory) (m : Machine) : Prop where
  heap : m.heap.Local t
  pending : ∀ work ∈ m.pending, work.Inside t

/-- A machine is in a territory. -/
structure Local (t : Territory) (m : Machine) : Prop extends Waits t m where
  control : m.control.Inside t

end Machine

/-! ## Values -/

theorem Value.inside_of_handles {v : Value} (hv : v.handles = []) : v.Inside t := by
  intro r hr
  rw [hv] at hr
  cases hr

/-- Items come with the storage of their array. -/
theorem Heap.Local.item {h : Heap} (hl : h.Local t) {storage : Ref} {items : List Value}
    (hvalid : (Value.array storage items).ValidIn h) (ha : (Value.array storage items).Inside t)
    {v : Value} (hv : v ∈ items) : v.Inside t := by
  have hs : h.object? storage = some (.array items) := hvalid
  intro r hr
  exact hl.closed storage _ (ha storage (List.mem_singleton_self _)) hs r
    (List.mem_flatMap.mpr ⟨v, hv, hr⟩)

/-! ## Built-in functions -/

namespace Builtin

variable {h : Heap} {arguments : List Value}

theorem compute_inside (hl : h.Local t) {f : Builtin} {call : Span} {v : Value}
    (hvalid : ∀ x ∈ arguments, x.ValidIn h) (ha : ∀ x ∈ arguments, x.Inside t)
    (hv : f.compute call arguments = .ok v) : v.Inside t := by
  rcases compute_cases hv with hplain | hmem | ⟨storage, items, hmem, hitem⟩
  · exact Value.inside_of_handles hplain
  · exact ha v hmem
  · exact hl.item (hvalid _ hmem) (ha _ hmem) hitem

/-- A built-in function changes memory in the territory only, and its result comes from there. -/
theorem apply_local (hl : h.Local t) (f : Builtin) (call : Span)
    (hvalid : ∀ x ∈ arguments, x.ValidIn h) (ha : ∀ x ∈ arguments, x.Inside t) (out : Sink) :
    (f.apply call arguments h out).1.Local t ∧
      ∀ v ∈ resultValues (f.apply call arguments h out).2.2, v.Inside t := by
  unfold apply
  split
  · obtain ⟨hk, hv⟩ := hl.newArray ha
    exact ⟨hk, List.forall_mem_singleton.mpr hv⟩
  · split
    · exact ⟨hl, List.forall_mem_nil _⟩
    · rename_i v hv
      have hin := compute_inside hl hvalid ha hv
      have hcopy : (h.copy v).Local t ∧ ∀ x ∈ [v], x.Inside t :=
        ⟨hl.copy hin, List.forall_mem_singleton.mpr hin⟩
      split
      · split
        · exact hcopy
        · exact ⟨hl, List.forall_mem_nil _⟩
      · exact hcopy

end Builtin

namespace Machine

variable {m : Machine}

/-! ## Going on -/

theorem Waits.change (hm : m.Waits t) {k : Heap} (hk : k.Local t) : { m with heap := k }.Waits t :=
  ⟨hk, hm.pending⟩

theorem Waits.forget (hm : m.Waits t) {values : List Value} (hv : ∀ v ∈ values, v.Inside t) :
    (m.forget values).Waits t :=
  hm.change (hm.heap.discardValues hv)

theorem Waits.fail (hm : m.Waits t) (f : Fault) : (m.fail f).Local t :=
  ⟨⟨hm.heap, hm.pending⟩, List.forall_mem_nil _, List.forall_mem_nil _⟩

theorem Waits.gotoValue (hm : m.Waits t) {v : Value} (hv : v.Inside t) :
    (m.goto (.value v)).Local t :=
  ⟨⟨hm.heap, hm.pending⟩, List.forall_mem_nil _, List.forall_mem_singleton.mpr hv⟩

theorem Waits.gotoEval (hm : m.Waits t) (node : Node) {scope : Ref} (hs : t.Hosts scope) :
    (m.goto (.eval node scope)).Local t :=
  ⟨⟨hm.heap, hm.pending⟩, List.forall_mem_singleton.mpr hs, List.forall_mem_nil _⟩

theorem Waits.await (hm : m.Waits t) (work : Pending) (hw : work.Inside t) (node : Node)
    {scope : Ref} (hs : t.Hosts scope) : (m.await (.eval node scope) work).Local t :=
  ⟨⟨hm.heap, List.forall_mem_cons.mpr ⟨hw, hm.pending⟩⟩, List.forall_mem_singleton.mpr hs,
    List.forall_mem_nil _⟩

theorem inside_nothing : Value.nothing.Inside t :=
  Value.inside_of_handles rfl

/-! ## Nodes -/

theorem Waits.lookup (hm : m.Waits t) (hvalid : m.heap.Valid) (target : Target) {scope : Ref}
    (hs : t.Hosts scope) : (m.lookup target scope).Local t := by
  unfold Machine.lookup
  cases hv : m.heap.find? scope target.name with
  | none => exact hm.fail _
  | some v =>
    have hin := hm.heap.find? hvalid hs.1 hv
    exact (hm.change (hm.heap.copy hin)).gotoValue hin

theorem Waits.makeFunction (hm : m.Waits t) (arguments : List Node) (span : Span) {scope : Ref}
    (hs : t.Hosts scope) : (m.makeFunction arguments span scope).Local t := by
  unfold Machine.makeFunction
  cases arguments.getLast? with
  | none => exact hm.fail _
  | some body =>
    cases parametersOf arguments.dropLast with
    | error f => exact hm.fail f
    | ok parameters =>
      obtain ⟨hk, hv⟩ := hm.heap.newClosure (c := ⟨parameters, body, scope⟩) hs.1
      exact (hm.change hk).gotoValue hv

theorem Waits.startWrite (hm : m.Waits t) (form : Form) (kind : Write) (arguments : List Node)
    (span : Span) {scope : Ref} (hs : t.Hosts scope) :
    (m.startWrite form kind arguments span scope).Local t := by
  unfold Machine.startWrite
  cases writeParts form arguments span with
  | error f => exact hm.fail f
  | ok parts => exact hm.await (.write ..) (.of_scope rfl rfl rfl hs) _ hs

theorem Waits.startForm (hm : m.Waits t) (form : Form) (arguments : List Node) (span : Span)
    {scope : Ref} (hs : t.Hosts scope) : (m.startForm form arguments span scope).Local t := by
  unfold Machine.startForm
  cases form with
  | choose =>
    dsimp only
    split
    · exact hm.await (.choice ..) (.of_scope rfl rfl rfl hs) _ hs
    · exact hm.fail _
  | loop =>
    dsimp only
    split
    · exact hm.await (.test ..) (.of_scope rfl rfl rfl hs) _ hs
    · exact hm.fail _
  | sequence =>
    cases arguments with
    | nil => exact hm.gotoValue inside_nothing
    | cons first rest =>
      have hw : (Pending.next .nothing rest scope).Inside t :=
        ⟨List.forall_mem_singleton.mpr hs, List.forall_mem_nil _,
          List.forall_mem_singleton.mpr inside_nothing⟩
      exact hm.await _ hw _ hs
  | define => exact hm.startWrite _ _ _ _ hs
  | assign => exact hm.startWrite _ _ _ _ hs
  | function => exact hm.makeFunction _ _ hs

theorem Waits.startNode (hm : m.Waits t) (hvalid : m.heap.Valid) (node : Node) {scope : Ref}
    (hs : t.Hosts scope) : (m.startNode node scope).Local t := by
  cases node with
  | number => exact hm.gotoValue (Value.inside_of_handles rfl)
  | text => exact hm.gotoValue (Value.inside_of_handles rfl)
  | word => exact hm.lookup hvalid _ hs
  | apply operator arguments span =>
    unfold Machine.startNode
    dsimp only
    split
    · exact hm.startForm _ _ _ hs
    · exact hm.await (.operator ..) (.of_scope rfl rfl rfl hs) _ hs

/-! ## Calls -/

theorem bindParameters_local {h : Heap} (hl : h.Local t) {r : Ref} (hr : t.Hosts r)
    (parameters : List (String × Span)) {arguments : List Value}
    (ha : ∀ v ∈ arguments, v.Inside t) : (bindParameters h r parameters arguments).Local t := by
  induction parameters generalizing h arguments with
  | nil => exact hl
  | cons parameter parameters ih =>
    cases arguments with
    | nil => exact hl
    | cons v arguments =>
      obtain ⟨hv, hrest⟩ := List.forall_mem_cons.mp ha
      exact ih (hl.bind hr.1 (.inl hr.2) hv) hrest

/-- The frame of a call is new, so it hosts the body. -/
theorem Waits.enter (hm : m.Waits t) {call : Call} {c : Closure} {function : Value}
    {arguments : List Value} (hc : t.inside c.scope)
    (ha : ∀ v ∈ function :: arguments, v.Inside t) :
    (m.enter call c function arguments).Local t := by
  unfold Machine.enter
  split_ifs
  · have hnew : t.Hosts (m.heap.child c.scope).2 := by
      apply t.hosts_of_new
      rw [Heap.child, Heap.alloc, Heap.size_retain]
      exact hm.heap.size_le
    have hk := bindParameters_local (hm.heap.child hc) hnew c.parameters
      (List.forall_mem_cons.mp ha).2
    have hw : (Pending.leave (m.heap.child c.scope).2 (function :: arguments)).Inside t :=
      ⟨List.forall_mem_nil _, List.forall_mem_singleton.mpr hnew.1, ha⟩
    exact (hm.change hk).await _ hw _ hnew
  · exact (hm.forget ha).fail _

theorem Waits.callBuiltin (hm : m.Waits t) {call : Call} {function : Value}
    {arguments : List Value} (hvalid : ∀ v ∈ function :: arguments, v.ValidIn m.heap)
    (ha : ∀ v ∈ function :: arguments, v.Inside t) (f : Builtin) :
    (m.callBuiltin call f function arguments).Local t := by
  obtain ⟨hk, hresult⟩ := f.apply_local hm.heap call.span (List.forall_mem_cons.mp hvalid).2
    (List.forall_mem_cons.mp ha).2 m.out
  unfold Machine.callBuiltin
  split
  · rename_i heap out v heq
    rw [heq] at hk hresult
    exact ⟨⟨hk.discardValues ha, hm.pending⟩, List.forall_mem_nil _, hresult⟩
  · rename_i heap out fault heq
    rw [heq] at hk
    exact ⟨⟨hk.discardValues ha, hm.pending⟩, List.forall_mem_nil _, List.forall_mem_nil _⟩

theorem Waits.apply (hm : m.Waits t) {function : Value} {arguments : List Value}
    (hvalid : ∀ v ∈ function :: arguments, v.ValidIn m.heap)
    (ha : ∀ v ∈ function :: arguments, v.Inside t) (call : Call) (blamed : Span) :
    (m.apply call blamed function arguments).Local t := by
  cases function with
  | closure r =>
    obtain ⟨c, hc⟩ := hvalid _ List.mem_cons_self
    have hr : t.inside r := ha _ List.mem_cons_self r (List.mem_singleton_self _)
    have hscope := hm.heap.closed r _ hr hc c.scope (List.mem_singleton_self _)
    simp only [Machine.apply, Heap.closure?_eq_some_iff.mpr hc]
    exact hm.enter hscope ha
  | builtin f => exact hm.callBuiltin hvalid ha f
  | bool | number | text | array => exact (hm.forget ha).fail _

theorem Waits.proceed (hm : m.Waits t) {function : Value} {before : List Value} {scope : Ref}
    (hs : t.Hosts scope) (hvalid : ∀ v ∈ function :: before, v.ValidIn m.heap)
    (ha : ∀ v ∈ function :: before, v.Inside t) (call : Call) (rest : List Node) :
    (m.proceed call function before rest scope).Local t := by
  cases rest with
  | nil =>
    have hmem : ∀ v ∈ function :: before.reverse, v ∈ function :: before := fun v hv =>
      (before.reverse_perm.cons function).mem_iff.mp hv
    exact hm.apply (fun v hv => hvalid v (hmem v hv)) (fun v hv => ha v (hmem v hv)) call _
  | cons node rest =>
    have hw : (Pending.argument call function before rest scope).Inside t :=
      ⟨List.forall_mem_singleton.mpr hs, List.forall_mem_nil _, ha⟩
    exact hm.await _ hw node hs

/-! ## Steps -/

theorem Waits.write (hm : m.Waits t) (hvalid : m.heap.Valid) {v : Value} {scope : Ref}
    (hs : t.Hosts scope) (hv : v.Inside t) (kind : Write) (target : Target) :
    (m.write kind target scope v).Local t := by
  unfold Machine.write
  dsimp only
  split
  · rename_i heap hwritten
    have hk : heap.Local t := by
      cases kind with
      | define => exact hm.heap.define hs.1 hs.2 hv hwritten
      | assign => exact hm.heap.assign hvalid hs.1 hv hwritten
    exact (hm.change hk).gotoValue hv
  · exact (hm.forget (List.forall_mem_singleton.mpr hv)).fail _

/-- A call ends: releasing its frame empties and frees only what the frame leads to. -/
theorem Waits.leave (hm : m.Waits t) (hvalid : m.heap.Valid) {frame : Ref} {kept : List Value}
    (hw : (Pending.leave frame kept).Inside t)
    (hrelease : m.heap.Shrinks (m.heap.release frame)) :
    ({ m with heap := m.heap.release frame }.forget kept).Waits t := by
  have hk := hm.heap.release hvalid (hw.frames frame List.mem_cons_self) hrelease
  exact (hm.change hk).forget hw.kept

theorem resume_local {work : Pending} {v : Value} (hm : m.Waits t) (hw : work.Inside t)
    (hv : v.Inside t) (hvalid : m.heap.Valid) (hvalues : ∀ x ∈ v :: work.kept, x.ValidIn m.heap)
    (hrelease : ∀ r ∈ work.frames, m.heap.Shrinks (m.heap.release r)) :
    (m.resume work v).Local t := by
  have hforget : (m.forget [v]).Waits t := hm.forget (List.forall_mem_singleton.mpr hv)
  cases work with
  | operator operator call arguments scope =>
    dsimp only [Machine.resume]
    split_ifs
    · exact hm.proceed (hw.scopes scope List.mem_cons_self) hvalues
        (List.forall_mem_singleton.mpr hv) call arguments
    · exact hforget.fail _
  | argument call function before rest scope =>
    have hperm := List.Perm.swap v function before
    refine hm.proceed (hw.scopes scope List.mem_cons_self)
      (fun x hx => hvalues x (hperm.mem_iff.mp hx)) (fun x hx => ?_) call rest
    exact List.forall_mem_cons.mpr ⟨hv, hw.kept⟩ x (hperm.mem_iff.mp hx)
  | choice yes no scope => exact hforget.gotoEval _ (hw.scopes scope List.mem_cons_self)
  | test condition body scope =>
    dsimp only [Machine.resume]
    split_ifs
    · exact hforget.await (.again ..) ⟨hw.scopes, hw.frames, hw.kept⟩ _
        (hw.scopes scope List.mem_cons_self)
    · exact hforget.gotoValue inside_nothing
  | again condition body scope =>
    exact hforget.await (.test ..) ⟨hw.scopes, hw.frames, hw.kept⟩ _
      (hw.scopes scope List.mem_cons_self)
  | next previous rest scope =>
    have hforget : (m.forget [previous]).Waits t := hm.forget hw.kept
    cases rest with
    | nil => exact hforget.gotoValue hv
    | cons node rest =>
      have hw' : (Pending.next v rest scope).Inside t :=
        ⟨hw.scopes, hw.frames, List.forall_mem_singleton.mpr hv⟩
      exact hforget.await _ hw' node (hw.scopes scope List.mem_cons_self)
  | write kind target scope =>
    exact hm.write hvalid (hw.scopes scope List.mem_cons_self) hv kind target
  | leave frame kept =>
    exact (hm.leave hvalid hw (hrelease frame List.mem_cons_self)).gotoValue hv

theorem unwind_local {work : Pending} (hm : m.Waits t) (hw : work.Inside t)
    (hvalid : m.heap.Valid) (hrelease : ∀ r ∈ work.frames, m.heap.Shrinks (m.heap.release r))
    (f : Fault) : (m.unwind work f).Local t := by
  cases work with
  | leave frame kept => exact (hm.leave hvalid hw (hrelease frame List.mem_cons_self)).fail f
  | operator | argument | choice | test | again | next | write =>
    exact (hm.forget hw.kept).fail f

variable {base : List Ref} {others : List Value}

theorem Local.step (hm : m.Local t) (hs : m.Sound base others) : m.step.Local t := by
  obtain ⟨⟨hheap, hpending⟩, hscopes, hvalues⟩ := hm
  have hvalid := hs.holds.serves.valid
  obtain ⟨heap, out, control, pending⟩ := m
  cases control with
  | eval node scope =>
    exact Waits.startNode ⟨hheap, hpending⟩ hvalid node (hscopes scope List.mem_cons_self)
  | value v =>
    cases pending with
    | nil => exact ⟨⟨hheap, hpending⟩, hscopes, hvalues⟩
    | cons work pending =>
      obtain ⟨hwork, hrest⟩ := List.forall_mem_cons.mp hpending
      have hm : Waits t ⟨heap, out, .value .nothing, pending⟩ := ⟨hheap, hrest⟩
      exact resume_local hm hwork (hvalues v List.mem_cons_self) hvalid hs.valid_of_first
        hs.release_shrinks
  | fault f =>
    cases pending with
    | nil => exact ⟨⟨hheap, hpending⟩, hscopes, hvalues⟩
    | cons work pending =>
      obtain ⟨hwork, hrest⟩ := List.forall_mem_cons.mp hpending
      have hm : Waits t ⟨heap, out, .value .nothing, pending⟩ := ⟨hheap, hrest⟩
      exact unwind_local hm hwork hvalid hs.release_shrinks f

/-! ## The end -/

theorem Local.ended (hm : m.Local t) {result : Except Fault Value}
    (hr : m.result? = some result) : ∀ v ∈ resultValues result, v.Inside t := by
  have hvalues := hm.control.values
  unfold result? at hr
  split at hr
  · rename_i v hcontrol _
    cases hr
    rwa [hcontrol] at hvalues
  · cases hr
    exact List.forall_mem_nil _
  · cases hr

/-- An evaluation that starts in a territory has changed nothing else in the end, and its result
    comes from there. -/
theorem Finishes.local_of_start {ended : Ended} (hf : m.Finishes ended) (hm : m.Local t)
    (hs : m.Sound base others) :
    ended.heap.Local t ∧ ∀ v ∈ resultValues ended.result, v.Inside t := by
  induction hf with
  | here hr => exact ⟨hm.heap, hm.ended hr⟩
  | step _ _ ih => exact ih (hm.step hs) hs.step

/-! ## Beginnings -/

theorem ofNode_local {h : Heap} (hl : h.Local t) (out : Sink) (node : Node) {scope : Ref}
    (hs : t.Hosts scope) : (ofNode h out node scope).Local t :=
  ⟨⟨hl, List.forall_mem_nil _⟩, List.forall_mem_singleton.mpr hs, List.forall_mem_nil _⟩

theorem ofCall_local {h : Heap} (hl : h.Local t) (out : Sink) (call : Call) {function : Value}
    {arguments : List Value} (hvalid : ∀ v ∈ function :: arguments, v.ValidIn h)
    (ha : ∀ v ∈ function :: arguments, v.Inside t) :
    (ofCall h out call function arguments).Local t := by
  have hm : Waits t ⟨h, out, .value .nothing, []⟩ := ⟨hl, List.forall_mem_nil _⟩
  exact hm.apply hvalid ha call call.span

end Machine

end ApplyLang
