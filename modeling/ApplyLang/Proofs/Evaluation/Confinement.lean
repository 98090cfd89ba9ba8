import ApplyLang.Proofs.Evaluation.Soundness
import ApplyLang.Proofs.Source.Parsing

/-!
# Where an evaluation stays

An evaluation works on the nodes of one program, on objects that were handed to it and on objects
that it makes itself. It does not get hold of anything else: what a name means, what a function
captured and what stands in an array has been inside from the start, or is new. Of the frames around
it only the global frame is outside, which has nothing in it that could be changed.

* `Realm` — the nodes and the references that an evaluation may meet.
* `Machine.Within` — a machine stays in a realm: so do its control, what waits, and every object in
  the realm. Objects outside stay as they were.
* `Fault.About` — a fault is about nodes of the program.
* `Machine.Within.step`, `Machine.Within.run` — steps keep a machine in its realm.
-/

namespace ApplyLang

/-! ## References and faults -/

namespace Value

mutual

/-- The references in a value, at any depth. -/
def refs : Value → List Ref
  | closure r => [r]
  | array storage items => storage :: refsIn items
  | _ => []

/-- The references in a list of values, at any depth. -/
def refsIn : List Value → List Ref
  | [] => []
  | item :: rest => refs item ++ refsIn rest

end

theorem mem_refsIn {items : List Value} {v : Value} {r : Ref} (hv : v ∈ items) (hr : r ∈ v.refs) :
    r ∈ refsIn items := by
  induction items with
  | nil => cases hv
  | cons item rest ih =>
    rw [refsIn]
    rcases List.mem_cons.mp hv with rfl | hv
    · exact List.mem_append_left _ hr
    · exact List.mem_append_right _ (ih hv)

theorem exists_of_mem_refsIn {items : List Value} {r : Ref} (hr : r ∈ refsIn items) :
    ∃ v ∈ items, r ∈ v.refs := by
  induction items with
  | nil => cases hr
  | cons item rest ih =>
    rw [refsIn] at hr
    rcases List.mem_append.mp hr with hr | hr
    · exact ⟨item, List.mem_cons_self, hr⟩
    · obtain ⟨v, hv, hr⟩ := ih hr
      exact ⟨v, List.mem_cons_of_mem _ hv, hr⟩

theorem refs_of_handles {v : Value} (hv : v.handles = []) : v.refs = [] := by
  cases v with
  | closure | array => cases hv
  | bool | number | text | builtin => rfl

mutual

theorem mem_refs_of_mem_closures : ∀ {v : Value} {r : Ref}, r ∈ v.closures → r ∈ v.refs
  | closure _, _, hr => hr
  | array _ _, _, hr => List.mem_cons_of_mem _ (mem_refsIn_of_mem_closuresIn hr)
  | bool _, _, hr | number _, _, hr | text _, _, hr | builtin _, _, hr => by cases hr

theorem mem_refsIn_of_mem_closuresIn :
    ∀ {items : List Value} {r : Ref}, r ∈ closuresIn items → r ∈ refsIn items
  | [], _, hr => by cases hr
  | _ :: _, _, hr => by
    rcases List.mem_append.mp hr with hr | hr
    · exact List.mem_append_left _ (mem_refs_of_mem_closures hr)
    · exact List.mem_append_right _ (mem_refsIn_of_mem_closuresIn hr)

end

end Value

/-- A fault of a call blames the place of the call. -/
def Fault.AtCall (call : Span) : Fault → Prop
  | arity place _ _ _ => place = call
  | mismatch argument function _ _ => argument = call ∧ function = call
  | outOfRange place _ _ => place = call
  | output place _ => place = call
  | _ => False

/-- A fault is about nodes with a property: a word that means nothing or cannot be written, a form
    or a part of it, or a call. -/
def Fault.About (P : Node → Prop) : Fault → Prop
  | parsing _ _ => False
  | unbound place name => P (.word name place)
  | isSealed place name => P (.word name place)
  | misuse place form _ => ∃ operator arguments span, P (.apply operator arguments span) ∧
      operator.name? = some form ∧ (place = span ∨ ∃ n ∈ arguments, place = n.span)
  | notCallable outer operator _ => ∃ node arguments, P (.apply node arguments outer) ∧
      operator = node.span
  | f => ∃ operator arguments call, P (.apply operator arguments call) ∧ f.AtCall call

/-! ## Realms -/

/-- What an evaluation may meet: the nodes of its program, and references from the beginning that are
    inside. New references are always inside. -/
structure Realm where
  /-- Memory at the beginning. -/
  start : Heap
  inside : Ref → Prop
  node : Node → Prop
  global_lt : Heap.global < start.cells.size
  inside_of_new : ∀ r, start.cells.size ≤ r → inside r
  node_of_part : ∀ n p, node n → p ∈ n.parts → node p

/-- The global frame as it always is. -/
def Heap.globalFrame : Frame := ⟨Heap.globalBindings, none, true⟩

/-- All references in a value are inside. -/
def Value.Within (w : Realm) (v : Value) : Prop :=
  ∀ r ∈ v.refs, w.inside r

/-- A place where a function is called. -/
def Realm.Calls (w : Realm) (span : Span) : Prop :=
  ∃ operator arguments, w.node (.apply operator arguments span)

/-- A frame does not lead out of the realm, the global frame apart. New frames are not sealed, and
    only the first of them may be inside the global frame. -/
structure Frame.Within (w : Realm) (r : Ref) (f : Frame) : Prop where
  parent : ∀ p, f.parent = some p → w.inside p ∨ p = Heap.global
  unsealed : w.start.cells.size ≤ r → f.isSealed = false
  around : w.start.cells.size < r → ∃ p, f.parent = some p ∧ w.inside p
  bound : ∀ b ∈ f.bindings, b.2.Within w

/-- A function stays in the realm, and comes from a node of the program. -/
structure Closure.Within (w : Realm) (c : Closure) : Prop where
  scope : w.inside c.scope
  body : w.node c.body

/-- What an object mentions is inside. -/
def Object.Within (w : Realm) (r : Ref) : Object → Prop
  | .frame f => f.Within w r
  | .closure c => c.Within w
  | .array items => ∀ v ∈ items, v.Within w

/-- Objects inside stay in the realm, and objects outside stay what they were. -/
structure Heap.Within (w : Realm) (h : Heap) : Prop where
  size_le : w.start.cells.size ≤ h.cells.size
  object : ∀ r o, w.inside r → h.object? r = some o → o.Within w r
  global : ∀ o, h.object? Heap.global = some o → o = .frame Heap.globalFrame
  outside : ∀ r o, ¬ w.inside r → h.object? r = some o → w.start.object? r = some o

/-- The control of a machine stays in a realm. -/
def Control.Within (w : Realm) : Control → Prop
  | eval node scope => w.node node ∧ w.inside scope
  | value v => v.Within w
  | fault f => f.About w.node

/-- What waits stays in a realm. -/
def Pending.Within (w : Realm) : Pending → Prop
  | operator place call arguments scope =>
    w.inside scope ∧ ∃ node, w.node (.apply node arguments call.span) ∧ place = node.span
  | argument call function before rest scope =>
    w.inside scope ∧ w.Calls call.span ∧ function.callable = true ∧
      (∀ v ∈ function :: before, v.Within w) ∧ ∀ n ∈ rest, w.node n
  | choice yes no scope => w.inside scope ∧ w.node yes ∧ w.node no
  | test condition body scope => w.inside scope ∧ w.node condition ∧ w.node body
  | again condition body scope => w.inside scope ∧ w.node condition ∧ w.node body
  | next previous rest scope => w.inside scope ∧ previous.Within w ∧ ∀ n ∈ rest, w.node n
  | write _ target scope => w.inside scope ∧ w.node (.word target.name target.span)
  | leave frame kept => w.inside frame ∧ ∀ v ∈ kept, v.Within w

namespace Machine

/-- Memory and what waits are in a realm, whatever the control is. -/
structure Rests (w : Realm) (m : Machine) : Prop where
  heap : m.heap.Within w
  pending : ∀ work ∈ m.pending, work.Within w

/-- A machine is in a realm. -/
structure Within (w : Realm) (m : Machine) : Prop extends Rests w m where
  control : m.control.Within w

end Machine

variable {w : Realm}

/-! ## Memory -/

theorem Value.within_of_refs_nil {v : Value} (hv : v.refs = []) : v.Within w := by
  intro r hr
  rw [hv] at hr
  cases hr

theorem Value.Within.item {storage : Ref} {items : List Value} {v : Value}
    (ha : (Value.array storage items).Within w) (hv : v ∈ items) : v.Within w := by
  intro r hr
  apply ha
  rw [Value.refs]
  exact List.mem_cons_of_mem _ (Value.mem_refsIn hv hr)

namespace Heap

variable {h k : Heap}

theorem Within.shrink (hw : h.Within w) (hk : h.Shrinks k) : k.Within w where
  size_le := hk.size_eq ▸ hw.size_le
  object r o hr ho := hw.object r o hr (hk.object r o ho)
  global o ho := hw.global o (hk.object _ o ho)
  outside r o hr ho := hw.outside r o hr (hk.object r o ho)

theorem Within.inside_size (hw : h.Within w) : w.inside h.cells.size :=
  w.inside_of_new _ hw.size_le

/-- A new object is inside. -/
theorem Within.alloc (hw : h.Within w) {o : Object} (ho : o.Within w h.cells.size) :
    (h.alloc o).1.Within w := by
  have hnew := hw.inside_size
  have hlt := w.global_lt.trans_le hw.size_le
  refine ⟨?_, fun r p hr hp => ?_, fun p hp => ?_, fun r p hr hp => ?_⟩
  · rw [size_alloc]
    exact hw.size_le.trans (Nat.le_succ _)
  · rw [object?_alloc] at hp
    split_ifs at hp with heq
    · cases hp
      rw [heq]
      exact ho
    · exact hw.object r p hr hp
  · rw [object?_alloc, if_neg hlt.ne] at hp
    exact hw.global p hp
  · rw [object?_alloc] at hp
    split_ifs at hp with heq
    · exact absurd (heq ▸ hnew) hr
    · exact hw.outside r p hr hp

theorem Within.bind (hw : h.Within w) {r : Ref} {f : Frame} (hf : h.object? r = some (.frame f))
    (hr : w.inside r) (hs : f.isSealed = false) (name : String) {v : Value} (hv : v.Within w) :
    (h.bind r name v).Within w := by
  have hcopy := hw.shrink (copy_shrinks h v)
  have hf' : (h.copy v).object? r = some (.frame f) := (object?_copy h v r).trans hf
  have hobj := object?_replace (alive_of_object? hf') (.frame (f.insert name v))
  -- the global frame is sealed, so it is another one
  have hne : Heap.global ≠ r := by
    rintro rfl
    cases hw.global _ hf
    cases hs
  have hold : f.Within w r := hw.object r _ hr hf
  rw [bind_of_frame hf]
  refine Within.shrink ⟨?_, fun x o hx ho => ?_, fun o ho => ?_, fun x o hx ho => ?_⟩
    (discardValues_shrinks _ _)
  · rw [size_replace]
    exact hcopy.size_le
  · rw [hobj] at ho
    split_ifs at ho with heq
    · cases ho
      rw [heq]
      refine ⟨hold.parent, hold.unsealed, hold.around, fun b hb => ?_⟩
      rcases Frame.mem_insertInto hb with hbv | hb
      · rw [hbv]
        exact hv
      · exact hold.bound b hb
    · exact hcopy.object x o hx ho
  · rw [hobj, if_neg hne] at ho
    exact hcopy.global o ho
  · rw [hobj] at ho
    split_ifs at ho with heq
    · exact absurd (heq ▸ hr) hx
    · exact hcopy.outside x o hx ho

/-- From a frame inside, names are looked for inside and in the global frame. -/
theorem Within.mem_chainFrom (hw : h.Within w) {fuel : ℕ} {scope : Option Ref}
    (hs : ∀ s, scope = some s → w.inside s ∨ s = Heap.global) {r : Ref}
    (hr : r ∈ h.chainFrom fuel scope) : w.inside r ∨ r = Heap.global := by
  induction fuel generalizing scope with
  | zero => cases hr
  | succ fuel ih =>
    cases scope with
    | none => cases hr
    | some s =>
      unfold chainFrom at hr
      cases hf : h.frame? s with
      | none => rw [hf] at hr; cases hr
      | some f =>
        rw [hf] at hr
        have ho := frame?_eq_some_iff.mp hf
        rcases List.mem_cons.mp hr with rfl | hr
        · exact hs r rfl
        · refine ih (fun p hp => ?_) hr
          rcases hs s rfl with hin | rfl
          · have hframe : f.Within w s := hw.object s _ hin ho
            exact hframe.parent p hp
          · cases hw.global _ ho
            cases hp

theorem Within.owner? (hw : h.Within w) {scope r : Ref} {name : String} (hs : w.inside scope)
    (ho : h.owner? scope name = some r) : w.inside r ∨ r = Heap.global := by
  refine hw.mem_chainFrom (fun s heq => ?_) (List.mem_of_find?_eq_some ho)
  cases heq
  exact .inl hs

theorem refs_of_mem_globalBindings : ∀ b ∈ globalBindings, b.2.refs = [] := by
  intro b hb
  simp only [globalBindings, List.mem_cons, List.mem_map] at hb
  rcases hb with rfl | rfl | ⟨f, -, rfl⟩ <;> rfl

/-- What a name means is inside. -/
theorem Within.find? (hw : h.Within w) {scope : Ref} {name : String} {v : Value}
    (hs : w.inside scope) (hv : h.find? scope name = some v) : v.Within w := by
  obtain ⟨r, howner, hbound⟩ := Option.bind_eq_some_iff.mp hv
  obtain ⟨f, hf, hget⟩ := Option.bind_eq_some_iff.mp hbound
  have ho := frame?_eq_some_iff.mp hf
  have hmem := Frame.mem_of_get? hget
  rcases hw.owner? hs howner with hin | rfl
  · have hframe : f.Within w r := hw.object r _ hin ho
    exact hframe.bound _ hmem
  · cases hw.global _ ho
    exact Value.within_of_refs_nil (refs_of_mem_globalBindings _ hmem)

theorem unsealed_of_isSealed {r : Ref} {f : Frame} (hf : h.object? r = some (.frame f))
    (hs : h.isSealed r = false) : f.isSealed = false := by
  rwa [isSealed, frame?_eq_some_iff.mpr hf] at hs

theorem Within.define (hw : h.Within w) {r : Ref} {name : String} {v : Value} (hr : w.inside r)
    (hv : v.Within w) (hd : h.define r name v = .ok k) : k.Within w := by
  unfold Heap.define at hd
  split_ifs at hd with hs
  cases hd
  cases hf : h.frame? r with
  | none =>
    rw [bind_of_none hf]
    exact hw
  | some f =>
    have ho := frame?_eq_some_iff.mp hf
    exact hw.bind ho hr (unsealed_of_isSealed ho (by simpa using hs)) name hv

theorem Within.assign (hw : h.Within w) {scope : Ref} {name : String} {v : Value}
    (hs : w.inside scope) (hv : v.Within w) (ha : h.assign scope name v = .ok k) : k.Within w := by
  unfold Heap.assign at ha
  split at ha
  · cases ha
  · rename_i r howner
    split_ifs at ha with hseal
    cases ha
    obtain ⟨f, hf⟩ := exists_frame_of_owns (owns_of_owner? howner)
    have hunsealed := unsealed_of_isSealed hf (by simpa using hseal)
    rcases hw.owner? hs howner with hin | rfl
    · exact hw.bind hf hin hunsealed name hv
    · cases hw.global _ hf
      cases hunsealed

/-- Frames made in the realm are never sealed. -/
theorem Within.bind_new (hw : h.Within w) {r : Ref} (hr : w.start.cells.size ≤ r) (name : String)
    {v : Value} (hv : v.Within w) : (h.bind r name v).Within w := by
  have hin := w.inside_of_new r hr
  cases hf : h.frame? r with
  | none =>
    rw [bind_of_none hf]
    exact hw
  | some f =>
    have ho := frame?_eq_some_iff.mp hf
    have hframe : f.Within w r := hw.object r _ hin ho
    exact hw.bind ho hin (hframe.unsealed hr) name hv

theorem Within.child (hw : h.Within w) {r : Ref} (hr : w.inside r) : (h.child r).1.Within w := by
  have hk := hw.shrink (retain_shrinks h r)
  refine hk.alloc ⟨fun p hp => ?_, fun _ => rfl, fun _ => ⟨r, rfl, hr⟩, fun b hb => ?_⟩
  · cases hp
    exact .inl hr
  · cases hb

theorem Within.newClosure (hw : h.Within w) {c : Closure} (hc : c.Within w) :
    (h.newClosure c).1.Within w ∧ (h.newClosure c).2.Within w := by
  have hk := hw.shrink (retain_shrinks h c.scope)
  refine ⟨hk.alloc hc, fun r hr => ?_⟩
  rw [List.mem_singleton.mp hr]
  exact hk.inside_size

theorem Within.newArray (hw : h.Within w) {items : List Value} (hv : ∀ v ∈ items, v.Within w) :
    (h.newArray items).1.Within w ∧ (h.newArray items).2.Within w := by
  have hk := hw.shrink (retainAll_shrinks h (items.flatMap Value.handles))
  refine ⟨hk.alloc hv, fun r hr => ?_⟩
  change r ∈ Value.refs (.array _ items) at hr
  rw [Value.refs] at hr
  rcases List.mem_cons.mp hr with rfl | hr
  · exact hk.inside_size
  · obtain ⟨v, hvi, hr⟩ := Value.exists_of_mem_refsIn hr
    exact hv v hvi r hr

end Heap

/-! ## Built-in functions -/

/-- A computation fails in its first part or after it. -/
theorem error_of_bind_eq_error {ε α β : Type} {x : Except ε α} {f : α → Except ε β} {e : ε}
    (h : x >>= f = .error e) : x = .error e ∨ ∃ a, x = .ok a ∧ f a = .error e := by
  cases x with
  | error e' =>
    cases h
    exact .inl rfl
  | ok a => exact .inr ⟨a, rfl, h⟩

namespace Builtin

variable {call : Span} {f : Fault}

theorem numbers_atCall {x y : Value} (he : numbers call x y = .error f) : f.AtCall call := by
  unfold numbers at he
  split at he <;> cases he <;> exact ⟨rfl, rfl⟩

theorem arithmetic_atCall {operation : Float → Float → Float} {x y : Value}
    (he : arithmetic call operation x y = .error f) : f.AtCall call := by
  rcases error_of_bind_eq_error he with he | ⟨_, _, he⟩
  · exact numbers_atCall he
  · cases he

theorem ordered_atCall {wanted : Ordering} {x y : Value}
    (he : ordered call wanted x y = .error f) : f.AtCall call := by
  rcases error_of_bind_eq_error he with he | ⟨_, _, he⟩
  · unfold compareValues at he
    split at he <;> cases he <;> exact ⟨rfl, rfl⟩
  · cases he

theorem itemsOf_atCall {v : Value} (he : itemsOf call v = .error f) : f.AtCall call := by
  unfold itemsOf at he
  split at he <;> cases he
  exact ⟨rfl, rfl⟩

theorem itemAt_atCall {sequence index : Value} (he : itemAt call sequence index = .error f) :
    f.AtCall call := by
  unfold itemAt at he
  split at he
  · rcases error_of_bind_eq_error he with he | ⟨items, _, he⟩
    · exact itemsOf_atCall he
    · split at he
      · cases he
      · cases he
        exact rfl
  · cases he
    exact ⟨rfl, rfl⟩

/-- A built-in function that fails blames its call. -/
theorem compute_atCall {b : Builtin} {arguments : List Value}
    (he : b.compute call arguments = .error f) : f.AtCall call := by
  unfold compute at he
  split at he
  · exact arithmetic_atCall he
  · exact arithmetic_atCall he
  · exact arithmetic_atCall he
  · exact arithmetic_atCall he
  · cases he
  · exact ordered_atCall he
  · exact ordered_atCall he
  · cases he
  · rcases error_of_bind_eq_error he with he | ⟨_, _, he⟩
    · exact itemsOf_atCall he
    · cases he
  · exact itemAt_atCall he
  · cases he
    exact rfl

theorem compute_within {b : Builtin} {arguments : List Value} {v : Value}
    (ha : ∀ x ∈ arguments, x.Within w) (hv : b.compute call arguments = .ok v) : v.Within w := by
  rcases compute_cases hv with hplain | hmem | ⟨storage, items, hmem, hitem⟩
  · exact Value.within_of_refs_nil (Value.refs_of_handles hplain)
  · exact ha v hmem
  · exact (ha _ hmem).item hitem

/-- The effect of a built-in function stays in the realm, and so does its result. -/
theorem apply_within {h : Heap} (hw : h.Within w) (b : Builtin) (call : Span)
    {arguments : List Value} (ha : ∀ v ∈ arguments, v.Within w) (out : Sink) :
    (b.apply call arguments h out).1.Within w ∧
      (∀ v, (b.apply call arguments h out).2.2 = .ok v → v.Within w) ∧
      ∀ f, (b.apply call arguments h out).2.2 = .error f → f.AtCall call := by
  unfold apply
  split
  · refine ⟨(hw.newArray ha).1, fun v hv => ?_, fun f hf => ?_⟩
    · cases hv
      exact (hw.newArray ha).2
    · cases hf
  · split
    · rename_i fault hfault
      refine ⟨hw, fun v hv => ?_, fun f hf => ?_⟩
      · cases hv
      · cases hf
        exact compute_atCall hfault
    · rename_i v hv
      have hok : ∀ x, Except.ok (ε := Fault) v = .ok x → x.Within w := by
        intro x hx
        cases hx
        exact compute_within ha hv
      have hcopy := hw.shrink (Heap.copy_shrinks h v)
      split
      · split
        · exact ⟨hcopy, hok, fun f hf => by cases hf⟩
        · refine ⟨hw, fun x hx => ?_, fun f hf => ?_⟩
          · cases hx
          · cases hf
            exact rfl
      · exact ⟨hcopy, hok, fun f hf => by cases hf⟩

end Builtin

/-! ## Nodes -/

theorem Fault.AtCall.about {f : Fault} {call : Span} (hf : f.AtCall call) (hc : w.Calls call) :
    f.About w.node := by
  obtain ⟨operator, arguments, hnode⟩ := hc
  cases f with
  | arity | mismatch | outOfRange | output => exact ⟨operator, arguments, call, hnode, hf⟩
  | parsing | unbound | misuse | notCallable | isSealed => exact hf.elim

namespace Machine

variable {m : Machine}

theorem Rests.goto (hm : m.Rests w) {control : Control} (hc : control.Within w) :
    (m.goto control).Within w :=
  ⟨⟨hm.heap, hm.pending⟩, hc⟩

theorem Rests.await (hm : m.Rests w) {control : Control} {work : Pending} (hc : control.Within w)
    (hwork : work.Within w) : (m.await control work).Within w := by
  refine ⟨⟨hm.heap, fun p hp => ?_⟩, hc⟩
  rcases List.mem_cons.mp hp with rfl | hp
  · exact hwork
  · exact hm.pending p hp

theorem Rests.fail (hm : m.Rests w) {f : Fault} (hf : f.About w.node) : (m.fail f).Within w :=
  hm.goto hf

theorem Rests.change (hm : m.Rests w) {k : Heap} (hk : k.Within w) : { m with heap := k }.Rests w :=
  ⟨hk, hm.pending⟩

theorem Rests.forget (hm : m.Rests w) (values : List Value) : (m.forget values).Rests w :=
  hm.change (hm.heap.shrink (Heap.discardValues_shrinks _ _))

theorem within_nothing : Value.nothing.Within w :=
  Value.within_of_refs_nil rfl

theorem Rests.lookup (hm : m.Rests w) {target : Target} {scope : Ref} (hs : w.inside scope)
    (ht : w.node (.word target.name target.span)) : (m.lookup target scope).Within w := by
  unfold Machine.lookup
  cases hv : m.heap.find? scope target.name with
  | none => exact hm.fail ht
  | some v =>
    exact (hm.change (hm.heap.shrink (Heap.copy_shrinks _ v))).goto (hm.heap.find? hs hv)

/-- Parameters that are no words are blamed at one of the arguments. -/
theorem parametersOf_error {arguments : List Node} {f : Fault}
    (he : parametersOf arguments = .error f) :
    ∃ n ∈ arguments, f = .misuse n.span Form.function.name "parameter names to be words" := by
  induction arguments with
  | nil => cases he
  | cons n rest ih =>
    unfold parametersOf at he
    split at he
    · rcases error_of_bind_eq_error he with he | ⟨_, _, he⟩
      · obtain ⟨p, hp, hf⟩ := ih he
        exact ⟨p, List.mem_cons_of_mem _ hp, hf⟩
      · cases he
    · cases he
      exact ⟨n, List.mem_cons_self, rfl⟩

theorem Rests.makeFunction (hm : m.Rests w) {operator : Node} {arguments : List Node} {span : Span}
    {scope : Ref} (hs : w.inside scope) (hn : w.node (.apply operator arguments span))
    (hname : operator.name? = some Form.function.name) :
    (m.makeFunction arguments span scope).Within w := by
  unfold Machine.makeFunction
  cases hlast : arguments.getLast? with
  | none => exact hm.fail ⟨operator, arguments, span, hn, hname, .inl rfl⟩
  | some body =>
    cases hp : parametersOf arguments.dropLast with
    | error f =>
      obtain ⟨n, hmem, rfl⟩ := parametersOf_error hp
      refine hm.fail ⟨operator, arguments, span, hn, hname, .inr ⟨n, ?_, rfl⟩⟩
      exact List.mem_of_mem_dropLast hmem
    | ok parameters =>
      have hbody : w.node body := by
        refine w.node_of_part _ _ hn (List.mem_cons_of_mem _ ?_)
        exact List.mem_of_getLast? hlast
      have hnew := hm.heap.newClosure (c := ⟨parameters, body, scope⟩) ⟨hs, hbody⟩
      exact (hm.change hnew.1).goto hnew.2

theorem Rests.startWrite (hm : m.Rests w) {operator : Node} {form : Form} (kind : Write)
    {arguments : List Node} {span : Span} {scope : Ref} (hs : w.inside scope)
    (hn : w.node (.apply operator arguments span)) (hname : operator.name? = some form.name) :
    (m.startWrite form kind arguments span scope).Within w := by
  have hpart : ∀ n ∈ arguments, w.node n := fun n hmem =>
    w.node_of_part _ n hn (List.mem_cons_of_mem _ hmem)
  unfold Machine.startWrite
  cases hparts : writeParts form arguments span with
  | error f =>
    unfold writeParts at hparts
    split at hparts
    · rename_i target node
      split at hparts
      · cases hparts
      · cases hparts
        exact hm.fail ⟨operator, _, span, hn, hname, .inr ⟨target, List.mem_cons_self, rfl⟩⟩
    · cases hparts
      exact hm.fail ⟨operator, _, span, hn, hname, .inl rfl⟩
  | ok parts =>
    unfold writeParts at hparts
    split at hparts
    · rename_i target node
      split at hparts
      · rename_i name hword
        cases hparts
        have htarget := hpart target List.mem_cons_self
        rw [Node.eq_word_of_name? hword] at htarget
        exact hm.await ⟨hpart node (by simp), hs⟩ ⟨hs, htarget⟩
      · cases hparts
    · cases hparts

theorem Rests.startForm (hm : m.Rests w) {operator : Node} {form : Form} {arguments : List Node}
    {span : Span} {scope : Ref} (hs : w.inside scope)
    (hn : w.node (.apply operator arguments span)) (hname : operator.name? = some form.name) :
    (m.startForm form arguments span scope).Within w := by
  have hpart : ∀ n ∈ arguments, w.node n := fun n hmem =>
    w.node_of_part _ n hn (List.mem_cons_of_mem _ hmem)
  have hmisuse : ∀ expected, (m.fail (.misuse span form.name expected)).Within w := fun _ =>
    hm.fail ⟨operator, arguments, span, hn, hname, .inl rfl⟩
  cases form with
  | choose =>
    dsimp only [Machine.startForm]
    split
    · exact hm.await ⟨hpart _ (by simp), hs⟩ ⟨hs, hpart _ (by simp), hpart _ (by simp)⟩
    · exact hmisuse _
  | loop =>
    dsimp only [Machine.startForm]
    split
    · exact hm.await ⟨hpart _ (by simp), hs⟩ ⟨hs, hpart _ (by simp), hpart _ (by simp)⟩
    · exact hmisuse _
  | sequence =>
    cases arguments with
    | nil => exact hm.goto within_nothing
    | cons first rest =>
      refine hm.await ⟨hpart first List.mem_cons_self, hs⟩ ⟨hs, within_nothing, fun n hmem => ?_⟩
      exact hpart n (List.mem_cons_of_mem _ hmem)
  | define => exact hm.startWrite _ hs hn hname
  | assign => exact hm.startWrite _ hs hn hname
  | function => exact hm.makeFunction hs hn hname

theorem name_of_ofName? {word : String} {form : Form} (hf : Form.ofName? word = some form) :
    word = form.name := by
  have hname := List.find?_some hf
  simp only [beq_iff_eq] at hname
  exact hname.symm

theorem Rests.startNode (hm : m.Rests w) {node : Node} {scope : Ref} (hs : w.inside scope)
    (hn : w.node node) : (m.startNode node scope).Within w := by
  cases node with
  | number x span => exact hm.goto (Value.within_of_refs_nil rfl)
  | text x span => exact hm.goto (Value.within_of_refs_nil rfl)
  | word name span => exact hm.lookup hs hn
  | apply operator arguments span =>
    dsimp only [Machine.startNode]
    split
    · rename_i form hform
      obtain ⟨word, hword, hform⟩ := Option.bind_eq_some_iff.mp hform
      exact hm.startForm hs hn (hword.trans (congrArg some (name_of_ofName? hform)))
    · have hoperator := w.node_of_part _ operator hn List.mem_cons_self
      exact hm.await ⟨hoperator, hs⟩ ⟨hs, operator, hn, rfl⟩

/-! ## Calls -/

theorem bindParameters_within {h : Heap} {r : Ref} (hw : h.Within w) (hr : w.start.cells.size ≤ r)
    (parameters : List (String × Span)) {arguments : List Value}
    (ha : ∀ v ∈ arguments, v.Within w) : (bindParameters h r parameters arguments).Within w := by
  induction parameters generalizing h arguments with
  | nil => exact hw
  | cons parameter parameters ih =>
    cases arguments with
    | nil => exact hw
    | cons v arguments =>
      exact ih (hw.bind_new hr parameter.1 (ha v List.mem_cons_self))
        fun x hx => ha x (List.mem_cons_of_mem _ hx)

theorem Rests.enter (hm : m.Rests w) {call : Call} {c : Closure} {function : Value}
    {arguments : List Value} (hcall : w.Calls call.span) (hc : c.Within w)
    (ha : ∀ v ∈ function :: arguments, v.Within w) :
    (m.enter call c function arguments).Within w := by
  unfold Machine.enter
  split_ifs
  · have hnew : w.start.cells.size ≤ (m.heap.child c.scope).2 := by
      rw [Heap.child, Heap.alloc, Heap.size_retain]
      exact hm.heap.size_le
    have hk := bindParameters_within (hm.heap.child hc.scope) hnew c.parameters
      fun v hv => ha v (List.mem_cons_of_mem _ hv)
    have hin := w.inside_of_new _ hnew
    have hleave : (Pending.leave (m.heap.child c.scope).2 (function :: arguments)).Within w :=
      ⟨hin, ha⟩
    exact (hm.change hk).await ⟨hc.body, hin⟩ hleave
  · exact (hm.forget _).fail (Fault.AtCall.about rfl hcall)

theorem Rests.callBuiltin (hm : m.Rests w) {call : Call} {f : Builtin} {function : Value}
    {arguments : List Value} (hcall : w.Calls call.span) (ha : ∀ v ∈ arguments, v.Within w) :
    (m.callBuiltin call f function arguments).Within w := by
  obtain ⟨hk, hvalue, hfault⟩ := f.apply_within hm.heap call.span ha m.out
  unfold Machine.callBuiltin
  split
  · rename_i heap out v heq
    rw [heq] at hk hvalue
    exact ⟨⟨hk.shrink (Heap.discardValues_shrinks _ _), hm.pending⟩, hvalue v rfl⟩
  · rename_i heap out fault heq
    rw [heq] at hk hfault
    exact ⟨⟨hk.shrink (Heap.discardValues_shrinks _ _), hm.pending⟩, (hfault fault rfl).about hcall⟩

theorem Rests.apply (hm : m.Rests w) {call : Call} {function : Value} {arguments : List Value}
    (hcall : w.Calls call.span) (hf : function.callable = true)
    (hvalid : function.ValidIn m.heap) (ha : ∀ v ∈ function :: arguments, v.Within w)
    (blamed : Span) : (m.apply call blamed function arguments).Within w := by
  cases function with
  | closure r =>
    obtain ⟨c, hc⟩ := hvalid
    have hr : w.inside r := ha _ List.mem_cons_self r (List.mem_singleton.mpr rfl)
    simp only [Machine.apply, Heap.closure?_eq_some_iff.mpr hc]
    exact hm.enter hcall (hm.heap.object r _ hr hc) ha
  | builtin f => exact hm.callBuiltin hcall fun v hv => ha v (List.mem_cons_of_mem _ hv)
  | bool | number | text | array => cases hf

theorem Rests.proceed (hm : m.Rests w) {call : Call} {function : Value} {before : List Value}
    {rest : List Node} {scope : Ref} (hs : w.inside scope) (hcall : w.Calls call.span)
    (hf : function.callable = true) (hvalid : function.ValidIn m.heap)
    (ha : ∀ v ∈ function :: before, v.Within w) (hrest : ∀ n ∈ rest, w.node n) :
    (m.proceed call function before rest scope).Within w := by
  cases rest with
  | nil =>
    refine hm.apply hcall hf hvalid (fun v hv => ha v ?_) call.span
    simpa using hv
  | cons node rest =>
    exact hm.await ⟨hrest node List.mem_cons_self, hs⟩
      ⟨hs, hcall, hf, ha, fun n hn => hrest n (List.mem_cons_of_mem _ hn)⟩

theorem Rests.write (hm : m.Rests w) {kind : Write} {target : Target} {scope : Ref} {v : Value}
    (hs : w.inside scope) (ht : w.node (.word target.name target.span)) (hv : v.Within w) :
    (m.write kind target scope v).Within w := by
  unfold Machine.write
  dsimp only
  split
  · rename_i heap hwritten
    have hk : heap.Within w := by
      cases kind with
      | define => exact hm.heap.define hs hv hwritten
      | assign => exact hm.heap.assign hs hv hwritten
    exact (hm.change hk).goto hv
  · rename_i e _
    cases e with
    | unbound => exact (hm.forget _).fail ht
    | isSealed => exact (hm.forget _).fail ht

/-! ## Steps -/

/-- A call ends: its frame is released, which frees objects and changes none that are left. -/
theorem Rests.leave (hm : m.Rests w) {frame : Ref} (hs : m.heap.Shrinks (m.heap.release frame))
    (kept : List Value) : ({ m with heap := m.heap.release frame }.forget kept).Rests w :=
  (hm.change (hm.heap.shrink hs)).forget kept

theorem resume_within {work : Pending} {v : Value} (hm : m.Rests w) (hwork : work.Within w)
    (hv : v.Within w) (hvalid : ∀ x ∈ v :: work.kept, x.ValidIn m.heap)
    (hrelease : ∀ r ∈ work.frames, m.heap.Shrinks (m.heap.release r)) :
    (m.resume work v).Within w := by
  cases work with
  | operator place call arguments scope =>
    obtain ⟨hs, node, hnode, rfl⟩ := hwork
    dsimp only [Machine.resume]
    split_ifs with hcallable
    · refine hm.proceed hs ⟨node, arguments, hnode⟩ hcallable (hvalid v List.mem_cons_self)
        (by simpa using hv) fun n hn => ?_
      exact w.node_of_part _ n hnode (List.mem_cons_of_mem _ hn)
    · exact (hm.forget _).fail ⟨node, arguments, hnode, rfl⟩
  | argument call function before rest scope =>
    obtain ⟨hs, hcall, hf, ha, hrest⟩ := hwork
    refine hm.proceed hs hcall hf (hvalid function ?_) (fun x hx => ?_) hrest
    · exact List.mem_cons_of_mem _ List.mem_cons_self
    · rcases List.mem_cons.mp hx with rfl | hx
      · exact ha _ List.mem_cons_self
      · rcases List.mem_cons.mp hx with rfl | hx
        · exact hv
        · exact ha x (List.mem_cons_of_mem _ hx)
  | choice yes no scope =>
    obtain ⟨hs, hyes, hno⟩ := hwork
    refine (hm.forget _).goto ⟨?_, hs⟩
    split_ifs
    · exact hyes
    · exact hno
  | test condition body scope =>
    obtain ⟨hs, hcondition, hbody⟩ := hwork
    dsimp only [Machine.resume]
    split_ifs
    · exact (hm.forget _).await ⟨hbody, hs⟩ ⟨hs, hcondition, hbody⟩
    · exact (hm.forget _).goto within_nothing
  | again condition body scope =>
    obtain ⟨hs, hcondition, hbody⟩ := hwork
    exact (hm.forget _).await ⟨hcondition, hs⟩ ⟨hs, hcondition, hbody⟩
  | next previous rest scope =>
    obtain ⟨hs, hprevious, hrest⟩ := hwork
    cases rest with
    | nil => exact (hm.forget _).goto hv
    | cons node rest =>
      refine (hm.forget _).await ⟨hrest node List.mem_cons_self, hs⟩ ⟨hs, hv, fun n hn => ?_⟩
      exact hrest n (List.mem_cons_of_mem _ hn)
  | write kind target scope => exact hm.write hwork.1 hwork.2 hv
  | leave frame kept =>
    exact (hm.leave (hrelease frame List.mem_cons_self) kept).goto hv

theorem unwind_within {work : Pending} {f : Fault} (hm : m.Rests w) (hf : f.About w.node)
    (hrelease : ∀ r ∈ work.frames, m.heap.Shrinks (m.heap.release r)) :
    (m.unwind work f).Within w := by
  cases work with
  | leave frame kept => exact (hm.leave (hrelease frame List.mem_cons_self) kept).fail hf
  | operator | argument | choice | test | again | next | write => exact (hm.forget _).fail hf

theorem Within.step {base : List Ref} {others : List Value} (hm : m.Within w)
    (hs : m.Sound base others) : m.step.Within w := by
  obtain ⟨⟨hheap, hpending⟩, hcontrol⟩ := hm
  obtain ⟨heap, out, control, pending⟩ := m
  cases control with
  | eval node scope => exact Rests.startNode ⟨hheap, hpending⟩ hcontrol.2 hcontrol.1
  | value v =>
    cases pending with
    | nil => exact ⟨⟨hheap, hpending⟩, hcontrol⟩
    | cons work pending =>
      obtain ⟨hwork, hrest⟩ := List.forall_mem_cons.mp hpending
      have hm : Rests w ⟨heap, out, .value .nothing, pending⟩ := ⟨hheap, hrest⟩
      exact resume_within hm hwork hcontrol hs.valid_of_first hs.release_shrinks
  | fault f =>
    cases pending with
    | nil => exact ⟨⟨hheap, hpending⟩, hcontrol⟩
    | cons work pending =>
      have hm : Rests w ⟨heap, out, .value .nothing, pending⟩ :=
        ⟨hheap, (List.forall_mem_cons.mp hpending).2⟩
      exact unwind_within hm hcontrol hs.release_shrinks

theorem Within.run {base : List Ref} {others : List Value} (fuel : ℕ) (hm : m.Within w)
    (hs : m.Sound base others) : (m.run fuel).Within w := by
  induction fuel generalizing m with
  | zero => exact hm
  | succ fuel ih =>
    unfold Machine.run
    split_ifs
    · exact hm
    · exact ih (hm.step hs) hs.step

end Machine

/-! ## Programs -/

/-- The realm of a program: its own nodes, and nothing but what it makes. -/
def Realm.ofProgram {h : Heap} (hg : h.object? Heap.global = some (.frame Heap.globalFrame))
    (program : Node) : Realm where
  start := h
  inside r := h.cells.size ≤ r
  node := program.Has
  global_lt := Heap.lt_size_of_object? hg
  inside_of_new _ hr := hr
  node_of_part _ _ hn hp := .part hn hp

theorem Machine.ofProgram_within {h : Heap}
    (hg : h.object? Heap.global = some (.frame Heap.globalFrame)) (out : Sink) (program : Node) :
    (ofProgram h out program).Within (Realm.ofProgram hg program) := by
  have hheap : (h.retain Heap.global).Within (Realm.ofProgram hg program) := by
    have hk := Heap.retain_shrinks h Heap.global
    refine ⟨hk.size_eq.ge, fun r o hr ho => ?_, fun o ho => ?_, fun r o _ ho => hk.object r o ho⟩
    · exact absurd (Heap.lt_size_of_object? (hk.object r o ho)) (not_lt.mpr hr)
    · have hold := (hk.object _ o ho).symm.trans hg
      cases hold
      rfl
  have hnew : (Object.frame ⟨[], some Heap.global, false⟩).Within (Realm.ofProgram hg program)
      (h.retain Heap.global).cells.size := by
    refine ⟨fun p hp => .inr (Option.some.inj hp).symm, fun _ => rfl, fun hlt => ?_, fun b hb => ?_⟩
    · rw [Heap.size_retain] at hlt
      exact absurd hlt (lt_irrefl _)
    · cases hb
  have hin := hheap.inside_size
  refine ⟨⟨hheap.alloc hnew, fun work hwork => ?_⟩, .self, hin⟩
  rw [List.mem_singleton.mp hwork]
  exact ⟨hin, fun v hv => absurd hv List.not_mem_nil⟩

end ApplyLang
