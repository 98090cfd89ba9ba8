import ApplyLang.Proofs.Reference.Evaluator
import ApplyLang.Proofs.Reference.Renaming

/-!
# Evaluation under other references

A machine that does not count and one that does, on memories that have given out other references,
take the same steps. What the first memory has besides is never asked for.

* `Machine.Mirrors` — the relation between the two machines.
* `Machine.Mirrors.step` — one step, of a machine whose handles memory serves.
* `Machine.Mirrors.finish?` — both end, with the same result up to references, or neither ends.
-/

namespace ApplyLang

/-! ## Writing to both memories -/

namespace Heap

variable {ρ : Ref → Ref} {h k : Heap} {outer : List Ref}

/-- The next reference that both memories give out. -/
theorem Renames.size_eq (hk : k.Renames ρ h) : k.cells.size = ρ h.cells.size :=
  (hk.next 0).symm

theorem Renames.alloc (hk : k.Renames ρ h) (o : Object) :
    (k.alloc (o.rename ρ)).1.Renames ρ (h.alloc o).1 := by
  refine ⟨?_, fun i => ?_, fun r p hp => ?_⟩
  · rw [size_alloc, size_alloc]
    exact Nat.succ_le_succ hk.size_le
  · rw [size_alloc, size_alloc, Nat.add_assoc, hk.next, Nat.add_assoc]
  · rw [object?_alloc] at hp ⊢
    split_ifs at hp with hr
    · cases hp
      rw [if_pos (hr ▸ hk.size_eq.symm)]
    · have hold := hk.object r p hp
      rw [if_neg (lt_size_of_object? hold).ne]
      exact hold

theorem Renames.replace (hk : k.Renames ρ h) (hρ : Function.Injective ρ) {r : Ref} {old : Object}
    (hr : h.object? r = some old) (o : Object) :
    (k.replace (ρ r) (o.rename ρ)).Renames ρ (h.replace r o) := by
  refine ⟨?_, fun i => ?_, fun s p hp => ?_⟩
  · rw [size_replace, size_replace]
    exact hk.size_le
  · rw [size_replace, size_replace]
    exact hk.next i
  · rw [object?_replace (alive_of_object? hr)] at hp
    rw [object?_replace (alive_of_object? (hk.object r old hr))]
    split_ifs at hp with hs
    · cases hp
      rw [if_pos (congrArg ρ hs)]
    · rw [if_neg fun heq => hs (hρ heq)]
      exact hk.object s p hp

theorem Renames.bind (hk : k.Renames ρ h) (hρ : Function.Injective ρ) {r : Ref} {f : Frame}
    (hf : h.object? r = some (.frame f)) (name : String) (v : Value) :
    (Reference.bind k (ρ r) name (v.rename ρ)).Renames ρ (h.bind r name v) := by
  rw [bind_of_frame hf]
  unfold Reference.bind
  rw [hk.frame hf]
  dsimp only
  rw [f.insert_rename]
  have hcopy := hk.shrink (copy_shrinks h v)
  have hreplace := hcopy.replace hρ ((object?_copy h v r).trans hf) (.frame (f.insert name v))
  exact hreplace.shrink (discardValues_shrinks _ _)

theorem Renames.child (hk : k.Renames ρ h) (r : Ref) :
    (Reference.child k (ρ r)).1.Renames ρ (h.child r).1 ∧
      (Reference.child k (ρ r)).2 = ρ (h.child r).2 :=
  have hr := hk.shrink (retain_shrinks h r)
  ⟨hr.alloc (.frame ⟨[], some r, false⟩), hr.size_eq⟩

theorem Renames.newClosure (hk : k.Renames ρ h) (c : Closure) :
    (Reference.newClosure k (c.rename ρ)).1.Renames ρ (h.newClosure c).1 ∧
      (Reference.newClosure k (c.rename ρ)).2 = (h.newClosure c).2.rename ρ :=
  have hr := hk.shrink (retain_shrinks h c.scope)
  ⟨hr.alloc (.closure c), congrArg Value.closure hr.size_eq⟩

theorem Renames.newArray (hk : k.Renames ρ h) (items : List Value) :
    (Reference.newArray k (items.map (Value.rename ρ))).1.Renames ρ (h.newArray items).1 ∧
      (Reference.newArray k (items.map (Value.rename ρ))).2 = (h.newArray items).2.rename ρ := by
  have hr := hk.shrink (retainAll_shrinks h (items.flatMap Value.handles))
  refine ⟨hr.alloc (.array items), ?_⟩
  show Value.array _ _ = Value.rename ρ (.array _ items)
  rw [Value.rename_array]
  exact congrArg (Value.array · (items.map (Value.rename ρ))) hr.size_eq

/-- Both ways to write are refused, or both bind the name in the same frame. -/
theorem Renames.define (hk : k.Renames ρ h) (hρ : Function.Injective ρ) {r : Ref} {f : Frame}
    (hf : h.object? r = some (.frame f)) (name : String) (v : Value) :
    (∃ e, Reference.define k (ρ r) name (v.rename ρ) = .error e ∧ h.define r name v = .error e) ∨
      ∃ k' h', Reference.define k (ρ r) name (v.rename ρ) = .ok k' ∧ h.define r name v = .ok h' ∧
        k'.Renames ρ h' := by
  unfold Reference.define Heap.define
  rw [hk.isSealed_eq hf]
  split_ifs
  · exact .inl ⟨_, rfl, rfl⟩
  · exact .inr ⟨_, _, rfl, rfl, hk.bind hρ hf name v⟩

theorem Renames.assign (hk : k.Renames ρ h) (hρ : Function.Injective ρ) (hb : h.Balanced outer)
    {scope : Ref} {f : Frame} (hf : h.object? scope = some (.frame f)) (name : String)
    (v : Value) :
    (∃ e, Reference.assign k (ρ scope) name (v.rename ρ) = .error e ∧
        h.assign scope name v = .error e) ∨
      ∃ k' h', Reference.assign k (ρ scope) name (v.rename ρ) = .ok k' ∧
        h.assign scope name v = .ok h' ∧ k'.Renames ρ h' := by
  unfold Reference.assign Heap.assign
  rw [hk.owner?_eq hb hf]
  cases ho : h.owner? scope name with
  | none => exact .inl ⟨_, rfl, rfl⟩
  | some r =>
    obtain ⟨g, hg⟩ := exists_frame_of_owns (owns_of_owner? ho)
    exact hk.define hρ hg name v

end Heap

/-! ## Machines -/

/-- The control with other references. -/
def Control.rename (ρ : Ref → Ref) : Control → Control
  | eval node scope => eval node (ρ scope)
  | value v => value (v.rename ρ)
  | fault f => fault f

/-- The work with other references. -/
def Pending.rename (ρ : Ref → Ref) : Pending → Pending
  | operator place call arguments scope => operator place call arguments (ρ scope)
  | argument call function before rest scope =>
    argument call (function.rename ρ) (before.map (Value.rename ρ)) rest (ρ scope)
  | choice yes no scope => choice yes no (ρ scope)
  | test condition body scope => test condition body (ρ scope)
  | again condition body scope => again condition body (ρ scope)
  | next previous rest scope => next (previous.rename ρ) rest (ρ scope)
  | write kind target scope => write kind target (ρ scope)
  | leave frame kept => leave (ρ frame) (kept.map (Value.rename ρ))

namespace Machine

/-- A machine that counts and one that does not are in the same state, up to references. -/
structure Mirrors (ρ : Ref → Ref) (n m : Machine) : Prop where
  heap : n.heap.Renames ρ m.heap
  out : n.out = m.out
  control : n.control = m.control.rename ρ
  pending : n.pending = m.pending.map (Pending.rename ρ)

/-- The machine on another memory, with other references. -/
def rename (ρ : Ref → Ref) (m : Machine) (k : Heap) : Machine :=
  ⟨k, m.out, m.control.rename ρ, m.pending.map (Pending.rename ρ)⟩

variable {ρ : Ref → Ref} {base : List Ref} {others hand : List Value} {m : Machine} {k : Heap}

theorem Holds.lookup_mirrors (hm : m.Holds base others hand) (hk : k.Renames ρ m.heap)
    (target : Target) {scope : Ref} (hs : scope ∈ m.frames ++ base) :
    Mirrors ρ (Reference.lookup (m.rename ρ k) target (ρ scope)) (m.lookup target scope) := by
  obtain ⟨f, hf⟩ := hm.serves.frame scope hs
  unfold Reference.lookup Machine.lookup Machine.rename
  dsimp only
  rw [hk.find?_eq hm.serves.balanced hf]
  cases m.heap.find? scope target.name with
  | none => exact ⟨hk, rfl, rfl, rfl⟩
  | some v => exact ⟨hk.shrink (Heap.copy_shrinks _ v), rfl, rfl, rfl⟩

theorem makeFunction_mirrors (hk : k.Renames ρ m.heap) (arguments : List Node) (span : Span)
    (scope : Ref) :
    Mirrors ρ (Reference.makeFunction (m.rename ρ k) arguments span (ρ scope))
      (m.makeFunction arguments span scope) := by
  unfold Reference.makeFunction Machine.makeFunction
  cases arguments.getLast? with
  | none => exact ⟨hk, rfl, rfl, rfl⟩
  | some body =>
    cases parametersOf arguments.dropLast with
    | error f => exact ⟨hk, rfl, rfl, rfl⟩
    | ok parameters =>
      obtain ⟨hheap, hv⟩ := hk.newClosure ⟨parameters, body, scope⟩
      exact ⟨hheap, rfl, congrArg Control.value hv, rfl⟩

theorem startWrite_mirrors (hk : k.Renames ρ m.heap) (form : Form) (kind : Write)
    (arguments : List Node) (span : Span) (scope : Ref) :
    Mirrors ρ ((m.rename ρ k).startWrite form kind arguments span (ρ scope))
      (m.startWrite form kind arguments span scope) := by
  unfold Machine.startWrite
  cases writeParts form arguments span <;> exact ⟨hk, rfl, rfl, rfl⟩

theorem startForm_mirrors (hk : k.Renames ρ m.heap) (form : Form) (arguments : List Node)
    (span : Span) (scope : Ref) :
    Mirrors ρ (Reference.startForm (m.rename ρ k) form arguments span (ρ scope))
      (m.startForm form arguments span scope) := by
  cases form with
  | choose | loop | sequence =>
    dsimp only [Reference.startForm, Machine.startForm]
    split <;> exact ⟨hk, rfl, rfl, rfl⟩
  | define | assign => exact startWrite_mirrors hk _ _ _ _ _
  | function => exact makeFunction_mirrors hk _ _ _

theorem Holds.startNode_mirrors (hm : m.Holds base others hand) (hk : k.Renames ρ m.heap)
    (node : Node) {scope : Ref} (hs : scope ∈ m.frames ++ base) :
    Mirrors ρ (Reference.startNode (m.rename ρ k) node (ρ scope)) (m.startNode node scope) := by
  cases node with
  | number | text => exact ⟨hk, rfl, rfl, rfl⟩
  | word name span => exact hm.lookup_mirrors hk _ hs
  | apply operator arguments span =>
    dsimp only [Reference.startNode, Machine.startNode]
    cases operator.name?.bind Form.ofName? with
    | some form => exact startForm_mirrors hk form arguments span scope
    | none => exact ⟨hk, rfl, rfl, rfl⟩

/-! ## Calls -/

theorem bindParameters_renames {h : Heap} {frames : List Ref} {values : List Value}
    (hρ : Function.Injective ρ) (hs : h.Serves frames values) (hk : k.Renames ρ h) {r : Ref}
    (hr : r ∈ frames) (parameters : List (String × Span)) (arguments : List Value)
    (ha : ∀ v ∈ arguments, v ∈ values) :
    (Reference.bindParameters k (ρ r) parameters (arguments.map (Value.rename ρ))).Renames ρ
      (bindParameters h r parameters arguments) := by
  induction parameters generalizing h k arguments with
  | nil => exact hk
  | cons parameter parameters ih =>
    cases arguments with
    | nil => exact hk
    | cons v arguments =>
      obtain ⟨f, hf⟩ := hs.frame r hr
      have hv := hs.value v (ha v List.mem_cons_self)
      exact ih (hs.bind hf hv) (hk.bind hρ hf parameter.1 v) arguments
        fun w hw => ha w (List.mem_cons_of_mem _ hw)

theorem Holds.enter_mirrors (hρ : Function.Injective ρ) {call : Call} {c : Closure}
    {function : Value} {arguments : List Value} {f : Frame}
    (hm : m.Holds base others (function :: arguments)) (hk : k.Renames ρ m.heap)
    (hc : m.heap.object? c.scope = some (.frame f)) :
    Mirrors ρ (Reference.enter (m.rename ρ k) call (c.rename ρ) (function.rename ρ)
      (arguments.map (Value.rename ρ))) (m.enter call c function arguments) := by
  unfold Reference.enter Machine.enter
  rw [List.length_map]
  split_ifs with hlength hlength' hlength'
  · obtain ⟨hchild, href⟩ := hk.child c.scope
    have hbind := bindParameters_renames hρ (hm.serves.child hc) hchild List.mem_cons_self
      c.parameters arguments fun v hv => List.mem_append_left _ (List.mem_cons_of_mem _ hv)
    rw [← href] at hbind
    refine ⟨hbind, rfl, congrArg (Control.eval c.body) href, ?_⟩
    exact congrArg (Pending.leave · ((function :: arguments).map (Value.rename ρ)) ::
      m.pending.map (Pending.rename ρ)) href
  · exact absurd hlength hlength'
  · exact absurd hlength' hlength
  · exact ⟨hk.shrink (Heap.discardValues_shrinks _ _), rfl, rfl, rfl⟩

/-- The effects and the results of two calls of a built-in function. -/
structure BuiltinMirrors (ρ : Ref → Ref) (n m : Heap × Sink × Except Fault Value) : Prop where
  heap : n.1.Renames ρ m.1
  out : n.2.1 = m.2.1
  result : n.2.2 = m.2.2.map (Value.rename ρ)

theorem applyBuiltin_mirrors {h : Heap} {frames : List Ref} {values : List Value}
    (hρ : Function.Injective ρ) (hs : h.Serves frames values) (hk : k.Renames ρ h) (f : Builtin)
    (call : Span) {arguments : List Value} (ha : ∀ v ∈ arguments, v.ValidIn h) (out : Sink) :
    BuiltinMirrors ρ (Reference.applyBuiltin f call (arguments.map (Value.rename ρ)) k out)
      (f.apply call arguments h out) := by
  have hcopy : ∀ v, k.Renames ρ (h.copy v) := fun v => hk.shrink (Heap.copy_shrinks h v)
  cases f with
  | array =>
    obtain ⟨hheap, hv⟩ := hk.newArray arguments
    exact ⟨hheap, rfl, congrArg Except.ok hv⟩
  | print =>
    dsimp only [Reference.applyBuiltin, Builtin.apply]
    rw [Builtin.compute_rename hρ]
    cases hcompute : Builtin.compute .print call arguments with
    | error fault => exact ⟨hk, rfl, rfl⟩
    | ok v =>
      have hline : Builtin.lineOf k (v.rename ρ) = Builtin.lineOf h v := by
        rw [Builtin.lineOf, hk.display_eq hs.balanced (Builtin.compute_valid hs ha hcompute),
          Builtin.lineOf]
      simp only [Except.map, if_true, hline]
      generalize out.write (Builtin.lineOf h v) = written
      obtain ⟨out', taken⟩ := written
      cases taken with
      | true => exact ⟨hcopy v, rfl, rfl⟩
      | false => exact ⟨hk, rfl, rfl⟩
  | _ =>
    dsimp only [Reference.applyBuiltin, Builtin.apply]
    rw [Builtin.compute_rename hρ]
    generalize Builtin.compute _ call arguments = result
    cases result with
    | error fault => exact ⟨hk, rfl, rfl⟩
    | ok v => exact ⟨hcopy v, rfl, rfl⟩

theorem Holds.callBuiltin_mirrors (hρ : Function.Injective ρ) {call : Call} {function : Value}
    {arguments : List Value} (hm : m.Holds base others (function :: arguments))
    (hk : k.Renames ρ m.heap) (f : Builtin) :
    Mirrors ρ (Reference.callBuiltin (m.rename ρ k) call f (arguments.map (Value.rename ρ)))
      (m.callBuiltin call f function arguments) := by
  have hvalid : ∀ v ∈ arguments, v.ValidIn m.heap := fun v hv =>
    hm.serves.value v (List.mem_append_left _ (List.mem_cons_of_mem _ hv))
  obtain ⟨hheap, hout, hresult⟩ :=
    applyBuiltin_mirrors hρ hm.serves hk f call.span hvalid m.out
  unfold Reference.callBuiltin Machine.callBuiltin
  dsimp only [Machine.rename]
  generalize Reference.applyBuiltin f call.span (arguments.map (Value.rename ρ)) k m.out = n
    at hheap hout hresult
  generalize f.apply call.span arguments m.heap m.out = n' at hheap hout hresult
  obtain ⟨k', out', result'⟩ := n
  obtain ⟨h', out, result⟩ := n'
  cases hout
  cases hresult
  have hdiscard := hheap.shrink (Heap.discardValues_shrinks h' (function :: arguments))
  cases result with
  | error fault => exact ⟨hdiscard, rfl, rfl, rfl⟩
  | ok v => exact ⟨hdiscard, rfl, rfl, rfl⟩

theorem Holds.apply_mirrors (hρ : Function.Injective ρ) {function : Value} {arguments : List Value}
    (hm : m.Holds base others (function :: arguments)) (hk : k.Renames ρ m.heap) (call : Call)
    (blamed : Span) :
    Mirrors ρ (Reference.apply (m.rename ρ k) call blamed (function.rename ρ)
      (arguments.map (Value.rename ρ))) (m.apply call blamed function arguments) := by
  have hforget : k.Renames ρ (m.forget (function :: arguments)).heap :=
    hk.shrink (Heap.discardValues_shrinks _ _)
  have hvalid : function.ValidIn m.heap := hm.serves.value _ List.mem_cons_self
  cases function with
  | closure r =>
    obtain ⟨c, hc⟩ := hvalid
    obtain ⟨f, hf⟩ := hm.serves.balanced.valid r _ hc
    simp only [Reference.apply, Machine.apply, Machine.rename, Value.rename, hk.closure hc,
      Heap.closure?_eq_some_iff.mpr hc]
    exact hm.enter_mirrors hρ hk hf
  | builtin f => exact hm.callBuiltin_mirrors hρ hk f
  | bool | number | text | array => exact ⟨hforget, rfl, rfl, rfl⟩

theorem Holds.proceed_mirrors (hρ : Function.Injective ρ) {function : Value} {before : List Value}
    (hm : m.Holds base others (function :: before)) (hk : k.Renames ρ m.heap) (call : Call)
    (rest : List Node) (scope : Ref) :
    Mirrors ρ (Reference.proceed (m.rename ρ k) call (function.rename ρ)
      (before.map (Value.rename ρ)) rest (ρ scope)) (m.proceed call function before rest scope) := by
  cases rest with
  | nil =>
    dsimp only [Reference.proceed, Machine.proceed]
    rw [← List.map_reverse]
    exact (hm.perm (before.reverse_perm.cons function)).apply_mirrors hρ hk call call.span
  | cons node rest => exact ⟨hk, rfl, rfl, rfl⟩

theorem Holds.write_mirrors (hρ : Function.Injective ρ) {v : Value} {scope : Ref}
    (hm : m.Holds base others [v]) (hk : k.Renames ρ m.heap) (hs : scope ∈ m.frames ++ base)
    (kind : Write) (target : Target) :
    Mirrors ρ (Reference.write (m.rename ρ k) kind target (ρ scope) (v.rename ρ))
      (m.write kind target scope v) := by
  obtain ⟨f, hf⟩ := hm.serves.frame scope hs
  have hforget : k.Renames ρ (m.forget [v]).heap := hk.shrink (Heap.discardValues_shrinks _ _)
  cases kind with
  | define =>
    rcases hk.define hρ hf target.name v with ⟨e, hn, hm⟩ | ⟨k', h', hn, hm, hk'⟩
    · simp only [Reference.write, Machine.write, Machine.rename, hn, hm]
      exact ⟨hforget, rfl, rfl, rfl⟩
    · simp only [Reference.write, Machine.write, Machine.rename, hn, hm]
      exact ⟨hk', rfl, rfl, rfl⟩
  | assign =>
    rcases hk.assign hρ hm.serves.balanced hf target.name v with
      ⟨e, hn, hm⟩ | ⟨k', h', hn, hm, hk'⟩
    · simp only [Reference.write, Machine.write, Machine.rename, hn, hm]
      exact ⟨hforget, rfl, rfl, rfl⟩
    · simp only [Reference.write, Machine.write, Machine.rename, hn, hm]
      exact ⟨hk', rfl, rfl, rfl⟩

/-! ## Steps -/

theorem resume_mirrors (hρ : Function.Injective ρ) {work : Pending} {v : Value}
    (hk : k.Renames ρ m.heap) (hw : ∀ s ∈ work.scopes, s ∈ m.frames ++ base)
    (ha : Anchored base m.pending)
    (hs : m.heap.Serves (work.frames ++ (m.frames ++ base))
      (v :: (work.kept ++ (m.kept ++ others)))) :
    Mirrors ρ (Reference.resume (m.rename ρ k) (work.rename ρ) (v.rename ρ)) (m.resume work v) := by
  have hforget : ∀ vs, k.Renames ρ (m.forget vs).heap := fun vs =>
    hk.shrink (Heap.discardValues_shrinks _ vs)
  cases work with
  | operator place call arguments scope =>
    have hm : m.Holds base others [v] := ⟨hs, ha⟩
    dsimp only [Reference.resume, Machine.resume, Pending.rename]
    rw [Value.callable_rename, Value.typeName_rename]
    split_ifs
    · exact hm.proceed_mirrors hρ hk call arguments scope
    · exact ⟨hforget [v], rfl, rfl, rfl⟩
  | argument call function before rest scope =>
    have hm : m.Holds base others (v :: function :: before) := ⟨hs, ha⟩
    exact (hm.perm (.swap v function before)).proceed_mirrors hρ hk call rest scope
  | choice yes no scope =>
    dsimp only [Reference.resume, Machine.resume, Pending.rename]
    rw [Value.truthy_rename]
    exact ⟨hforget [v], rfl, rfl, rfl⟩
  | test condition body scope =>
    dsimp only [Reference.resume, Machine.resume, Pending.rename]
    rw [Value.truthy_rename]
    split_ifs
    · exact ⟨hforget [v], rfl, rfl, rfl⟩
    · exact ⟨hforget [v], rfl, rfl, rfl⟩
  | again => exact ⟨hforget [v], rfl, rfl, rfl⟩
  | next previous rest scope =>
    cases rest with
    | nil => exact ⟨hforget [previous], rfl, rfl, rfl⟩
    | cons node rest => exact ⟨hforget [previous], rfl, rfl, rfl⟩
  | write kind target scope =>
    have hm : m.Holds base others [v] := ⟨hs, ha⟩
    exact hm.write_mirrors hρ hk (hw scope (by simp [Pending.scopes])) kind target
  | leave frame kept =>
    -- the only place where counting looks for cycles: what is left of memory has not changed
    have hrelease : m.heap.Shrinks (m.heap.release frame) := Heap.Balanced.release_shrinks hs.balanced
    exact ⟨hk.shrink (hrelease.trans (Heap.discardValues_shrinks _ kept)), rfl, rfl, rfl⟩

theorem unwind_shrinks {work : Pending} {f : Fault} {values : List Value}
    (hs : m.heap.Serves (work.frames ++ (m.frames ++ base)) values) :
    m.heap.Shrinks (m.unwind work f).heap := by
  cases work with
  | leave frame kept =>
    have hrelease : m.heap.Shrinks (m.heap.release frame) := Heap.Balanced.release_shrinks hs.balanced
    exact hrelease.trans (Heap.discardValues_shrinks _ kept)
  | operator | argument | choice | test | again | next | write =>
    exact Heap.discardValues_shrinks _ _

variable {n : Machine}

theorem Mirrors.eq_rename (hn : Mirrors ρ n m) : n = m.rename ρ n.heap := by
  rw [Machine.rename, ← hn.out, ← hn.control, ← hn.pending]

theorem Mirrors.step (hρ : Function.Injective ρ) (hn : Mirrors ρ n m) (hm : m.Sound base others) :
    Mirrors ρ (Reference.step n) m.step := by
  obtain ⟨⟨hs, ha⟩, hscopes⟩ := hm
  have hk := hn.heap
  rw [hn.eq_rename]
  generalize n.heap = k at hk
  obtain ⟨heap, out, control, pending⟩ := m
  cases control with
  | eval node scope =>
    have hholds : Holds base others [] ⟨heap, out, .value .nothing, pending⟩ := ⟨hs, ha⟩
    exact hholds.startNode_mirrors hk node (hscopes scope (by simp [Control.scopes]))
  | value v =>
    cases pending with
    | nil => exact ⟨hk, rfl, rfl, rfl⟩
    | cons work pending =>
      have hserves : heap.Serves (work.frames ++ (pending.flatMap Pending.frames ++ base))
          (v :: (work.kept ++ (pending.flatMap Pending.kept ++ others))) := by
        simpa [Machine.frames, Machine.kept, Control.values] using hs
      exact resume_mirrors (m := ⟨heap, out, .value .nothing, pending⟩) hρ hk ha.1 ha.2 hserves
  | fault f =>
    cases pending with
    | nil => exact ⟨hk, rfl, rfl, rfl⟩
    | cons work pending =>
      have hserves : heap.Serves (work.frames ++ (pending.flatMap Pending.frames ++ base))
          (work.kept ++ (pending.flatMap Pending.kept ++ others)) := by
        simpa [Machine.frames, Machine.kept, Control.values] using hs
      have hunwind := unwind_shrinks (m := ⟨heap, out, .value .nothing, pending⟩) (f := f) hserves
      cases work <;> exact ⟨hk.shrink hunwind, rfl, rfl, rfl⟩

theorem Mirrors.result?_eq (hn : Mirrors ρ n m) :
    n.result? = m.result?.map (Except.map (Value.rename ρ)) := by
  rw [hn.eq_rename]
  obtain ⟨heap, out, control, pending⟩ := m
  cases control <;> cases pending <;> rfl

theorem Mirrors.run (hρ : Function.Injective ρ) (hn : Mirrors ρ n m) (hm : m.Sound base others)
    (fuel : ℕ) : Mirrors ρ (Reference.run fuel n) (m.run fuel) := by
  induction fuel generalizing n m with
  | zero => exact hn
  | succ fuel ih =>
    unfold Reference.run Machine.run
    rw [hn.result?_eq, Option.isSome_map]
    split_ifs
    · exact hn
    · exact ih (hn.step hρ hm) hm.step

end Machine

/-- Two evaluations have ended in the same way, up to references. -/
structure Ended.Mirrors (ρ : Ref → Ref) (n m : Ended) : Prop where
  heap : n.heap.Renames ρ m.heap
  out : n.out = m.out
  result : n.result = m.result.map (Value.rename ρ)

theorem Machine.Mirrors.finish? {ρ : Ref → Ref} {base : List Ref} {others : List Value}
    {n m : Machine} (hρ : Function.Injective ρ) (hn : Mirrors ρ n m) (hm : m.Sound base others)
    (fuel : ℕ) : Option.Rel (Ended.Mirrors ρ) (Reference.finish? fuel n) (m.finish? fuel) := by
  have hrun := hn.run hρ hm fuel
  unfold Reference.finish? Machine.finish?
  dsimp only
  rw [hrun.result?_eq]
  cases (m.run fuel).result? with
  | none => exact .none
  | some result => exact .some ⟨hrun.heap, hrun.out, rfl⟩

end ApplyLang
