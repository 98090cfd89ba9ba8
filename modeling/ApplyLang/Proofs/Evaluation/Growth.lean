import ApplyLang.Evaluation.Program
import ApplyLang.Proofs.Memory.Change

/-!
# What an evaluation does to memory

Whatever an evaluation does, it does by changes of memory (`Heap.Changes`), step after step. So no
reference is given out twice, an object stays of its kind, and no sealed frame is made or written.

* `Machine.step_changes` — one step.
* `Machine.run_changes`, `Machine.finish?_changes` — an evaluation on its way and at its end.
-/

namespace ApplyLang

theorem Builtin.apply_changes (f : Builtin) (call : Span) (arguments : List Value) (h : Heap)
    (out : Sink) : h.Changes (f.apply call arguments h out).1 := by
  have hcopy : ∀ v, h.Changes (h.copy v) := fun v => (Heap.copy_shrinks h v).changes
  unfold Builtin.apply
  split
  · exact Heap.newArray_changes h arguments
  · split
    · exact .refl h
    · split
      · split
        · exact hcopy _
        · exact .refl h
      · exact hcopy _

namespace Machine

theorem forget_changes (m : Machine) (values : List Value) :
    m.heap.Changes (m.forget values).heap :=
  (Heap.discardValues_shrinks m.heap values).changes

theorem lookup_changes (m : Machine) (target : Target) (scope : Ref) :
    m.heap.Changes (m.lookup target scope).heap := by
  unfold lookup
  split
  · exact (Heap.copy_shrinks _ _).changes
  · exact .refl _

theorem makeFunction_changes (m : Machine) (arguments : List Node) (span : Span) (scope : Ref) :
    m.heap.Changes (m.makeFunction arguments span scope).heap := by
  unfold makeFunction
  split
  · exact .refl _
  · split
    · exact .refl _
    · exact Heap.newClosure_changes _ _

theorem startWrite_changes (m : Machine) (form : Form) (kind : Write) (arguments : List Node)
    (span : Span) (scope : Ref) :
    m.heap.Changes (m.startWrite form kind arguments span scope).heap := by
  unfold startWrite
  split <;> exact .refl _

theorem startForm_changes (m : Machine) (form : Form) (arguments : List Node) (span : Span)
    (scope : Ref) : m.heap.Changes (m.startForm form arguments span scope).heap := by
  cases form with
  | choose | loop | sequence =>
    dsimp only [startForm]
    split <;> exact .refl _
  | define | assign => exact startWrite_changes ..
  | function => exact makeFunction_changes ..

theorem startNode_changes (m : Machine) (node : Node) (scope : Ref) :
    m.heap.Changes (m.startNode node scope).heap := by
  cases node with
  | number | text => exact .refl _
  | word => exact lookup_changes ..
  | apply operator arguments span =>
    dsimp only [startNode]
    split
    · exact startForm_changes ..
    · exact .refl _

theorem bindParameters_changes {h : Heap} {r : Ref} (hr : h.isSealed r = false)
    (parameters : List (String × Span)) (arguments : List Value) :
    h.Changes (bindParameters h r parameters arguments) := by
  induction parameters generalizing h arguments with
  | nil => exact .refl h
  | cons parameter parameters ih =>
    cases arguments with
    | nil => exact .refl h
    | cons v arguments =>
      have hbind : h.Changes (h.bind r parameter.1 v) := .one (.bind hr parameter.1 v)
      exact hbind.trans (ih (hbind.isSealed_eq_false hr) arguments)

theorem enter_changes (m : Machine) (call : Call) (c : Closure) (function : Value)
    (arguments : List Value) : m.heap.Changes (m.enter call c function arguments).heap := by
  unfold enter
  split
  · exact (Heap.child_changes m.heap c.scope).trans
      (bindParameters_changes (Heap.isSealed_child m.heap c.scope) ..)
  · exact forget_changes m _

theorem callBuiltin_changes (m : Machine) (call : Call) (f : Builtin) (function : Value)
    (arguments : List Value) : m.heap.Changes (m.callBuiltin call f function arguments).heap := by
  have hk := f.apply_changes call.span arguments m.heap m.out
  unfold callBuiltin
  split <;> rename_i heq <;> rw [heq] at hk
  · exact hk.trans (Heap.discardValues_shrinks _ _).changes
  · exact hk.trans (Heap.discardValues_shrinks _ _).changes

theorem apply_changes (m : Machine) (call : Call) (blamed : Span) (function : Value)
    (arguments : List Value) : m.heap.Changes (m.apply call blamed function arguments).heap := by
  cases function with
  | closure r =>
    dsimp only [apply]
    split
    · exact enter_changes ..
    · exact forget_changes m _
  | builtin f => exact callBuiltin_changes ..
  | bool | number | text | array => exact forget_changes m _

theorem ofCall_changes (h : Heap) (out : Sink) (call : Call) (function : Value)
    (arguments : List Value) : h.Changes (ofCall h out call function arguments).heap :=
  apply_changes ⟨h, out, .value .nothing, []⟩ call call.span function arguments

theorem proceed_changes (m : Machine) (call : Call) (function : Value) (before : List Value)
    (rest : List Node) (scope : Ref) :
    m.heap.Changes (m.proceed call function before rest scope).heap := by
  cases rest with
  | nil => exact apply_changes ..
  | cons node rest => exact .refl _

theorem write_changes (m : Machine) (kind : Write) (target : Target) (scope : Ref) (v : Value) :
    m.heap.Changes (m.write kind target scope v).heap := by
  unfold write
  dsimp only
  split
  · rename_i heap hwritten
    cases kind with
    | define => exact Heap.define_changes hwritten
    | assign => exact Heap.assign_changes hwritten
  · exact forget_changes m _

theorem leave_changes (m : Machine) (frame : Ref) (kept : List Value) :
    m.heap.Changes ({ m with heap := m.heap.release frame }.forget kept).heap :=
  (Heap.release_changes m.heap frame).trans (Heap.discardValues_shrinks _ _).changes

theorem resume_changes (m : Machine) (work : Pending) (v : Value) :
    m.heap.Changes (m.resume work v).heap := by
  cases work with
  | operator operator call arguments scope =>
    dsimp only [resume]
    split
    · exact proceed_changes ..
    · exact forget_changes m _
  | argument => exact proceed_changes ..
  | choice => exact forget_changes m _
  | test =>
    dsimp only [resume]
    split <;> exact forget_changes m _
  | again => exact forget_changes m _
  | next previous rest scope =>
    cases rest with
    | nil => exact forget_changes m _
    | cons => exact forget_changes m _
  | write => exact write_changes ..
  | leave frame kept => exact leave_changes m frame kept

theorem unwind_changes (m : Machine) (work : Pending) (f : Fault) :
    m.heap.Changes (m.unwind work f).heap := by
  cases work with
  | leave frame kept => exact leave_changes m frame kept
  | operator | argument | choice | test | again | next | write => exact forget_changes m _

theorem step_changes (m : Machine) : m.heap.Changes m.step.heap := by
  obtain ⟨heap, out, control, pending⟩ := m
  cases control with
  | eval node scope => exact startNode_changes ..
  | value v =>
    cases pending with
    | nil => exact .refl _
    | cons work pending => exact resume_changes ⟨heap, out, .value .nothing, pending⟩ work v
  | fault f =>
    cases pending with
    | nil => exact .refl _
    | cons work pending => exact unwind_changes ⟨heap, out, .value .nothing, pending⟩ work f

theorem run_changes (fuel : ℕ) (m : Machine) : m.heap.Changes (m.run fuel).heap := by
  induction fuel generalizing m with
  | zero => exact .refl _
  | succ fuel ih =>
    unfold run
    split
    · exact .refl _
    · exact m.step_changes.trans (ih m.step)

theorem finish?_changes {fuel : ℕ} {m : Machine} {ended : Ended}
    (he : m.finish? fuel = some ended) : m.heap.Changes ended.heap := by
  obtain ⟨result, -, rfl⟩ := Option.map_eq_some_iff.mp he
  exact m.run_changes fuel

end Machine

end ApplyLang
