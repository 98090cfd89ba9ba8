import ApplyLang.Evaluation.Program
import Mathlib.Tactic.SplitIfs
import Mathlib.Order.Basic

/-!
# How an evaluation ends

Fuel is there so that a run is a function. What it computes is a relation between a machine and its
end, in which no fuel occurs.

* `Machine.Finishes` — a machine gets to an end, step by step.
* `Machine.finishes_iff` — with enough fuel a run gets there.
* `Machine.finishes_of_fault` — a fault always gets to the end.
* `Machine.Leaving` — the last piece of work that waits gets its value or fault, which comes before
  every end (`Machine.Finishes.leaving`).
* `Program.Ends` — a program ends, with some fuel.
-/

namespace ApplyLang

namespace Machine

/-- A machine gets to an end. -/
inductive Finishes : Machine → Ended → Prop
  | here {m : Machine} {result : Except Fault Value} (hm : m.result? = some result) :
      Finishes m ⟨m.heap, m.out, result⟩
  | step {m : Machine} {ended : Ended} (hm : m.result? = none) (hs : Finishes m.step ended) :
      Finishes m ended

variable {m : Machine}

theorem run_of_ended {result : Except Fault Value} (hm : m.result? = some result) (fuel : ℕ) :
    m.run fuel = m := by
  cases fuel with
  | zero => rfl
  | succ fuel =>
    rw [run, hm]
    rfl

theorem run_succ (hm : m.result? = none) (fuel : ℕ) : m.run (fuel + 1) = m.step.run fuel := by
  rw [run, hm]
  rfl

theorem run_of_le {a b : ℕ} {result : Except Fault Value} (hm : (m.run a).result? = some result)
    (hab : a ≤ b) : m.run b = m.run a := by
  induction a generalizing m b with
  | zero => exact run_of_ended hm b
  | succ a ih =>
    cases hr : m.result? with
    | some result => rw [run_of_ended hr, run_of_ended hr]
    | none =>
      obtain ⟨b, rfl⟩ := Nat.exists_eq_add_of_le' (Nat.one_le_of_lt hab)
      rw [run_succ hr] at hm ⊢
      rw [run_succ hr]
      exact ih hm (Nat.le_of_succ_le_succ hab)

theorem finishes_iff {ended : Ended} : m.Finishes ended ↔ ∃ fuel, m.finish? fuel = some ended := by
  constructor
  · intro hf
    induction hf with
    | here hm => exact ⟨0, congrArg (Option.map _) hm⟩
    | step hm _ ih =>
      obtain ⟨fuel, he⟩ := ih
      refine ⟨fuel + 1, ?_⟩
      rw [finish?, run_succ hm]
      exact he
  · rintro ⟨fuel, he⟩
    induction fuel generalizing m with
    | zero =>
      obtain ⟨result, hm, rfl⟩ := Option.map_eq_some_iff.mp he
      exact .here hm
    | succ fuel ih =>
      cases hm : m.result? with
      | some result =>
        rw [finish?, run_of_ended hm, hm] at he
        cases he
        exact .here hm
      | none =>
        rw [finish?, run_succ hm] at he
        exact .step hm (ih he)

theorem control_of_error {f : Fault} (hm : m.result? = some (.error f)) : m.control = .fault f := by
  unfold result? at hm
  split at hm
  · cases hm
  · rename_i hcontrol _
    cases hm
    exact hcontrol
  · cases hm

theorem Finishes.unique {x y : Ended} (hx : m.Finishes x) (hy : m.Finishes y) : x = y := by
  induction hx with
  | here hm =>
    cases hy with
    | here hm' =>
      cases hm.symm.trans hm'
      rfl
    | step hm' => cases hm.symm.trans hm'
  | step hm _ ih =>
    cases hy with
    | here hm' => cases hm.symm.trans hm'
    | step _ hs => exact ih hs

theorem Finishes.run {ended : Ended} (hf : m.Finishes ended) (fuel : ℕ) :
    (m.run fuel).Finishes ended := by
  induction fuel generalizing m with
  | zero => exact hf
  | succ fuel ih =>
    cases hf with
    | here hm =>
      rw [run_of_ended hm]
      exact .here hm
    | step hm hs =>
      rw [run_succ hm]
      exact ih hs

/-- A fault passes by all that waits, and nothing is printed on the way. -/
theorem finishes_of_fault {f : Fault} (hm : m.control = .fault f) :
    ∃ h, m.Finishes ⟨h, m.out, .error f⟩ := by
  obtain ⟨heap, out, control, pending⟩ := m
  cases hm
  induction pending generalizing heap with
  | nil => exact ⟨heap, .here rfl⟩
  | cons work pending ih =>
    have hstep : ∃ k, step ⟨heap, out, .fault f, work :: pending⟩ = ⟨k, out, .fault f, pending⟩ := by
      cases work <;> exact ⟨_, rfl⟩
    obtain ⟨k, hk⟩ := hstep
    obtain ⟨h, hh⟩ := ih k
    refine ⟨h, .step rfl ?_⟩
    rw [hk]
    exact hh

/-! ## What waits -/

theorem startWrite_pending (form : Form) (kind : Write) (arguments : List Node) (span : Span)
    (scope : Ref) : m.pending <:+ (m.startWrite form kind arguments span scope).pending := by
  unfold startWrite
  split
  · exact List.suffix_cons _ _
  · exact List.suffix_rfl

theorem makeFunction_pending (arguments : List Node) (span : Span) (scope : Ref) :
    m.pending <:+ (m.makeFunction arguments span scope).pending := by
  unfold makeFunction
  split
  · exact List.suffix_rfl
  · split <;> exact List.suffix_rfl

theorem startForm_pending (form : Form) (arguments : List Node) (span : Span) (scope : Ref) :
    m.pending <:+ (m.startForm form arguments span scope).pending := by
  cases form with
  | choose | loop =>
    dsimp only [startForm]
    split
    · exact List.suffix_cons _ _
    · exact List.suffix_rfl
  | sequence =>
    cases arguments with
    | nil => exact List.suffix_rfl
    | cons first rest => exact List.suffix_cons _ _
  | define | assign => exact startWrite_pending _ _ arguments span scope
  | function => exact makeFunction_pending arguments span scope

theorem startNode_pending (node : Node) (scope : Ref) :
    m.pending <:+ (m.startNode node scope).pending := by
  cases node with
  | number | text => exact List.suffix_rfl
  | word name span =>
    dsimp only [startNode, lookup]
    split <;> exact List.suffix_rfl
  | apply operator arguments span =>
    dsimp only [startNode]
    split
    · exact startForm_pending _ arguments span scope
    · exact List.suffix_cons _ _

theorem callBuiltin_pending (call : Call) (f : Builtin) (function : Value) (arguments : List Value) :
    m.pending <:+ (m.callBuiltin call f function arguments).pending := by
  unfold callBuiltin
  split <;> exact List.suffix_rfl

theorem apply_pending (call : Call) (blamed : Span) (function : Value) (arguments : List Value) :
    m.pending <:+ (m.apply call blamed function arguments).pending := by
  cases function with
  | closure r =>
    dsimp only [apply]
    split
    · unfold enter
      split_ifs
      · exact List.suffix_cons _ _
      · exact List.suffix_rfl
    · exact List.suffix_rfl
  | builtin f => exact callBuiltin_pending call f _ arguments
  | bool | number | text | array => exact List.suffix_rfl

theorem proceed_pending (call : Call) (function : Value) (before : List Value) (rest : List Node)
    (scope : Ref) : m.pending <:+ (m.proceed call function before rest scope).pending := by
  cases rest with
  | nil => exact apply_pending call call.span function before.reverse
  | cons node rest => exact List.suffix_cons _ _

theorem resume_pending (work : Pending) (v : Value) : m.pending <:+ (m.resume work v).pending := by
  cases work with
  | operator place call arguments scope =>
    dsimp only [resume]
    split_ifs
    · exact proceed_pending call v [] arguments scope
    · exact List.suffix_rfl
  | argument call function before rest scope =>
    exact proceed_pending call function (v :: before) rest scope
  | test condition body scope =>
    dsimp only [resume]
    split_ifs
    · exact List.suffix_cons _ _
    · exact List.suffix_rfl
  | again => exact List.suffix_cons _ _
  | next previous rest scope =>
    cases rest with
    | nil => exact List.suffix_rfl
    | cons node rest => exact List.suffix_cons _ _
  | write kind target scope =>
    dsimp only [resume, write]
    split <;> exact List.suffix_rfl
  | choice | leave => exact List.suffix_rfl

theorem unwind_pending (work : Pending) (f : Fault) : m.pending <:+ (m.unwind work f).pending := by
  cases work <;> exact List.suffix_rfl

/-- A machine is about to hand a value or a fault to the last piece of work that waits. -/
structure Leaving (work : Pending) (m : Machine) : Prop where
  pending : m.pending = [work]
  done : ∀ node scope, m.control ≠ .eval node scope

/-- A step takes one piece of work off at most. -/
theorem step_pending {work : Pending} (hm : [work] <:+ m.pending) :
    m.Leaving work ∨ [work] <:+ m.step.pending := by
  obtain ⟨heap, out, control, pending⟩ := m
  cases control with
  | eval node scope => exact .inr (hm.trans (startNode_pending node scope))
  | value v =>
    cases pending with
    | nil => exact .inr hm
    | cons first rest =>
      rcases List.suffix_cons_iff.mp hm with heq | hrest
      · exact .inl ⟨heq.symm, by simp⟩
      · exact .inr (hrest.trans (resume_pending (m := ⟨heap, out, _, rest⟩) first v))
  | fault f =>
    cases pending with
    | nil => exact .inr hm
    | cons first rest =>
      rcases List.suffix_cons_iff.mp hm with heq | hrest
      · exact .inl ⟨heq.symm, by simp⟩
      · exact .inr (hrest.trans (unwind_pending (m := ⟨heap, out, _, rest⟩) first f))

/-- The work that waits from the start is the last to be done. -/
theorem Finishes.leaving {ended : Ended} {work : Pending} (hf : m.Finishes ended)
    (hm : [work] <:+ m.pending) : ∃ fuel, (m.run fuel).Leaving work := by
  induction hf with
  | @here m result hresult =>
    unfold result? at hresult
    split at hresult
    · rename_i hpending
      rw [hpending] at hm
      cases List.suffix_nil.mp hm
    · rename_i hpending
      rw [hpending] at hm
      cases List.suffix_nil.mp hm
    · cases hresult
  | step hresult _ ih =>
    rcases step_pending hm with hleaving | hnext
    · exact ⟨0, hleaving⟩
    · obtain ⟨fuel, hleaving⟩ := ih hnext
      exact ⟨fuel + 1, run_succ hresult fuel ▸ hleaving⟩

end Machine

namespace Program

/-- A program ends, on some memory and with some sink. -/
def Ends (h : Heap) (out : Sink) (source : String) (ended : Ended) : Prop :=
  ∃ fuel, run? fuel h out source = some ended

variable {h : Heap} {out : Sink} {source : String}

/-- A program that has ended was none, or its machine has ended. -/
theorem run?_eq_some_iff {fuel : ℕ} {ended : Ended} :
    run? fuel h out source = some ended ↔
      (∃ e, parse source = .error e ∧ ended = ⟨h, out, .error e.fault⟩) ∨
        ∃ node, parse source = .ok node ∧
          (Machine.ofProgram h out node).finish? fuel = some ended := by
  unfold run? start
  cases parse source with
  | error e => simp [eq_comm]
  | ok node => simp

theorem ends_iff {ended : Ended} :
    Ends h out source ended ↔
      (∃ e, parse source = .error e ∧ ended = ⟨h, out, .error e.fault⟩) ∨
        ∃ node, parse source = .ok node ∧ (Machine.ofProgram h out node).Finishes ended := by
  simp only [Ends, run?_eq_some_iff, exists_or, exists_const, Machine.finishes_iff]
  simp only [exists_comm (α := ℕ), exists_and_left]

theorem Ends.unique {x y : Ended} (hx : Ends h out source x) (hy : Ends h out source y) : x = y := by
  rcases ends_iff.mp hx with ⟨e, hp, rfl⟩ | ⟨node, hp, hx⟩ <;>
    rcases ends_iff.mp hy with ⟨e', hp', rfl⟩ | ⟨node', hp', hy⟩ <;>
    cases hp.symm.trans hp'
  · rfl
  · exact hx.unique hy

end Program

end ApplyLang
