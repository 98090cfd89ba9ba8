import ApplyLang.Proofs.Program.Process

/-!
# A sink that refuses

A program that prints to a sink with room for so many bytes does what it does with a sink that takes
everything, up to the byte that is refused. From there on it does nothing but fail: no form and no
function catches the fault, goes on after it or prints on the way out.

* `Sink.cut` — what a limited sink would have taken of what another sink has taken.
* `Machine.Beside` — where one step leaves two machines, one with a limited sink, that were in the
  same state.
* `Machine.step_beside`, `Machine.Finishes.cut`, `Machine.Finishes.of_cut` — a step, and a whole run.
* `Program.After.limited_output` — the result.
-/

namespace ApplyLang

/-! ## Sinks -/

namespace Sink

variable {s t : Sink} {n : ℕ} {refusal : String}

/-- What a sink with limited room would have taken in the place of one that takes everything. -/
def cut (n : ℕ) (refusal : String) (s : Sink) : Sink :=
  ⟨s.taken.take n, some (n - s.taken.size), refusal⟩

theorem size_append (taken : Array UInt8) (bytes : List UInt8) :
    (taken ++ bytes).size = taken.size + bytes.length := by
  rw [← Array.length_toList, Array.toList_appendList, List.length_append, Array.length_toList]

theorem write_of_unlimited (hs : s.room = none) (bytes : List UInt8) :
    s.write bytes = ({ s with taken := s.taken ++ bytes }, true) := by
  rw [write, hs]

/-- A limited sink takes what is offered as long as all of it fits. -/
theorem write_cut (s : Sink) (n : ℕ) (refusal : String) (bytes : List UInt8) :
    (s.cut n refusal).write bytes =
      (cut n refusal { s with taken := s.taken ++ bytes },
        decide (bytes.length ≤ n - s.taken.size)) := by
  have htaken : s.taken.take n ++ bytes.take (n - s.taken.size) = (s.taken ++ bytes).take n := by
    apply Array.ext'
    simp [List.take_append]
  simp only [write, cut, htaken, size_append, Nat.sub_sub]

theorem toList_taken_cut : (s.cut n refusal).taken.toList = s.taken.toList.take n := by
  simp [cut]

theorem taken_cut (hs : s.taken.size ≤ n) : (s.cut n refusal).taken = s.taken := by
  simp [cut, hs]

/-- What comes after the limit makes no difference. -/
theorem cut_eq_of_prefix (ht : s.taken.toList <+: t.taken.toList) (hn : n ≤ s.taken.size) :
    s.cut n refusal = t.cut n refusal := by
  have hle : s.taken.size ≤ t.taken.size := ht.length_le
  have htaken : s.taken.take n = t.taken.take n := by
    apply Array.ext'
    obtain ⟨rest, hrest⟩ := ht
    simp only [Array.take_eq_extract, Array.toList_extract, List.extract_eq_take_drop,
      List.drop_zero, ← hrest]
    exact (List.take_append_of_le_length hn).symm
  rw [cut, cut, htaken, Nat.sub_eq_zero_of_le hn, Nat.sub_eq_zero_of_le (hn.trans hle)]

theorem cut_unlimited : unlimited.cut n refusal = limited n refusal := by
  simp [cut, unlimited, limited]

end Sink

/-! ## Steps that do not print -/

namespace Machine

/-- The machine with another sink. -/
def withOut (m : Machine) (s : Sink) : Machine :=
  { m with out := s }

/-- What is done has nothing to do with the sink. -/
def Silent (act : Machine → Machine) : Prop :=
  ∀ m s, act (m.withOut s) = (act m).withOut s

theorem Silent.out_eq {act : Machine → Machine} (ha : Silent act) (m : Machine) :
    (act m).out = m.out :=
  (congrArg Machine.out (ha m m.out) : _)

theorem lookup_silent (target : Target) (scope : Ref) : Silent (·.lookup target scope) := by
  intro m s
  unfold Machine.lookup withOut
  dsimp only
  split <;> rfl

theorem makeFunction_silent (arguments : List Node) (span : Span) (scope : Ref) :
    Silent (·.makeFunction arguments span scope) := by
  intro m s
  unfold Machine.makeFunction withOut
  dsimp only
  split
  · rfl
  · split <;> rfl

theorem startWrite_silent (form : Form) (kind : Write) (arguments : List Node) (span : Span)
    (scope : Ref) : Silent (·.startWrite form kind arguments span scope) := by
  intro m s
  unfold Machine.startWrite
  dsimp only
  split <;> rfl

theorem startForm_silent (form : Form) (arguments : List Node) (span : Span) (scope : Ref) :
    Silent (·.startForm form arguments span scope) := by
  intro m s
  cases form with
  | choose | loop | sequence =>
    dsimp only [Machine.startForm]
    split <;> rfl
  | define => exact startWrite_silent .define .define arguments span scope m s
  | assign => exact startWrite_silent .assign .assign arguments span scope m s
  | function => exact makeFunction_silent arguments span scope m s

theorem startNode_silent (node : Node) (scope : Ref) : Silent (·.startNode node scope) := by
  intro m s
  cases node with
  | number | text => rfl
  | word name span => exact lookup_silent ⟨name, span⟩ scope m s
  | apply operator arguments span =>
    dsimp only [Machine.startNode]
    split
    · exact startForm_silent _ arguments span scope m s
    · rfl

theorem enter_silent (call : Call) (c : Closure) (function : Value) (arguments : List Value) :
    Silent (·.enter call c function arguments) := by
  intro m s
  unfold Machine.enter
  dsimp only
  split <;> rfl

theorem write_silent (kind : Write) (target : Target) (scope : Ref) (v : Value) :
    Silent (·.write kind target scope v) := by
  intro m s
  unfold Machine.write withOut
  dsimp only
  split <;> rfl

theorem unwind_silent (work : Pending) (f : Fault) : Silent (·.unwind work f) := by
  intro m s
  cases work <;> rfl

/-! ## Steps that may print -/

/-- The machine with a limited sink in the place of one that takes everything. -/
def cut (n : ℕ) (refusal : String) (m : Machine) : Machine :=
  m.withOut (m.out.cut n refusal)

/-- Two machines after a step, of which one has a limited sink. Before, they were in the same state
    and had both taken `s`. Now they are again in the same state; or else the limited sink has
    refused, and its machine fails. -/
structure Beside (n : ℕ) (refusal : String) (s : Sink) (m l : Machine) : Prop where
  room : m.out.room = none
  grows : s.taken.toList <+: m.out.taken.toList
  together : m.out.taken.size ≤ n ∧ l = m.cut n refusal ∨
    n < m.out.taken.size ∧ l.out = m.out.cut n refusal ∧
      ∃ span, l.control = .fault (.output span refusal)

variable {n : ℕ} {refusal : String} {m : Machine}

theorem Silent.beside {act : Machine → Machine} (ha : Silent act) (hroom : m.out.room = none)
    (hfit : m.out.taken.size ≤ n) : Beside n refusal m.out (act m) (act (m.cut n refusal)) := by
  have hout := ha.out_eq m
  refine ⟨by rw [hout, hroom], by rw [hout], .inl ⟨by rwa [hout], ?_⟩⟩
  rw [cut, cut, hout, ha]

theorem callBuiltin_silent {f : Builtin} (hf : f ≠ .print) (call : Call) (function : Value)
    (arguments : List Value) : Silent (·.callBuiltin call f function arguments) := by
  intro m s
  unfold Machine.callBuiltin Builtin.apply withOut
  cases f with
  | print => exact absurd rfl hf
  | array => rfl
  | _ =>
    dsimp only
    generalize Builtin.compute _ call.span arguments = result
    cases result <;> rfl

theorem callPrint_beside (hroom : m.out.room = none) (hfit : m.out.taken.size ≤ n) (call : Call)
    (function : Value) (arguments : List Value) :
    Beside n refusal m.out (m.callBuiltin call .print function arguments)
      ((m.cut n refusal).callBuiltin call .print function arguments) := by
  unfold Machine.callBuiltin Builtin.apply
  dsimp only [cut, withOut]
  cases Builtin.compute .print call.span arguments with
  | error fault => exact ⟨hroom, List.prefix_rfl, .inl ⟨hfit, rfl⟩⟩
  | ok v =>
    have hgrows : m.out.taken.toList <+: (m.out.taken ++ Builtin.lineOf m.heap v).toList := by
      rw [Array.toList_appendList]
      exact List.prefix_append _ _
    have hsize := Sink.size_append m.out.taken (Builtin.lineOf m.heap v)
    simp only [if_true, Sink.write_of_unlimited hroom, Sink.write_cut]
    by_cases htaken : (Builtin.lineOf m.heap v).length ≤ n - m.out.taken.size
    · have hle : (m.out.taken ++ Builtin.lineOf m.heap v).size ≤ n := by omega
      rw [decide_eq_true htaken]
      exact ⟨hroom, hgrows, .inl ⟨hle, rfl⟩⟩
    · have hlt : n < (m.out.taken ++ Builtin.lineOf m.heap v).size := by omega
      rw [decide_eq_false htaken]
      exact ⟨hroom, hgrows, .inr ⟨hlt, rfl, call.span, rfl⟩⟩

theorem apply_beside (hroom : m.out.room = none) (hfit : m.out.taken.size ≤ n) (call : Call)
    (blamed : Span) (function : Value) (arguments : List Value) :
    Beside n refusal m.out (m.apply call blamed function arguments)
      ((m.cut n refusal).apply call blamed function arguments) := by
  cases function with
  | closure r =>
    have hsilent : Silent (·.apply call blamed (.closure r) arguments) := by
      intro m s
      unfold Machine.apply withOut
      dsimp only
      split
      · exact enter_silent call _ _ arguments m s
      · rfl
    exact hsilent.beside hroom hfit
  | builtin f =>
    by_cases hf : f = .print
    · subst hf
      exact callPrint_beside hroom hfit call _ arguments
    · exact (callBuiltin_silent hf call _ arguments).beside hroom hfit
  | bool | number | text | array => exact ⟨hroom, List.prefix_rfl, .inl ⟨hfit, rfl⟩⟩

theorem proceed_beside (hroom : m.out.room = none) (hfit : m.out.taken.size ≤ n) (call : Call)
    (function : Value) (before : List Value) (rest : List Node) (scope : Ref) :
    Beside n refusal m.out (m.proceed call function before rest scope)
      ((m.cut n refusal).proceed call function before rest scope) := by
  cases rest with
  | nil => exact apply_beside hroom hfit call call.span function before.reverse
  | cons node rest => exact ⟨hroom, List.prefix_rfl, .inl ⟨hfit, rfl⟩⟩

theorem resume_beside (hroom : m.out.room = none) (hfit : m.out.taken.size ≤ n) (work : Pending)
    (v : Value) :
    Beside n refusal m.out (m.resume work v) ((m.cut n refusal).resume work v) := by
  cases work with
  | operator place call arguments scope =>
    dsimp only [Machine.resume]
    split_ifs
    · exact proceed_beside hroom hfit call v [] arguments scope
    · exact ⟨hroom, List.prefix_rfl, .inl ⟨hfit, rfl⟩⟩
  | argument call function before rest scope =>
    exact proceed_beside hroom hfit call function (v :: before) rest scope
  | test condition body scope =>
    dsimp only [Machine.resume]
    split_ifs <;> exact ⟨hroom, List.prefix_rfl, .inl ⟨hfit, rfl⟩⟩
  | next previous rest scope =>
    cases rest <;> exact ⟨hroom, List.prefix_rfl, .inl ⟨hfit, rfl⟩⟩
  | write kind target scope => exact (write_silent kind target scope v).beside hroom hfit
  | choice | again | leave => exact ⟨hroom, List.prefix_rfl, .inl ⟨hfit, rfl⟩⟩

theorem step_beside (hroom : m.out.room = none) (hfit : m.out.taken.size ≤ n) :
    Beside n refusal m.out m.step (m.cut n refusal).step := by
  obtain ⟨heap, out, control, pending⟩ := m
  cases control with
  | eval node scope =>
    exact (startNode_silent node scope).beside (m := ⟨heap, out, .value .nothing, pending⟩) hroom hfit
  | value v =>
    cases pending with
    | nil => exact ⟨hroom, List.prefix_rfl, .inl ⟨hfit, rfl⟩⟩
    | cons work pending =>
      exact resume_beside (m := ⟨heap, out, .value .nothing, pending⟩) hroom hfit work v
  | fault f =>
    cases pending with
    | nil => exact ⟨hroom, List.prefix_rfl, .inl ⟨hfit, rfl⟩⟩
    | cons work pending =>
      exact (unwind_silent work f).beside (m := ⟨heap, out, .value .nothing, pending⟩) hroom hfit

/-! ## Runs -/

theorem result?_cut (m : Machine) : (m.cut n refusal).result? = m.result? := by
  obtain ⟨heap, out, control, pending⟩ := m
  cases control <;> cases pending <;> rfl

/-- A sink that takes everything keeps it. -/
theorem Finishes.grows {ended : Ended} (hf : m.Finishes ended) (hroom : m.out.room = none) :
    m.out.taken.toList <+: ended.out.taken.toList := by
  induction hf with
  | here => exact List.prefix_rfl
  | @step m _ _ _ ih =>
    have hstep : Beside m.out.taken.size "" m.out m.step (m.cut _ "").step :=
      step_beside hroom le_rfl
    exact hstep.grows.trans (ih hstep.room)

/-- A run with a limited sink beside one with a sink that takes everything: it takes the same steps
    to the end, or fails where the first byte is refused. -/
theorem Finishes.cut {ended : Ended} (hf : m.Finishes ended) (hroom : m.out.room = none)
    (hfit : m.out.taken.size ≤ n) :
    ended.out.taken.size ≤ n ∧
        (m.cut n refusal).Finishes { ended with out := ended.out.cut n refusal } ∨
      n < ended.out.taken.size ∧ ∃ h span, (m.cut n refusal).Finishes
        ⟨h, ended.out.cut n refusal, .error (.output span refusal)⟩ := by
  induction hf with
  | @here m _ hm => exact .inl ⟨hfit, .here ((result?_cut m).trans hm)⟩
  | @step m ended hm hs ih =>
    have hm' : (m.cut n refusal).result? = none := (result?_cut m).trans hm
    have hstep : Beside n refusal m.out m.step (m.cut n refusal).step := step_beside hroom hfit
    rcases hstep.together with ⟨hfit', hl⟩ | ⟨hfull, hout, span, hfault⟩
    · rcases ih hstep.room hfit' with ⟨hsize, hend⟩ | ⟨hsize, h, span, hend⟩
      · exact .inl ⟨hsize, .step hm' (hl ▸ hend)⟩
      · exact .inr ⟨hsize, h, span, .step hm' (hl ▸ hend)⟩
    · -- whatever the other machine prints from here on comes after the limit
      have hgrows := hs.grows hstep.room
      obtain ⟨h, hend⟩ := finishes_of_fault hfault
      rw [hout, Sink.cut_eq_of_prefix hgrows hfull.le] at hend
      exact .inr ⟨hfull.trans_le hgrows.length_le, h, span, .step hm' hend⟩

/-- A run with a limited sink that does not fail at it is one with a sink that takes everything. -/
theorem Finishes.of_cut {l : Machine} {ended : Ended} (hf : l.Finishes ended)
    (hl : l = m.cut n refusal) (hroom : m.out.room = none) (hfit : m.out.taken.size ≤ n)
    (hresult : ∀ span text, ended.result ≠ .error (.output span text)) :
    ∃ out, m.Finishes { ended with out := out } ∧ out.taken = ended.out.taken := by
  induction hf generalizing m with
  | here hm =>
    subst hl
    exact ⟨m.out, .here ((result?_cut m).symm.trans hm), (Sink.taken_cut hfit).symm⟩
  | step hm hs ih =>
    subst hl
    have hm' : m.result? = none := (result?_cut m).symm.trans hm
    have hstep : Beside n refusal m.out m.step (m.cut n refusal).step := step_beside hroom hfit
    rcases hstep.together with ⟨hfit', hl⟩ | ⟨-, -, span, hfault⟩
    · obtain ⟨out, hend, htaken⟩ := ih hl hstep.room hfit' hresult
      exact ⟨out, .step hm' hend, htaken⟩
    · obtain ⟨h, hend⟩ := finishes_of_fault hfault
      rw [hs.unique hend] at hresult
      exact absurd rfl (hresult span refusal)

theorem ofProgram_cut (h : Heap) (node : Node) :
    (ofProgram h .unlimited node).cut n refusal = ofProgram h (.limited n refusal) node := by
  rw [← Sink.cut_unlimited]
  rfl

end Machine

/-! ## Programs -/

namespace Program

variable {h : Heap} {kept : List Value} {source : String} {n : ℕ} {refusal : String}

/-- A program with a limited sink ends if it ends with a sink that takes everything. -/
theorem Ends.limited {ended : Ended} (he : Ends h .unlimited source ended) (n : ℕ)
    (refusal : String) :
    ended.out.taken.size ≤ n ∧
        Ends h (.limited n refusal) source { ended with out := ended.out.cut n refusal } ∨
      n < ended.out.taken.size ∧ ∃ k span, Ends h (.limited n refusal) source
        ⟨k, ended.out.cut n refusal, .error (.output span refusal)⟩ := by
  rcases ends_iff.mp he with ⟨e, hp, rfl⟩ | ⟨node, hp, hf⟩
  · refine .inl ⟨Nat.zero_le n, ends_iff.mpr (.inl ⟨e, hp, ?_⟩)⟩
    rw [Sink.cut_unlimited]
  · rcases hf.cut rfl (Nat.zero_le n) with ⟨hsize, hend⟩ | ⟨hsize, k, span, hend⟩
    · rw [Machine.ofProgram_cut] at hend
      exact .inl ⟨hsize, ends_iff.mpr (.inr ⟨node, hp, hend⟩)⟩
    · rw [Machine.ofProgram_cut] at hend
      exact .inr ⟨hsize, k, span, ends_iff.mpr (.inr ⟨node, hp, hend⟩)⟩

theorem Ends.of_limited {ended : Ended} (he : Ends h (.limited n refusal) source ended)
    (hresult : ∀ span text, ended.result ≠ .error (.output span text)) :
    ∃ out, Ends h .unlimited source { ended with out := out } ∧ out.taken = ended.out.taken := by
  rcases ends_iff.mp he with ⟨e, hp, rfl⟩ | ⟨node, hp, hf⟩
  · exact ⟨.unlimited, ends_iff.mpr (.inl ⟨e, hp, rfl⟩), rfl⟩
  · obtain ⟨out, hend, htaken⟩ :=
      hf.of_cut (Machine.ofProgram_cut h node).symm rfl (Nat.zero_le n) hresult
    exact ⟨out, ends_iff.mpr (.inr ⟨node, hp, hend⟩), htaken⟩

/-- Only a call can fail at the sink. -/
theorem After.output_at_call (ha : After h kept) {out : Sink} {ended : Ended} {span : Span}
    {text : String} (he : Ends h out source ended) (hf : ended.result = .error (.output span text)) :
    ∃ node operator arguments, parse source = .ok node ∧
      node.Has (.apply operator arguments span) := by
  rcases ends_iff.mp he with ⟨e, hp, rfl⟩ | ⟨node, hp, hend⟩
  · cases hf
  · obtain ⟨operator, arguments, call, hnode, hplace⟩ := ha.settled.about hend hf
    exact ⟨node, operator, arguments, hp, hplace ▸ hnode⟩

/-- A program that ends with a sink that takes everything also ends with a sink that has room for
    `n` bytes. If these are enough, the output and the result are the same; otherwise the output is
    what fits, and the program fails with the sink's own words at one of its calls. And if a program
    with a limited sink ends otherwise than by failing at it, it ends just so with a sink that takes
    everything. -/
theorem After.limited_output (ha : After h kept) (source : String) (n : ℕ) (refusal : String) :
    (∀ ended, Ends h .unlimited source ended →
      (∃ ended', Ends h (.limited n refusal) source ended') ∧
      ∀ ended', Ends h (.limited n refusal) source ended' →
        (ended.out.taken.size ≤ n → ended'.out.taken = ended.out.taken ∧
          ended'.result = ended.result ∧ ended'.heap = ended.heap) ∧
        (n < ended.out.taken.size →
          ended'.out.taken.toList = ended.out.taken.toList.take n ∧
          ∃ span, ended'.result = .error (.output span refusal) ∧
            ∃ node operator arguments, parse source = .ok node ∧
              node.Has (.apply operator arguments span))) ∧
    ∀ ended', Ends h (.limited n refusal) source ended' →
      (∀ span text, ended'.result ≠ .error (.output span text)) →
      ∃ ended, Ends h .unlimited source ended ∧ ended.out.taken = ended'.out.taken ∧
        ended.result = ended'.result ∧ ended.heap = ended'.heap := by
  refine ⟨fun ended he => ?_, fun ended' he hresult => ?_⟩
  · rcases he.limited n refusal with ⟨hsize, hl⟩ | ⟨hsize, k, span, hl⟩
    · refine ⟨⟨_, hl⟩, fun ended' he' => ?_⟩
      rw [he'.unique hl]
      exact ⟨fun _ => ⟨Sink.taken_cut hsize, rfl, rfl⟩, fun hlt => absurd hsize hlt.not_ge⟩
    · refine ⟨⟨_, hl⟩, fun ended' he' => ?_⟩
      rw [he'.unique hl]
      refine ⟨fun hle => absurd hsize hle.not_gt, fun _ => ⟨Sink.toList_taken_cut, span, rfl, ?_⟩⟩
      exact ha.output_at_call hl rfl
  · obtain ⟨out, hend, htaken⟩ := he.of_limited hresult
    exact ⟨_, hend, htaken, rfl, rfl⟩

/-- Printing under another name, to a sink that is full in the middle of the second line. -/
theorem limited_output_alias :
    let source := "do(define(p, print), p(true), p(false))"
    After Heap.initial [] ∧ ∃ ended ended' span, Ends Heap.initial .unlimited source ended ∧
      7 < ended.out.taken.size ∧ Ends Heap.initial (.limited 7 "full") source ended' ∧
      ended'.out.taken.toList = ended.out.taken.toList.take 7 ∧
      ended'.result = .error (.output span "full") := by
  obtain ⟨ended, hrun, hlong⟩ : ∃ ended, run? 100 Heap.initial .unlimited
      "do(define(p, print), p(true), p(false))" = some ended ∧ 7 < ended.out.taken.size :=
    ⟨_, rfl, by decide +kernel⟩
  obtain ⟨⟨ended', hend⟩, hall⟩ := (After.limited_output .fresh _ 7 "full").1 ended ⟨100, hrun⟩
  obtain ⟨htaken, span, hresult, -⟩ := (hall ended' hend).2 hlong
  exact ⟨.fresh, ended, ended', span, ⟨100, hrun⟩, hlong, hend, htaken, hresult⟩

end Program

end ApplyLang
