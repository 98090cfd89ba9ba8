import ApplyLang.Session

/-!
# Evaluation without counting

A reference to compare with: the same machine and the same sessions on a memory that only grows.
Nothing is counted, nothing is freed, and a release does nothing at all. An object that is new gets
the next reference, as it does with counting, so that both give out the same references.

* `Reference.step`, `Reference.run?` — evaluation.
* `Reference.perform`, `Reference.performAll` — sessions.

Memory is read as always; the counters in it stay as they were when the objects were new.
-/

namespace ApplyLang

namespace Reference

/-! ## Memory -/

/-- Binds a name in a frame. -/
def bind (h : Heap) (r : Ref) (name : String) (v : Value) : Heap :=
  match h.frame? r with
  | some f => h.replace r (.frame (f.insert name v))
  | none => h

/-- Binds a name in a frame, whatever the frames around it say. -/
def define (h : Heap) (r : Ref) (name : String) (v : Value) : Except BindError Heap :=
  if h.isSealed r then .error .isSealed else .ok (bind h r name v)

/-- Changes the innermost binding of a name. -/
def assign (h : Heap) (scope : Ref) (name : String) (v : Value) : Except BindError Heap :=
  match h.owner? scope name with
  | none => .error .unbound
  | some r => if h.isSealed r then .error .isSealed else .ok (bind h r name v)

/-- A new empty frame inside another one. -/
def child (h : Heap) (r : Ref) : Heap × Ref :=
  h.alloc (.frame ⟨[], some r, false⟩)

/-- A new function, as a value. -/
def newClosure (h : Heap) (c : Closure) : Heap × Value :=
  let (h, r) := h.alloc (.closure c)
  (h, .closure r)

/-- A new array storage, as a value. -/
def newArray (h : Heap) (items : List Value) : Heap × Value :=
  let (h, storage) := h.alloc (.array items)
  (h, .array storage items)

/-! ## Evaluation -/

/-- Looks a word up. -/
def lookup (m : Machine) (target : Target) (scope : Ref) : Machine :=
  match m.heap.find? scope target.name with
  | some v => m.goto (.value v)
  | none => m.fail (Machine.bindFault .unbound target)

/-- Makes a function. -/
def makeFunction (m : Machine) (arguments : List Node) (span : Span) (scope : Ref) : Machine :=
  match arguments.getLast? with
  | none => m.fail (.misuse span Form.function.name "a body")
  | some body =>
    match Machine.parametersOf arguments.dropLast with
    | .error f => m.fail f
    | .ok parameters =>
      let (heap, v) := newClosure m.heap ⟨parameters, body, scope⟩
      { m with heap := heap, control := .value v }

/-- Starts a form. Only the making of functions has to do with memory. -/
def startForm (m : Machine) (form : Form) (arguments : List Node) (span : Span) (scope : Ref) :
    Machine :=
  match form with
  | .function => makeFunction m arguments span scope
  | form => m.startForm form arguments span scope

/-- Starts to evaluate a node. -/
def startNode (m : Machine) (node : Node) (scope : Ref) : Machine :=
  match node with
  | .number x _ => m.goto (.value (.number x))
  | .text x _ => m.goto (.value (.text x))
  | .word name span => lookup m ⟨name, span⟩ scope
  | .apply operator arguments span =>
    match operator.name?.bind Form.ofName? with
    | some form => startForm m form arguments span scope
    | none =>
      m.await (.eval operator scope)
        (.operator operator.span ⟨Machine.callName operator, span⟩ arguments scope)

/-- Binds parameters to arguments, in order. -/
def bindParameters (h : Heap) (frame : Ref) : List (String × Span) → List Value → Heap
  | (name, _) :: parameters, v :: arguments =>
    bindParameters (bind h frame name v) frame parameters arguments
  | _, _ => h

/-- Calls a function that is not built in. -/
def enter (m : Machine) (call : Call) (c : Closure) (function : Value) (arguments : List Value) :
    Machine :=
  if arguments.length = c.parameters.length then
    let (heap, frame) := child m.heap c.scope
    { m with
      heap := bindParameters heap frame c.parameters arguments
      control := .eval c.body frame
      pending := .leave frame (function :: arguments) :: m.pending }
  else m.fail (.arity call.span call.name c.parameters.length arguments.length)

/-- The effect and the result of a built-in function. -/
def applyBuiltin (f : Builtin) (call : Span) (arguments : List Value) (h : Heap) (out : Sink) :
    Heap × Sink × Except Fault Value :=
  match f with
  | .array =>
    let (h, v) := newArray h arguments
    (h, out, .ok v)
  | f =>
    match f.compute call arguments with
    | .error fault => (h, out, .error fault)
    | .ok v =>
      if f = .print then
        match out.write (Builtin.lineOf h v) with
        | (out, true) => (h, out, .ok v)
        | (out, false) => (h, out, .error (.output call out.refusal))
      else (h, out, .ok v)

/-- Calls a built-in function. -/
def callBuiltin (m : Machine) (call : Call) (f : Builtin) (arguments : List Value) : Machine :=
  match applyBuiltin f call.span arguments m.heap m.out with
  | (heap, out, .ok v) => { m with heap := heap, out := out, control := .value v }
  | (heap, out, .error fault) => { m with heap := heap, out := out, control := .fault fault }

/-- Applies a function to arguments. -/
def apply (m : Machine) (call : Call) (blamed : Span) (function : Value) (arguments : List Value) :
    Machine :=
  match function with
  | .closure r =>
    match m.heap.closure? r with
    | some c => enter m call c function arguments
    | none => m
  | .builtin f => callBuiltin m call f arguments
  | v => m.fail (.notCallable call.span blamed v.typeName)

/-- Goes on to the next argument, or to the call if there is none left. -/
def proceed (m : Machine) (call : Call) (function : Value) (before : List Value)
    (rest : List Node) (scope : Ref) : Machine :=
  match rest with
  | [] => apply m call call.span function before.reverse
  | node :: rest => m.await (.eval node scope) (.argument call function before rest scope)

/-- Binds a value, which is also the result. -/
def write (m : Machine) (kind : Write) (target : Target) (scope : Ref) (v : Value) : Machine :=
  let written := match kind with
    | .define => define m.heap scope target.name v
    | .assign => assign m.heap scope target.name v
  match written with
  | .ok heap => { m with heap := heap, control := .value v }
  | .error e => m.fail (Machine.bindFault e target)

/-- Hands a value to the work that waits for it. The end of a call leaves memory as it is. -/
def resume (m : Machine) (work : Pending) (v : Value) : Machine :=
  match work with
  | .operator operator call arguments scope =>
    if v.callable then proceed m call v [] arguments scope
    else m.fail (.notCallable call.span operator v.typeName)
  | .argument call function before rest scope => proceed m call function (v :: before) rest scope
  | .choice yes no scope => m.goto (.eval (if v.truthy then yes else no) scope)
  | .test condition body scope =>
    if v.truthy then m.await (.eval body scope) (.again condition body scope)
    else m.goto (.value .nothing)
  | .again condition body scope => m.await (.eval condition scope) (.test condition body scope)
  | .next _ rest scope =>
    match rest with
    | [] => m.goto (.value v)
    | node :: rest => m.await (.eval node scope) (.next v rest scope)
  | .write kind target scope => write m kind target scope v
  | .leave _ _ => m.goto (.value v)

/-- One step. A fault passes by whatever waits. -/
def step (m : Machine) : Machine :=
  match m with
  | ⟨heap, out, .eval node scope, pending⟩ =>
    startNode ⟨heap, out, .value .nothing, pending⟩ node scope
  | ⟨heap, out, .value v, work :: pending⟩ =>
    resume ⟨heap, out, .value .nothing, pending⟩ work v
  | ⟨heap, out, .fault f, _ :: pending⟩ => ⟨heap, out, .fault f, pending⟩
  | m => m

/-- Steps until the machine ends, at most as many as the fuel. -/
def run : Nat → Machine → Machine
  | 0, m => m
  | fuel + 1, m => if m.result?.isSome then m else run fuel (step m)

/-- Runs a machine to its end, or not at all if the fuel does not last. -/
def finish? (fuel : Nat) (m : Machine) : Option Ended :=
  let last := run fuel m
  last.result?.map fun result => ⟨last.heap, last.out, result⟩

/-- Evaluates a node in a new frame inside the global frame. -/
def ofProgram (h : Heap) (out : Sink) (node : Node) : Machine :=
  let (h, frame) := child h Heap.global
  ⟨h, out, .eval node frame, [.leave frame []]⟩

/-- Applies a function to arguments. -/
def ofCall (h : Heap) (out : Sink) (call : Call) (function : Value) (arguments : List Value) :
    Machine :=
  apply ⟨h, out, .value .nothing, []⟩ call call.span function arguments

/-- Reads a program and runs it. -/
def run? (fuel : Nat) (h : Heap) (out : Sink) (source : String) : Option Ended :=
  match parse source with
  | .error e => some ⟨h, out, .error e.fault⟩
  | .ok node => finish? fuel (ofProgram h out node)

/-! ## Sessions -/

mutual

/-- Makes a value that a step writes down. -/
def make (values : Table Value) (h : Heap) : Written → Except StepError (Heap × Value)
  | .bool x => .ok (h, .bool x)
  | .number x => .ok (h, .number x)
  | .text x => .ok (h, .text x)
  | .stored name => do return (h, ← values.get name)
  | .list items => do
    let (h, made) ← makeAll values h items
    return newArray h made

/-- Makes several values. -/
def makeAll (values : Table Value) (h : Heap) : List Written → Except StepError (Heap × List Value)
  | [] => .ok (h, [])
  | item :: rest => do
    let (h, v) ← make values h item
    let (h, made) ← makeAll values h rest
    return (h, v :: made)

end

/-- Stores a frame under a name. -/
def storeScope (s : Session) (name : String) (r : Ref) : Session :=
  { s with scopes := s.scopes.insert name r }

/-- Stores a value if there is a name for it. -/
def keep (s : Session) (name : Option String) (v : Value) : Session :=
  match name with
  | some name => { s with values := s.values.insert name v }
  | none => s

/-- The answer to an evaluation. -/
def conclude (s : Session) (ended : Ended) (into : Option String) : Session × Answer :=
  let printed := ended.out.textFrom s.out.taken.size
  let s := { s with heap := ended.heap, out := ended.out }
  match ended.result with
  | .error f => (s, .ended printed (.error f))
  | .ok v => (keep s into v, .ended printed (.ok (Session.shown s.heap v)))

/-- Writes a value. -/
def writeWritten (s : Session) (value : Written)
    (how : Heap → Value → Except BindError Heap) : Except StepError (Session × Answer) := do
  let (h, v) ← make s.values s.heap value
  match how h v with
  | .ok h => return ({ s with heap := h }, .done)
  | .error e => return ({ s with heap := h }, .refused e)

/-- Asks something about a value. -/
def ask (s : Session) (value : Written) (question : Heap → Value → Answer) :
    Except StepError (Session × Answer) := do
  let (h, v) ← make s.values s.heap value
  return ({ s with heap := h }, question h v)

/-- Performs a step. What is about handles makes no sense without counting: there are none, and
    every frame is alive. -/
def perform (fuel : Nat) (s : Session) (step : Step) : Except StepError (Session × Answer) :=
  match step with
  | .global into => .ok (storeScope s into Heap.global, .done)
  | .makeSealed bindings into => do
    let (h, made) ← makeAll s.values s.heap (bindings.map Prod.snd)
    let (h, r) := h.newSealed ((bindings.map Prod.fst).zip made)
    return (storeScope { s with heap := h } into r, .done)
  | .child of into => do
    let (h, r) := child s.heap (← s.scopes.get of)
    return (storeScope { s with heap := h } into r, .done)
  | .share of into => do return (storeScope s into (← s.scopes.get of), .done)
  | .parent of into => do
    match s.heap.parent? (← s.scopes.get of), into with
    | some r, some name => return (storeScope s name r, .found true)
    | some _, none => return (s, .found true)
    | none, _ => return (s, .found false)
  | .define scope name value => do
    let r ← s.scopes.get scope
    writeWritten s value fun h v => define h r name v
  | .assign scope name value => do
    let r ← s.scopes.get scope
    writeWritten s value fun h v => assign h r name v
  | .find scope name into => do
    match s.heap.find? (← s.scopes.get scope) name with
    | some v => return (keep s into v, .value (Session.shown s.heap v))
    | none => return (s, .found false)
  | .owns scope name => do return (s, .owns (s.heap.owns (← s.scopes.get scope) name))
  | .isSealed scope => do return (s, .isSealed (s.heap.isSealed (← s.scopes.get scope)))
  | .describeScope scope => do
    return (s, .description (s.heap.describedScope (← s.scopes.get scope)))
  | .describe value => ask s value fun h v => .description (h.described v)
  | .holders scope => do
    let _ ← s.scopes.get scope
    return (s, .holders 0)
  | .weaken scope into => do
    return ({ s with weaks := s.weaks.insert into (← s.scopes.get scope) }, .done)
  | .alive weak => do
    let _ ← s.weaks.get weak
    return (s, .alive true)
  | .strengthen weak into => do return (storeScope s into (← s.weaks.get weak), .alive true)
  | .release scope | .drop scope => do
    let _ ← s.scopes.get scope
    return ({ s with scopes := s.scopes.erase scope }, .done)
  | .forget name => do
    let _ ← s.values.get name
    return ({ s with values := s.values.erase name }, .done)
  | .evaluate scope source into => do
    let r ← s.scopes.get scope
    match parse source with
    | .error e => return (s, .ended "" (.error e.fault))
    | .ok node =>
      match finish? fuel (.ofNode s.heap s.out node r) with
      | some ended => return conclude s ended into
      | none => .error .unfinished
  | .apply function arguments call into => do
    let (h, f) ← make s.values s.heap function
    let (h, made) ← makeAll s.values h arguments
    match finish? fuel (ofCall h s.out call f made) with
    | some ended => return conclude s ended into
    | none => .error .unfinished
  | .equal a b => do
    let (h, x) ← make s.values s.heap a
    let (h, y) ← make s.values h b
    return ({ s with heap := h }, .equal (x.same y))
  | .inspect value =>
    ask s value fun h v => .inspected (Session.shown h v) v.truthy v.callable

/-- Performs steps in order, up to the first without an answer. -/
def performAll (fuel : Nat) (s : Session) : List Step → Except StepError (Session × List Answer)
  | [] => .ok (s, [])
  | step :: rest => do
    let (s, answer) ← perform fuel s step
    let (s, answers) ← performAll fuel s rest
    return (s, answer :: answers)

end Reference

end ApplyLang
