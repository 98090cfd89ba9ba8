import ApplyLang.Memory.Release
import ApplyLang.Evaluation.Builtin
import ApplyLang.Source.Parser

/-!
# The evaluator

Evaluation (`eval`) is a machine that takes one small step at a time. Its state holds memory, the
output, what is being worked on (`Control`), and what waits for the result (`Pending`), innermost
first: where `eval` calls itself, the rest of the caller waits.

* `Machine.step` — one step.
* `Machine.run` — steps until nothing waits any more.

Names in brackets are the interpreter's own for what a definition does.

**Handles.** A value under control is a copy of its own, and so is every value that waits: the
machine's values are holders like any other. The frames named by `Control.eval` and by what waits
are not: the frame of a call is held by its `Pending.leave`, and every other frame by whoever
started the machine.

**Order.** Operators are evaluated before arguments, arguments from left to right, and nothing after
the first fault. A fault lets go of all that waits, from the inside out; frames of calls are
released on the way.
-/

namespace ApplyLang

/-- The words that are not looked up when they stand as an operator (`FORMS`). -/
inductive Form
  | choose
  | loop
  | sequence
  | define
  | assign
  | function
  deriving DecidableEq, Repr

namespace Form

/-- The word of a form. -/
def name : Form → String
  | choose => "if"
  | loop => "while"
  | sequence => "do"
  | define => "define"
  | assign => "set"
  | function => "func"

/-- The forms. -/
def all : List Form := [choose, loop, sequence, define, assign, function]

/-- The form that a word stands for (`forms::lookup`). -/
def ofName? (word : String) : Option Form :=
  all.find? fun form => form.name == word

theorem ofName?_name (form : Form) : ofName? form.name = some form := by
  cases form <;> decide

end Form

/-- Whether a binding is made or changed. -/
inductive Write
  | define
  | assign
  deriving DecidableEq, Repr

/-- A place where a name is written, for faults. -/
structure Target where
  name : String
  span : Span

/-- What the machine works on. -/
inductive Control
  | eval (node : Node) (scope : Ref)
  | value (v : Value)
  | fault (f : Fault)

/-- An application as faults describe it: the name that the function goes by, and its place. -/
structure Call where
  name : String
  span : Span

/-- What waits for a value. -/
inductive Pending
  /-- The value is an operator; its arguments come next. -/
  | operator (operator : Span) (call : Call) (arguments : List Node) (scope : Ref)
  /-- The value is an argument; those before it are kept last first. -/
  | argument (call : Call) (function : Value) (before : List Value) (rest : List Node) (scope : Ref)
  /-- The value decides between two nodes. -/
  | choice (yes no : Node) (scope : Ref)
  /-- The value decides whether a loop goes on. -/
  | test (condition body : Node) (scope : Ref)
  /-- The value of a loop's body, which nobody needs. -/
  | again (condition body : Node) (scope : Ref)
  /-- The value of a part of a sequence. The value of the part before it is kept until now. -/
  | next (previous : Value) (rest : List Node) (scope : Ref)
  /-- The value is to be bound. -/
  | write (kind : Write) (target : Target) (scope : Ref)
  /-- The value is the result of a call in this frame. The function and its arguments are kept until
      the frame has been released. -/
  | leave (frame : Ref) (kept : List Value)

/-- The values that a pending piece of work keeps. -/
def Pending.kept : Pending → List Value
  | argument _ function before _ _ => function :: before
  | next previous _ _ => [previous]
  | leave _ kept => kept
  | _ => []

/-- The state of an evaluation. -/
structure Machine where
  heap : Heap
  out : Sink
  control : Control
  pending : List Pending

namespace Machine

/-- Goes on with another control. -/
def goto (m : Machine) (control : Control) : Machine :=
  { m with control := control }

/-- Goes on with another control, after which comes a piece of work. -/
def await (m : Machine) (control : Control) (work : Pending) : Machine :=
  { m with control := control, pending := work :: m.pending }

/-- Ends in a fault. -/
def fail (m : Machine) (f : Fault) : Machine :=
  m.goto (.fault f)

/-- Lets go of copies of values. -/
def forget (m : Machine) (values : List Value) : Machine :=
  { m with heap := m.heap.discardValues values }

/-- The fault of a name that cannot be written, or is not there (`bind_error`). -/
def bindFault (e : BindError) (target : Target) : Fault :=
  match e with
  | .unbound => .unbound target.span target.name
  | .isSealed => .isSealed target.span target.name

/-- Looks a word up (`eval_word`). -/
def lookup (m : Machine) (target : Target) (scope : Ref) : Machine :=
  match m.heap.find? scope target.name with
  | some v => { m with heap := m.heap.copy v, control := .value v }
  | none => m.fail (bindFault .unbound target)

/-- The parameters of a function (`eval_func`): words, with their places. -/
def parametersOf : List Node → Except Fault (List (String × Span))
  | [] => .ok []
  | node :: rest =>
    match node.name? with
    | some name => do return (name, node.span) :: (← parametersOf rest)
    | none => .error (.misuse node.span Form.function.name "parameter names to be words")

/-- A word and the node whose value it gets (`binding`). -/
def writeParts (form : Form) (arguments : List Node) (span : Span) :
    Except Fault (Target × Node) :=
  match arguments with
  | [target, node] =>
    match target.name? with
    | some name => .ok (⟨name, target.span⟩, node)
    | none => .error (.misuse target.span form.name "a word as the first argument")
  | _ => .error (.misuse span form.name "exactly 2 arguments")

/-- Starts `define` or `set` (`eval_define`, `eval_set`). -/
def startWrite (m : Machine) (form : Form) (kind : Write) (arguments : List Node) (span : Span)
    (scope : Ref) : Machine :=
  match writeParts form arguments span with
  | .ok (target, node) => m.await (.eval node scope) (.write kind target scope)
  | .error f => m.fail f

/-- Makes a function (`eval_func`). Its last argument is the body, those before it the parameters.
    -/
def makeFunction (m : Machine) (arguments : List Node) (span : Span) (scope : Ref) : Machine :=
  match arguments.getLast? with
  | none => m.fail (.misuse span Form.function.name "a body")
  | some body =>
    match parametersOf arguments.dropLast with
    | .error f => m.fail f
    | .ok parameters =>
      let (heap, v) := m.heap.newClosure ⟨parameters, body, scope⟩
      { m with heap := heap, control := .value v }

/-- Starts a form (`eval_if`, `eval_while`, `eval_do` and those above). -/
def startForm (m : Machine) (form : Form) (arguments : List Node) (span : Span) (scope : Ref) :
    Machine :=
  match form with
  | .choose =>
    match arguments with
    | [condition, yes, no] => m.await (.eval condition scope) (.choice yes no scope)
    | _ => m.fail (.misuse span form.name "exactly 3 arguments")
  | .loop =>
    match arguments with
    | [condition, body] => m.await (.eval condition scope) (.test condition body scope)
    | _ => m.fail (.misuse span form.name "exactly 2 arguments")
  | .sequence =>
    match arguments with
    | [] => m.goto (.value .nothing)
    | first :: rest => m.await (.eval first scope) (.next .nothing rest scope)
  | .define => m.startWrite form .define arguments span scope
  | .assign => m.startWrite form .assign arguments span scope
  | .function => m.makeFunction arguments span scope

/-- The name that the function of an application goes by. -/
def callName (operator : Node) : String :=
  operator.name?.getD "func"

/-- Starts to evaluate a node: what `eval`, and for an application `eval_apply`, does first. -/
def startNode (m : Machine) (node : Node) (scope : Ref) : Machine :=
  match node with
  | .number x _ => m.goto (.value (.number x))
  | .text x _ => m.goto (.value (.text x))
  | .word name span => m.lookup ⟨name, span⟩ scope
  | .apply operator arguments span =>
    match operator.name?.bind Form.ofName? with
    | some form => m.startForm form arguments span scope
    | none =>
      m.await (.eval operator scope)
        (.operator operator.span ⟨callName operator, span⟩ arguments scope)

/-- Binds parameters to copies of the arguments, in order (`call_closure`). -/
def bindParameters (h : Heap) (frame : Ref) : List (String × Span) → List Value → Heap
  | (name, _) :: parameters, v :: arguments =>
    bindParameters (h.bind frame name v) frame parameters arguments
  | _, _ => h

/-- Calls a function that is not built in (`call_closure`): its body is evaluated in a new frame
    inside the frame that the function was made in. -/
def enter (m : Machine) (call : Call) (c : Closure) (function : Value) (arguments : List Value) :
    Machine :=
  if arguments.length = c.parameters.length then
    let (heap, frame) := m.heap.child c.scope
    { m with
      heap := bindParameters heap frame c.parameters arguments
      control := .eval c.body frame
      pending := .leave frame (function :: arguments) :: m.pending }
  else
    (m.forget (function :: arguments)).fail
      (.arity call.span call.name c.parameters.length arguments.length)

/-- Calls a built-in function (the `NativeFunction` case of `apply`). -/
def callBuiltin (m : Machine) (call : Call) (f : Builtin) (function : Value)
    (arguments : List Value) : Machine :=
  match f.apply call.span arguments m.heap m.out with
  | (heap, out, .ok v) =>
    { m with heap := heap.discardValues (function :: arguments), out := out, control := .value v }
  | (heap, out, .error fault) =>
    { m with heap := heap.discardValues (function :: arguments), out := out,
             control := .fault fault }

/-- Applies a function to arguments (`apply`), all of them copies that the call uses up. What is not
    a function is blamed at `blamed`. -/
def apply (m : Machine) (call : Call) (blamed : Span) (function : Value) (arguments : List Value) :
    Machine :=
  match function with
  | .closure r =>
    match m.heap.closure? r with
    | some c => m.enter call c function arguments
    | none => m.forget (function :: arguments)
  | .builtin f => m.callBuiltin call f function arguments
  | v => (m.forget (v :: arguments)).fail (.notCallable call.span blamed v.typeName)

/-- Goes on to the next argument of an application (`eval_apply`), or to the call if there is none
    left. -/
def proceed (m : Machine) (call : Call) (function : Value) (before : List Value)
    (rest : List Node) (scope : Ref) : Machine :=
  match rest with
  | [] => m.apply call call.span function before.reverse
  | node :: rest => m.await (.eval node scope) (.argument call function before rest scope)

/-- Binds a value, as `eval_define` and `eval_set` do in the end. The binding gets a copy, the value
    itself is the result. -/
def write (m : Machine) (kind : Write) (target : Target) (scope : Ref) (v : Value) : Machine :=
  let written := match kind with
    | .define => m.heap.define scope target.name v
    | .assign => m.heap.assign scope target.name v
  match written with
  | .ok heap => { m with heap := heap, control := .value v }
  | .error e => (m.forget [v]).fail (bindFault e target)

/-- Hands a value to the work that waits for it; the machine has that work already taken off. -/
def resume (m : Machine) (work : Pending) (v : Value) : Machine :=
  match work with
  | .operator operator call arguments scope =>
    if v.callable then m.proceed call v [] arguments scope
    else (m.forget [v]).fail (.notCallable call.span operator v.typeName)
  | .argument call function before rest scope => m.proceed call function (v :: before) rest scope
  | .choice yes no scope => (m.forget [v]).goto (.eval (if v.truthy then yes else no) scope)
  | .test condition body scope =>
    if v.truthy then (m.forget [v]).await (.eval body scope) (.again condition body scope)
    else (m.forget [v]).goto (.value .nothing)
  | .again condition body scope =>
    (m.forget [v]).await (.eval condition scope) (.test condition body scope)
  | .next previous rest scope =>
    match rest with
    | [] => (m.forget [previous]).goto (.value v)
    | node :: rest => (m.forget [previous]).await (.eval node scope) (.next v rest scope)
  | .write kind target scope => m.write kind target scope v
  | .leave frame kept => ({ m with heap := m.heap.release frame }.forget kept).goto (.value v)

/-- Lets go of work that waits for a value that will not come; the frame of a call is released all
    the same. -/
def unwind (m : Machine) (work : Pending) (f : Fault) : Machine :=
  match work with
  | .leave frame kept => ({ m with heap := m.heap.release frame }.forget kept).fail f
  | work => (m.forget work.kept).fail f

/-- One step. A machine with a value or a fault and nothing waiting stays as it is. -/
def step (m : Machine) : Machine :=
  match m with
  | ⟨heap, out, .eval node scope, pending⟩ =>
    startNode ⟨heap, out, .value .nothing, pending⟩ node scope
  | ⟨heap, out, .value v, work :: pending⟩ =>
    resume ⟨heap, out, .value .nothing, pending⟩ work v
  | ⟨heap, out, .fault f, work :: pending⟩ =>
    unwind ⟨heap, out, .value .nothing, pending⟩ work f
  | m => m

/-- The result of a machine that has ended. -/
def result? (m : Machine) : Option (Except Fault Value) :=
  match m.control, m.pending with
  | .value v, [] => some (.ok v)
  | .fault f, [] => some (.error f)
  | _, _ => none

/-- Steps until the machine ends, at most as many as the fuel. -/
def run : Nat → Machine → Machine
  | 0, m => m
  | fuel + 1, m => if m.result?.isSome then m else run fuel m.step

end Machine

end ApplyLang
