import ApplyLang.Evaluation.Machine

/-!
# Running programs

* `Machine.finish?` — runs a machine to its end.
* `Machine.ofNode` — evaluates a node in a frame that somebody else holds.
* `Machine.ofProgram` — evaluates a program in a frame of its own inside the global frame, which is
  released in the end: nothing that a program defines outlives it but what its result still needs.
* `Program.start` — a program that has been read and is ready to run.
* `Program.run?` — reads and runs a program.
-/

namespace ApplyLang

/-- How an evaluation ended. The value is a copy for whoever asked. -/
structure Ended where
  heap : Heap
  out : Sink
  result : Except Fault Value

namespace Machine

/-- Runs a machine to its end, or not at all if the fuel does not last. -/
def finish? (fuel : Nat) (m : Machine) : Option Ended :=
  let last := m.run fuel
  last.result?.map fun result => ⟨last.heap, last.out, result⟩

/-- Evaluates a node in a frame (`eval`). -/
def ofNode (h : Heap) (out : Sink) (node : Node) (scope : Ref) : Machine :=
  ⟨h, out, .eval node scope, []⟩

/-- Evaluates a node in a new frame inside the global frame, as `run_with_output` does. -/
def ofProgram (h : Heap) (out : Sink) (node : Node) : Machine :=
  let (h, frame) := h.child Heap.global
  ⟨h, out, .eval node frame, [.leave frame []]⟩

/-- Applies a function to arguments, copies that the call uses up (`apply`). -/
def ofCall (h : Heap) (out : Sink) (call : Call) (function : Value) (arguments : List Value) :
    Machine :=
  apply ⟨h, out, .value .nothing, []⟩ call call.span function arguments

end Machine

/-- A parse error as a fault: an empty span at its position (`parsing_error`). -/
def ParseError.fault (e : ParseError) : Fault :=
  .parsing ⟨e.position, e.position⟩ e.expected.message

namespace Program

/-- Reads a program. -/
def start (h : Heap) (out : Sink) (source : String) : Except Fault Machine :=
  match parse source with
  | .error e => .error e.fault
  | .ok node => .ok (Machine.ofProgram h out node)

/-- Reads a program and runs it (`run_with_output`). A text that is no program ends at once. -/
def run? (fuel : Nat) (h : Heap) (out : Sink) (source : String) : Option Ended :=
  match start h out source with
  | .error f => some ⟨h, out, .error f⟩
  | .ok m => m.finish? fuel

end Program

end ApplyLang
