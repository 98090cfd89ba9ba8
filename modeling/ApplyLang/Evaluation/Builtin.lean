import ApplyLang.Memory.Heap
import ApplyLang.Number.Binary
import ApplyLang.Evaluation.Sink
import ApplyLang.Fault

/-!
# Built-in functions

* `Builtin.compute` — the result of a built-in function, as far as its arguments decide it: all but
  `array`, whose result needs a storage of its own.
* `Builtin.apply` — the call as a whole, with its effects on memory and output.

A fault of types gives the place of the call, not that of the argument. It blames the first argument
that has a wrong type, except that `element` looks at the index first.
-/

namespace ApplyLang

namespace Builtin

/-- Number of arguments, which `native` checks; `array` takes any number. -/
def arity? : Builtin → Option Nat
  | array => none
  | print => some 1
  | length => some 1
  | _ => some 2

/-- The fault of a value whose type is none of those wanted (`mismatch`). -/
def mismatch (call : Span) (v : Value) (valid : List String) : Fault :=
  .mismatch call call v.typeName valid

/-- Two numbers (`numbers`). -/
def numbers (call : Span) : Value → Value → Except Fault (Float × Float)
  | .number x, .number y => .ok (x, y)
  | .number _, y => .error (mismatch call y ["Number"])
  | x, _ => .error (mismatch call x ["Number"])

/-- An operation on two numbers (`add`, `sub`, `mul`, `div`). -/
def arithmetic (call : Span) (operation : Float → Float → Float) (x y : Value) :
    Except Fault Value := do
  let (a, b) ← numbers call x y
  return .number (operation a b)

/-- How two numbers compare. Nothing compares with a NaN. -/
def compareNumbers (x y : Float) : Option Ordering :=
  if x < y then some .lt else if x == y then some .eq else if y < x then some .gt else none

/-- How two texts compare, by the code points of their first difference. -/
def compareTexts (x y : String) : Ordering :=
  if x < y then .lt else if x = y then .eq else .gt

/-- How two values of one ordered type compare (`compare`). -/
def compareValues (call : Span) : Value → Value → Except Fault (Option Ordering)
  | .number x, .number y => .ok (compareNumbers x y)
  | .text x, .text y => .ok (some (compareTexts x y))
  | .number _, y => .error (mismatch call y ["Number"])
  | .text _, y => .error (mismatch call y ["String"])
  | x, _ => .error (mismatch call x ["Number", "String"])

/-- Whether two values compare in a given way (`lt`, `gt`). -/
def ordered (call : Span) (wanted : Ordering) (x y : Value) : Except Fault Value := do
  return .bool ((← compareValues call x y) == some wanted)

/-- Items of a sequence: those of an array, or the one-character texts of a text. -/
def itemsOf (call : Span) : Value → Except Fault (List Value)
  | .array _ items => .ok items
  | .text x => .ok (x.toList.map fun c => .text c.toString)
  | v => .error (mismatch call v ["Array", "String"])

/-- The item of a sequence at an index (`element`). The index is looked at before the sequence. -/
def itemAt (call : Span) (sequence index : Value) : Except Fault Value :=
  match index with
  | .number x => do
    let items ← itemsOf call sequence
    match (Number.index? x items.length).bind fun k => items[k]? with
    | some item => .ok item
    | none => .error (.outOfRange call (Number.text x) items.length)
  | v => .error (mismatch call v ["Number"])

/-- Result of a built-in function other than `array`. What is printed is also the result. -/
def compute (f : Builtin) (call : Span) (arguments : List Value) : Except Fault Value :=
  match f, arguments with
  | add, [x, y] => arithmetic call (· + ·) x y
  | subtract, [x, y] => arithmetic call (· - ·) x y
  | multiply, [x, y] => arithmetic call (· * ·) x y
  | divide, [x, y] => arithmetic call (· / ·) x y
  | equal, [x, y] => .ok (.bool (x.same y))
  | less, [x, y] => ordered call .lt x y
  | greater, [x, y] => ordered call .gt x y
  | print, [x] => .ok x
  | length, [x] => do return .number (Number.ofNat (← itemsOf call x).length)
  | element, [sequence, index] => itemAt call sequence index
  | f, arguments =>
    .error (.arity call f.name (f.arity?.getD arguments.length) arguments.length)

/-- The bytes that printing a value writes (`print`): its printed form and a line feed. -/
def lineOf (h : Heap) (v : Value) : List UInt8 :=
  Text.bytes ((h.display v).toList ++ ['\n'])

/-- Calls a built-in function. The result is a copy of its own. -/
def apply (f : Builtin) (call : Span) (arguments : List Value) (h : Heap) (out : Sink) :
    Heap × Sink × Except Fault Value :=
  match f with
  | array =>
    let (h, v) := h.newArray arguments
    (h, out, .ok v)
  | f =>
    match f.compute call arguments with
    | .error fault => (h, out, .error fault)
    | .ok v =>
      if f = print then
        match out.write (lineOf h v) with
        | (out, true) => (h.copy v, out, .ok v)
        | (out, false) => (h, out, .error (.output call out.refusal))
      else (h.copy v, out, .ok v)

/-- Functions that neither make an array nor print only copy their result. -/
theorem apply_eq_of_ne {f : Builtin} (ha : f ≠ array) (hp : f ≠ print) (call : Span)
    (arguments : List Value) (h : Heap) (out : Sink) :
    f.apply call arguments h out = match f.compute call arguments with
      | .ok v => (h.copy v, out, .ok v)
      | .error fault => (h, out, .error fault) := by
  rw [apply]
  · cases f.compute call arguments with
    | error fault => rfl
    | ok v => exact if_neg hp
  · exact ha

/-- What such a function returns. -/
theorem apply_result {f : Builtin} (ha : f ≠ array) (hp : f ≠ print) (call : Span)
    (arguments : List Value) (h : Heap) (out : Sink) :
    (f.apply call arguments h out).2.2 = f.compute call arguments := by
  rw [apply_eq_of_ne ha hp]
  cases f.compute call arguments with
  | error fault => rfl
  | ok v => rfl

end Builtin

end ApplyLang
