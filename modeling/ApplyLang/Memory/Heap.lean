import ApplyLang.Memory.Value
import ApplyLang.Source.Node

/-!
# Memory

Frames, functions and array storages are objects in memory. Each object counts its holders, the
handles to it that exist, and is freed at once when the last handle goes; freeing an object drops
the handles that it holds itself. A reference is never given out twice, so one that has been freed
stays dead.

* `Heap.alloc`, `Heap.retain` — a new object with one holder; one more handle to an object.
* `Heap.discard` — drops handles, and frees whatever is left without a holder.
-/

namespace ApplyLang

/-- A set of named values with a link to the frame around it (`Frame`). A sealed frame refuses every
    write. -/
structure Frame where
  bindings : List (String × Value)
  parent : Option Ref
  isSealed : Bool

/-- A function (`Closure`): its parameters with the places they were written at, its body, and the
    frame that it was made in. -/
structure Closure where
  parameters : List (String × Span)
  body : Node
  scope : Ref

/-- What a reference stands for. -/
inductive Object
  | frame (frame : Frame)
  | closure (closure : Closure)
  | array (items : List Value)

/-- The references that an object keeps alive, once for each handle. -/
def Object.handles : Object → List Ref
  | frame f => f.parent.toList ++ f.bindings.flatMap fun binding => binding.2.handles
  | closure c => [c.scope]
  | array items => items.flatMap Value.handles

/-- An object with the number of its holders. -/
structure Cell where
  holders : Nat
  object : Object

/-- Memory. Position `r` has the object of the reference `r`, or nothing once it has been freed. -/
structure Heap where
  cells : Array (Option Cell)

namespace Heap

/-- Memory without objects. -/
def empty : Heap := ⟨#[]⟩

/-- The object of a reference with its holders, while it is alive. -/
def cell? (h : Heap) (r : Ref) : Option Cell :=
  (h.cells[r]?).join

/-- The object of a reference, while it is alive. -/
def object? (h : Heap) (r : Ref) : Option Object :=
  (h.cell? r).map Cell.object

/-- The frame of a reference. -/
def frame? (h : Heap) (r : Ref) : Option Frame :=
  match h.object? r with
  | some (.frame f) => some f
  | _ => none

/-- The function of a reference. -/
def closure? (h : Heap) (r : Ref) : Option Closure :=
  match h.object? r with
  | some (.closure c) => some c
  | _ => none

/-- Whether a reference still has its object (`WeakScope::upgrade`). -/
def alive (h : Heap) (r : Ref) : Bool :=
  (h.cell? r).isSome

/-- Number of handles to an object (`Scope::holders`); 0 once it has been freed. -/
def holders (h : Heap) (r : Ref) : Nat :=
  match h.cell? r with
  | some c => c.holders
  | none => 0

/-- Changes what is stored for a reference. -/
def put (h : Heap) (r : Ref) (cell : Option Cell) : Heap :=
  ⟨h.cells.setIfInBounds r cell⟩

/-- A new object with one holder. The handles in the object pass to it. -/
def alloc (h : Heap) (object : Object) : Heap × Ref :=
  (⟨h.cells.push (some ⟨1, object⟩)⟩, h.cells.size)

/-- One more handle. -/
def retain (h : Heap) (r : Ref) : Heap :=
  match h.cell? r with
  | some c => h.put r (some ⟨c.holders + 1, c.object⟩)
  | none => h

/-- One more handle for each reference. -/
def retainAll (h : Heap) (refs : List Ref) : Heap :=
  refs.foldl retain h

/-- Drops one handle. If it was the last, the object is freed and the handles in it are returned. -/
def dropHandle (h : Heap) (r : Ref) : Heap × List Ref :=
  match h.cell? r with
  | some c =>
    if c.holders ≤ 1 then (h.put r none, c.object.handles)
    else (h.put r (some ⟨c.holders - 1, c.object⟩), [])
  | none => (h, [])

/-- Drops handles in order, and returns the handles of all objects freed by that. -/
def dropHandles (h : Heap) : List Ref → Heap × List Ref
  | [] => (h, [])
  | r :: rest =>
    let (h, freed) := h.dropHandle r
    let (h, more) := h.dropHandles rest
    (h, freed ++ more)

/-- Drops handles round after round, each round those of the objects that the one before freed. -/
def dropRounds : Nat → Heap → List Ref → Heap
  | 0, h, _ => h
  | _ + 1, h, [] => h
  | rounds + 1, h, r :: rest =>
    let (h, freed) := h.dropHandles (r :: rest)
    dropRounds rounds h freed

/-- Drops handles and frees whatever is left without a holder. Every round but the last frees an
    object, so there are no more rounds than objects. -/
def discard (h : Heap) (refs : List Ref) : Heap :=
  dropRounds (h.cells.size + 1) h refs

/-- Drops copies of values. -/
def discardValues (h : Heap) (values : List Value) : Heap :=
  h.discard (values.flatMap Value.handles)

/-- One more copy of a value. -/
def copy (h : Heap) (v : Value) : Heap :=
  h.retainAll v.handles

/-- Parameter names of a function. -/
def parameterNames (h : Heap) (r : Ref) : List String :=
  match h.closure? r with
  | some c => c.parameters.map Prod.fst
  | none => []

/-- Printed form of a value. -/
def display (h : Heap) (v : Value) : String :=
  v.display h.parameterNames

/-- A new array storage for copies of the values, as a value (`array`). -/
def newArray (h : Heap) (items : List Value) : Heap × Value :=
  let (h, storage) := (h.retainAll (items.flatMap Value.handles)).alloc (.array items)
  (h, .array storage items)

/-- A new function, which holds the frame it is made in, as a value. -/
def newClosure (h : Heap) (c : Closure) : Heap × Value :=
  let (h, r) := (h.retain c.scope).alloc (.closure c)
  (h, .closure r)

/-! ## Reading after a change -/

theorem cell?_put (h : Heap) (r s : Ref) (cell : Option Cell) (hr : r < h.cells.size) :
    (h.put r cell).cell? s = if s = r then cell else h.cell? s := by
  unfold put cell?
  by_cases hs : s = r
  · subst hs; simp [hr]
  · simp [hs, Array.getElem?_setIfInBounds_ne (Ne.symm hs)]

theorem cell?_alloc_new (h : Heap) (object : Object) :
    (h.alloc object).1.cell? (h.alloc object).2 = some ⟨1, object⟩ := by
  simp [alloc, cell?]

theorem cell?_alloc_of_lt (h : Heap) (object : Object) (r : Ref) (hr : r < h.cells.size) :
    (h.alloc object).1.cell? r = h.cell? r := by
  simp [alloc, cell?, Array.getElem?_push, Nat.ne_of_lt hr]

theorem size_put (h : Heap) (r : Ref) (cell : Option Cell) :
    (h.put r cell).cells.size = h.cells.size := by
  simp [put]

end Heap

end ApplyLang
