import ApplyLang.Memory.Heap

/-!
# Scopes

A scope is a frame together with the frames around it: its parent, the parent of that, and so on. A
name means its innermost binding along this chain.

* `Heap.chain` — the frames of a scope, innermost first.
* `Heap.find?` — what a name means.
* `Heap.define` — binds a name in the frame itself.
* `Heap.assign` — changes the binding in the innermost frame that has the name.

Reading and writing agree on the frame that owns a name (`Heap.owner?`).
-/

namespace ApplyLang

/-- Why a name cannot be written (`BindError`). -/
inductive BindError
  /-- No frame of the scope has the name. -/
  | unbound
  /-- The frame that has the name refuses writes. -/
  | isSealed
  deriving DecidableEq, Repr

namespace Frame

/-- The value of a name in this frame alone. -/
def get? (f : Frame) (name : String) : Option Value :=
  f.bindings.lookup name

/-- Whether the name is bound in this frame. -/
def owns (f : Frame) (name : String) : Bool :=
  (f.get? name).isSome

/-- Names bound in this frame, in the order in which they were first bound. -/
def names (f : Frame) : List String :=
  f.bindings.map Prod.fst

/-- The bindings with a name bound to a value. -/
def insertInto (name : String) (v : Value) : List (String × Value) → List (String × Value)
  | [] => [(name, v)]
  | (key, old) :: rest =>
    if name == key then (key, v) :: rest else (key, old) :: insertInto name v rest

/-- The frame with a name bound to a value. -/
def insert (f : Frame) (name : String) (v : Value) : Frame :=
  { f with bindings := insertInto name v f.bindings }

end Frame

namespace Heap

/-- The references from a frame outwards, at most as many as the fuel. -/
def chainFrom (h : Heap) : Nat → Option Ref → List Ref
  | 0, _ => []
  | _ + 1, none => []
  | fuel + 1, some r =>
    match h.frame? r with
    | some f => r :: h.chainFrom fuel f.parent
    | none => []

/-- The frames of a scope, innermost first. Parents are older than their children, so no frame comes
    twice. -/
def chain (h : Heap) (scope : Ref) : List Ref :=
  h.chainFrom h.cells.size (some scope)

/-- Whether a frame itself binds a name (`Scope::owns`). -/
def owns (h : Heap) (r : Ref) (name : String) : Bool :=
  match h.frame? r with
  | some f => f.owns name
  | none => false

/-- The innermost frame of a scope that binds a name. -/
def owner? (h : Heap) (scope : Ref) (name : String) : Option Ref :=
  (h.chain scope).find? fun r => h.owns r name

/-- The value that a frame itself gives a name. -/
def bound? (h : Heap) (r : Ref) (name : String) : Option Value :=
  (h.frame? r).bind fun f => f.get? name

/-- What a name means in a scope (`Scope::find`). -/
def find? (h : Heap) (scope : Ref) (name : String) : Option Value :=
  (h.owner? scope name).bind fun r => h.bound? r name

/-- Whether a frame refuses writes (`Scope::is_sealed`). -/
def isSealed (h : Heap) (r : Ref) : Bool :=
  match h.frame? r with
  | some f => f.isSealed
  | none => false

/-- The frame around a frame (`Scope::parent`). -/
def parent? (h : Heap) (r : Ref) : Option Ref :=
  (h.frame? r).bind Frame.parent

/-- Replaces the object of a reference and leaves its holders. -/
def replace (h : Heap) (r : Ref) (object : Object) : Heap :=
  match h.cell? r with
  | some c => h.put r (some ⟨c.holders, object⟩)
  | none => h

/-- Binds a name in a frame to a copy of a value, and drops what the name was bound to. -/
def bind (h : Heap) (r : Ref) (name : String) (v : Value) : Heap :=
  match h.frame? r with
  | some f =>
    let old := f.get? name
    let h := (h.copy v).replace r (.frame (f.insert name v))
    h.discardValues old.toList
  | none => h

/-- Binds a name in a frame, whatever the frames around it say (`Scope::define`). -/
def define (h : Heap) (r : Ref) (name : String) (v : Value) : Except BindError Heap :=
  if h.isSealed r then .error .isSealed else .ok (h.bind r name v)

/-- Changes the innermost binding of a name (`Scope::set`). -/
def assign (h : Heap) (scope : Ref) (name : String) (v : Value) : Except BindError Heap :=
  match h.owner? scope name with
  | none => .error .unbound
  | some r => if h.isSealed r then .error .isSealed else .ok (h.bind r name v)

/-- A new empty frame inside another one, with one holder (`Scope::child`). -/
def child (h : Heap) (r : Ref) : Heap × Ref :=
  (h.retain r).alloc (.frame ⟨[], some r, false⟩)

/-- A new frame that refuses writes, with one holder (`Scope::sealed`). The handles in the values
    pass to it. -/
def newSealed (h : Heap) (bindings : List (String × Value)) : Heap × Ref :=
  h.alloc (.frame ⟨bindings, none, true⟩)

/-! ## The global frame -/

/-- The frame around every program (`global_scope`). -/
def global : Ref := 0

/-- The names that every program starts with. -/
def globalBindings : List (String × Value) :=
  ("true", .bool true) :: ("false", .bool false) ::
    Builtin.all.map fun f => (f.name, .builtin f)

/-- Memory with the global frame alone, which one handle keeps alive for good. -/
def initial : Heap :=
  (empty.newSealed globalBindings).1

/-! ## Frames -/

theorem owns_iff_bound? (h : Heap) (r : Ref) (name : String) :
    h.owns r name = (h.bound? r name).isSome := by
  unfold owns bound? Frame.owns
  cases h.frame? r <;> rfl

/-- A name has a meaning exactly where some frame of the scope owns it. -/
theorem isSome_find? (h : Heap) (scope : Ref) (name : String) :
    (h.find? scope name).isSome = (h.owner? scope name).isSome := by
  unfold find?
  cases ho : h.owner? scope name with
  | none => rfl
  | some r =>
    have := List.find?_some ho
    rw [owns_iff_bound?] at this
    simpa using this

end Heap

namespace Frame

theorem get?_insert_self (f : Frame) (name : String) (v : Value) :
    (f.insert name v).get? name = some v := by
  unfold insert get?
  simp only
  induction f.bindings with
  | nil => simp [insertInto]
  | cons binding rest ih =>
    obtain ⟨key, old⟩ := binding
    unfold insertInto
    by_cases h : name = key
    · subst h; simp
    · have hb : (name == key) = false := by simp [h]
      simp [hb, List.lookup_cons, ih]

theorem get?_insert_of_ne (f : Frame) {name other : String} (v : Value) (h : other ≠ name) :
    (f.insert name v).get? other = f.get? other := by
  unfold insert get?
  simp only
  induction f.bindings with
  | nil => simp [insertInto, h]
  | cons binding rest ih =>
    obtain ⟨key, old⟩ := binding
    unfold insertInto
    by_cases hk : name = key
    · subst hk
      have hb : (other == name) = false := by simp [h]
      simp [hb, List.lookup_cons]
    · simp [hk, List.lookup_cons, ih]

end Frame

end ApplyLang
