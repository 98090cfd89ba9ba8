import ApplyLang.Evaluation.Program
import ApplyLang.Memory.Description

/-!
# Sessions

A session works on memory by hand: it makes frames, binds names, evaluates programs in frames, and
keeps frames and values under names of its own. Every name in its table of scopes is one handle to a
frame, every name in its table of values one copy of a value; weak handles keep nothing alive.

* `Step` — what can be asked of a session.
* `Answer` — what it says.
* `Session.perform` — one step. No handle of a step outlives it but those that it stores.
-/

namespace ApplyLang

/-- A value as a step writes it down. -/
inductive Written
  | bool (value : Bool)
  | number (value : Float)
  | text (value : String)
  | list (items : List Written)
  /-- The value stored under a name. -/
  | stored (name : String)

/-- What can be asked of a session. -/
inductive Step
  /-- Stores a handle to the global frame. -/
  | global (into : String)
  /-- Makes a sealed frame without a parent. -/
  | makeSealed (bindings : List (String × Written)) (into : String)
  /-- Makes a frame inside another one. -/
  | child (of : String) (into : String)
  /-- Stores one more handle to a frame. -/
  | share (of : String) (into : String)
  /-- Looks for the parent of a frame. -/
  | parent (of : String) (into : Option String)
  | define (scope name : String) (value : Written)
  | assign (scope name : String) (value : Written)
  | find (scope name : String) (into : Option String)
  | owns (scope name : String)
  | isSealed (scope : String)
  | describeScope (scope : String)
  | describe (value : Written)
  | holders (scope : String)
  /-- Stores a weak handle to a frame. -/
  | weaken (scope : String) (into : String)
  | alive (weak : String)
  /-- Stores a handle to the frame of a weak handle, if it is alive. -/
  | strengthen (weak : String) (into : String)
  /-- Releases a handle, as the owner of the frame. -/
  | release (scope : String)
  /-- Drops a handle. -/
  | drop (scope : String)
  /-- Drops a value. -/
  | forget (value : String)
  | evaluate (scope : String) (source : String) (into : Option String)
  | apply (function : Written) (arguments : List Written) (call : Call) (into : Option String)
  | equal (a b : Written)
  | inspect (value : Written)

/-- A value as an answer shows it. -/
structure Shown where
  type : String
  display : String
  deriving DecidableEq, Repr

/-- What a session says to a step. -/
inductive Answer
  | done
  | refused (e : BindError)
  | found (there : Bool)
  | value (v : Shown)
  | owns (answer : Bool)
  | isSealed (answer : Bool)
  | description (text : String)
  | holders (count : Nat)
  | alive (answer : Bool)
  /-- What was printed, and how the evaluation ended. -/
  | ended (printed : String) (result : Except Fault Shown)
  | equal (answer : Bool)
  | inspected (v : Shown) (truthy callable : Bool)

/-- Why a step has no answer. -/
inductive StepError
  /-- Nothing is stored under the name. -/
  | missing (name : String)
  /-- The evaluation did not end in the time given. -/
  | unfinished
  deriving DecidableEq, Repr

/-- Something stored under names; a name stands at most once. -/
abbrev Table (α : Type) := List (String × α)

namespace Table

variable {α : Type}

/-- What is stored under a name. -/
def get? (t : Table α) (name : String) : Option α :=
  List.lookup name t

/-- Takes out what is stored under a name. -/
def erase (t : Table α) (name : String) : Table α :=
  t.filter fun entry => entry.1 != name

/-- Stores something under a name, in place of what was there. -/
def insert (t : Table α) (name : String) (a : α) : Table α :=
  (name, a) :: Table.erase t name

/-- What is stored under a name, or the step has no answer. -/
def get (t : Table α) (name : String) : Except StepError α :=
  match Table.get? t name with
  | some a => .ok a
  | none => .error (.missing name)

end Table

/-- The state of a session. -/
structure Session where
  heap : Heap
  out : Sink
  scopes : Table Ref
  weaks : Table Ref
  values : Table Value

namespace Session

/-- A session that has just begun. -/
def start (out : Sink) : Session :=
  ⟨.initial, out, [], [], []⟩

mutual

/-- Makes a copy of a value that a step writes down. -/
def make (values : Table Value) (h : Heap) : Written → Except StepError (Heap × Value)
  | .bool x => .ok (h, .bool x)
  | .number x => .ok (h, .number x)
  | .text x => .ok (h, .text x)
  | .stored name => do
    let v ← values.get name
    return (h.copy v, v)
  | .list items => do
    let (h, made) ← makeAll values h items
    let (h, v) := h.newArray made
    return (h.discardValues made, v)

/-- Makes copies of several values. -/
def makeAll (values : Table Value) (h : Heap) :
    List Written → Except StepError (Heap × List Value)
  | [] => .ok (h, [])
  | item :: rest => do
    let (h, v) ← make values h item
    let (h, made) ← makeAll values h rest
    return (h, v :: made)

end

/-- Stores a handle to a frame, in place of the handle that was there. -/
def storeScope (s : Session) (name : String) (r : Ref) : Session :=
  { s with
    scopes := s.scopes.insert name r
    heap := s.heap.discard (s.scopes.get? name).toList }

/-- Stores a copy of a value, in place of the value that was there. -/
def storeValue (s : Session) (name : String) (v : Value) : Session :=
  { s with
    values := s.values.insert name v
    heap := s.heap.discardValues (s.values.get? name).toList }

/-- Stores a copy of a value if there is a name for it, and drops it otherwise. -/
def keep (s : Session) (name : Option String) (v : Value) : Session :=
  match name with
  | some name => s.storeValue name v
  | none => { s with heap := s.heap.discardValues [v] }

/-- A value as answers show it. -/
def shown (h : Heap) (v : Value) : Shown :=
  ⟨v.typeName, h.display v⟩

/-- The answer to an evaluation: what it printed and how it ended. -/
def conclude (s : Session) (ended : Ended) (into : Option String) : Session × Answer :=
  let printed := ended.out.textFrom s.out.taken.size
  let s := { s with heap := ended.heap, out := ended.out }
  match ended.result with
  | .error f => (s, .ended printed (.error f))
  | .ok v =>
    let answer := shown s.heap v
    (s.keep into v, .ended printed (.ok answer))

/-- Writes a value with one of the two ways to write. -/
def write (s : Session) (value : Written)
    (how : Heap → Value → Except BindError Heap) : Except StepError (Session × Answer) := do
  let (h, v) ← make s.values s.heap value
  match how h v with
  | .ok h => return ({ s with heap := h.discardValues [v] }, .done)
  | .error e => return ({ s with heap := h.discardValues [v] }, .refused e)

/-- Asks something about a value and drops it. -/
def ask (s : Session) (value : Written) (question : Heap → Value → Answer) :
    Except StepError (Session × Answer) := do
  let (h, v) ← make s.values s.heap value
  return ({ s with heap := h.discardValues [v] }, question h v)

/-- Performs a step; an evaluation takes at most `fuel` steps of the machine. -/
def perform (fuel : Nat) (s : Session) (step : Step) : Except StepError (Session × Answer) :=
  match step with
  | .global into =>
    .ok (({ s with heap := s.heap.retain Heap.global }).storeScope into Heap.global, .done)
  | .makeSealed bindings into => do
    let (h, made) ← makeAll s.values s.heap (bindings.map Prod.snd)
    let (h, r) := h.newSealed ((bindings.map Prod.fst).zip made)
    return ({ s with heap := h }.storeScope into r, .done)
  | .child of into => do
    let (h, r) := s.heap.child (← s.scopes.get of)
    return ({ s with heap := h }.storeScope into r, .done)
  | .share of into => do
    let r ← s.scopes.get of
    return ({ s with heap := s.heap.retain r }.storeScope into r, .done)
  | .parent of into => do
    match s.heap.parent? (← s.scopes.get of), into with
    | some r, some name =>
      return ({ s with heap := s.heap.retain r }.storeScope name r, .found true)
    | some _, none => return (s, .found true)
    | none, _ => return (s, .found false)
  | .define scope name value => do
    let r ← s.scopes.get scope
    s.write value fun h v => h.define r name v
  | .assign scope name value => do
    let r ← s.scopes.get scope
    s.write value fun h v => h.assign r name v
  | .find scope name into => do
    match s.heap.find? (← s.scopes.get scope) name with
    | some v =>
      let answer := shown s.heap v
      return ({ s with heap := s.heap.copy v }.keep into v, .value answer)
    | none => return (s, .found false)
  | .owns scope name => do return (s, .owns (s.heap.owns (← s.scopes.get scope) name))
  | .isSealed scope => do return (s, .isSealed (s.heap.isSealed (← s.scopes.get scope)))
  | .describeScope scope => do
    return (s, .description (s.heap.describedScope (← s.scopes.get scope)))
  | .describe value => s.ask value fun h v => .description (h.described v)
  | .holders scope => do return (s, .holders (s.heap.holders (← s.scopes.get scope)))
  | .weaken scope into => do
    return ({ s with weaks := s.weaks.insert into (← s.scopes.get scope) }, .done)
  | .alive weak => do return (s, .alive (s.heap.alive (← s.weaks.get weak)))
  | .strengthen weak into => do
    let r ← s.weaks.get weak
    if s.heap.alive r then
      return ({ s with heap := s.heap.retain r }.storeScope into r, .alive true)
    else return (s, .alive false)
  | .release scope => do
    let r ← s.scopes.get scope
    return ({ s with scopes := s.scopes.erase scope, heap := s.heap.release r }, .done)
  | .drop scope => do
    let r ← s.scopes.get scope
    return ({ s with scopes := s.scopes.erase scope, heap := s.heap.discard [r] }, .done)
  | .forget name => do
    let v ← s.values.get name
    return ({ s with values := s.values.erase name, heap := s.heap.discardValues [v] }, .done)
  | .evaluate scope source into => do
    let r ← s.scopes.get scope
    match parse source with
    | .error e => return (s, .ended "" (.error e.fault))
    | .ok node =>
      match (Machine.ofNode s.heap s.out node r).finish? fuel with
      | some ended => return s.conclude ended into
      | none => .error .unfinished
  | .apply function arguments call into => do
    let (h, f) ← make s.values s.heap function
    let (h, made) ← makeAll s.values h arguments
    match (Machine.ofCall h s.out call f made).finish? fuel with
    | some ended => return s.conclude ended into
    | none => .error .unfinished
  | .equal a b => do
    let (h, x) ← make s.values s.heap a
    let (h, y) ← make s.values h b
    return ({ s with heap := h.discardValues [x, y] }, .equal (x.same y))
  | .inspect value =>
    s.ask value fun h v => .inspected (shown h v) v.truthy v.callable

/-- Performs steps in order, up to the first without an answer. -/
def performAll (fuel : Nat) (s : Session) : List Step → Except StepError (Session × List Answer)
  | [] => .ok (s, [])
  | step :: rest => do
    let (s, answer) ← s.perform fuel step
    let (s, answers) ← s.performAll fuel rest
    return (s, answer :: answers)

end Session

end ApplyLang
