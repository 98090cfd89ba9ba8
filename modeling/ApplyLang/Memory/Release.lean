import ApplyLang.Memory.Scope

/-!
# Giving up a frame

A function bound in the frame it was made in keeps that frame alive, and the frame keeps the
function: counting holders never frees such a pair. So whoever owns a frame, a run or a call, does
not just drop its handle but releases it (`Scope::release`), which looks for frames that only such
cycles keep alive and empties them. What it looks at, `Reachability`, is a survey here.

* `Heap.survey` — the frames and functions that can be reached from a frame, each with the number of
  its holders and the number of links into it that the survey has met.
* `Survey.live` — what something outside the survey can reach: a member with more holders than links
  into it is held from outside.
* `Heap.release` — gives up the handle of a frame's owner. If the frame is not live, every unsealed
  frame of the survey that is not live is emptied, and counting does the rest.

An array shares its storage between copies, so a function found in an array counts as held from
outside. The survey does not look into sealed frames.

Names in brackets are the interpreter's own for what a definition does.
-/

namespace ApplyLang

/-- What a survey knows of a frame or a function (`Entry`). -/
structure Member where
  /-- Handles to it. -/
  holders : Nat
  /-- Links into it from other members, the released handle included (`internal`). -/
  links : Nat
  /-- Found in an array. -/
  pinned : Bool
  /-- The members that it links to, once for each link (`edges`). -/
  targets : List Ref
  deriving Repr

/-- A survey under way: what is known of each reference, and the members still to be visited, the
    latest first (`nodes` and `work` of `Reachability::trace`). -/
structure Survey where
  members : Array (Option Member)
  waiting : List Ref

namespace Survey

/-- What is known of a reference. -/
def member? (s : Survey) (r : Ref) : Option Member :=
  (s.members[r]?).join

/-- Changes what is known of a reference. -/
def put (s : Survey) (r : Ref) (m : Member) : Survey :=
  { s with members := s.members.setIfInBounds r (some m) }

/-- Meets a link to a frame or a function (`discover_frame`, `discover_closure`). Only the first
    link makes it wait for a visit. -/
def meet (h : Heap) (s : Survey) (r : Ref) : Survey :=
  match s.member? r with
  | some m => s.put r { m with links := m.links + 1 }
  | none =>
    let s := s.put r ⟨h.holders r, 1, false, []⟩
    { s with waiting := r :: s.waiting }

/-- Takes the latest link to a function back and marks it as held from outside, as `discover_val`
    does with what it has found in an array. -/
def pin (s : Survey) (r : Ref) : Survey :=
  match s.member? r with
  | some m => s.put r { m with links := m.links - 1, pinned := true }
  | none => s

/-- Meets what a bound value holds (`discover_val`). A function is a link; the functions in an array
    are pinned. -/
def meetValue (h : Heap) (s : Survey) (v : Value) : Survey :=
  match v with
  | .closure r => s.meet h r
  | v => v.closures.foldl (fun s r => (s.meet h r).pin r) s

/-- Links of an object, once for each. -/
def targetsOf : Object → List Ref
  | .frame f =>
    if f.isSealed then []
    else f.parent.toList ++ f.bindings.filterMap fun binding =>
      match binding.2 with
      | .closure r => some r
      | _ => none
  | .closure c => [c.scope]
  | .array _ => []

/-- Meets everything that an object links to. -/
def meetObject (h : Heap) (s : Survey) : Object → Survey
  | .frame f =>
    if f.isSealed then s
    else
      let s := f.parent.toList.foldl (meet h) s
      f.bindings.foldl (fun s binding => s.meetValue h binding.2) s
  | .closure c => s.meet h c.scope
  | .array _ => s

/-- Writes down what a member links to. -/
def record (s : Survey) (r : Ref) (targets : List Ref) : Survey :=
  match s.member? r with
  | some m => s.put r { m with targets := targets }
  | none => s

/-- Visits a member. -/
def visit (h : Heap) (s : Survey) (r : Ref) : Survey :=
  match h.object? r with
  | some object => (s.meetObject h object).record r (targetsOf object)
  | none => s

/-- Visits members, at most as many as the fuel: the loop of `Reachability::trace`. -/
def visitAll (h : Heap) : Nat → Survey → Survey
  | 0, s => s
  | fuel + 1, s =>
    match s.waiting with
    | [] => s
    | r :: rest => visitAll h fuel (visit h { s with waiting := rest } r)

/-- Whether something outside the survey holds a member: where `garbage` starts from. -/
def heldOutside (s : Survey) (r : Ref) : Bool :=
  match s.member? r with
  | some m => m.pinned || m.links < m.holders
  | none => false

/-- The members. -/
def refs (s : Survey) : List Ref :=
  (List.range s.members.size).filter fun r => (s.member? r).isSome

/-- What a member links to. -/
def targets (s : Survey) (r : Ref) : List Ref :=
  match s.member? r with
  | some m => m.targets
  | none => []

/-- Marks references as live, and returns those that were not marked before. -/
def mark (live : Array Bool) : List Ref → Array Bool × List Ref
  | [] => (live, [])
  | r :: rest =>
    if live.getD r true then mark live rest
    else
      let (live, fresh) := mark (live.setIfInBounds r true) rest
      (live, r :: fresh)

/-- Spreads the marks along links, round after round: the loop of `garbage`. -/
def spread (s : Survey) : Nat → Array Bool → List Ref → Array Bool
  | 0, live, _ => live
  | _ + 1, live, [] => live
  | rounds + 1, live, frontier =>
    let (live, fresh) := mark live frontier
    s.spread rounds live (fresh.flatMap s.targets)

/-- The members that something outside the survey can reach. Every round but the last marks a
    member, so there are no more rounds than members. -/
def live (s : Survey) : Array Bool :=
  s.spread (s.members.size + 1) (Array.replicate s.members.size false)
    (s.refs.filter s.heldOutside)

end Survey

namespace Heap

/-- The survey from a frame whose handle is being released (`Reachability::trace`). The handle
    counts as a link. -/
def survey (h : Heap) (r : Ref) : Survey :=
  Survey.visitAll h h.cells.size
    (Survey.meet h ⟨Array.replicate h.cells.size none, []⟩ r)

/-- The frames that releasing a handle empties (`Reachability::garbage`). -/
def lost (h : Heap) (r : Ref) : List Ref :=
  let s := h.survey r
  let live := s.live
  if live.getD r false then []
  else s.refs.filter fun m => !live.getD m false && (h.frame? m).isSome && !h.isSealed m

/-- Empties a frame (`Scope::clear`) and returns the handles that were in its bindings. -/
def emptyFrame (h : Heap) (r : Ref) : Heap × List Ref :=
  match h.frame? r with
  | some f =>
    (h.replace r (.frame { f with bindings := [] }),
      f.bindings.flatMap fun binding => binding.2.handles)
  | none => (h, [])

/-- Empties frames and returns the handles that were in their bindings. -/
def emptyFrames (h : Heap) : List Ref → Heap × List Ref
  | [] => (h, [])
  | r :: rest =>
    let (h, handles) := h.emptyFrame r
    let (h, more) := h.emptyFrames rest
    (h, handles ++ more)

/-- Gives up the handle of a frame's owner (`Scope::release`). If it is the only handle, dropping it
    frees the frame. -/
def release (h : Heap) (r : Ref) : Heap :=
  if h.holders r = 1 then h.discard [r]
  else
    let (h', handles) := h.emptyFrames (h.lost r)
    h'.discard (handles ++ [r])

end Heap

end ApplyLang
