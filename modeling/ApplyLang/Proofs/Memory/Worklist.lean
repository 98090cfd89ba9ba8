import ApplyLang.Proofs.Memory.Tracing

/-!
# The survey step by step

`Heap.survey` looks at memory as it is. What runs keeps its members by handles, so memory changes
while it is surveyed: whatever is met for the first time gets a handle on the stack, a frame gets
another one in what is known of it, and the handle from the stack is dropped after the visit. The
functions in an array are met like others, item by item at every depth, and each link is taken back
at once, by a counter that must not go below zero.

* `Trace` — memory with the handles of the trace, and what is known so far.
* `Trace.discover`, `Trace.takeBack`, `Trace.discoverObject`, `Trace.visit`, `Trace.run` — the steps,
  which fail where the program would: at a counter below zero, or at something that is not there.
* `Heap.Traceable` — what it takes: links lead to what they should, and nothing is there that nobody
  holds.
* `Trace.Follows` — the invariant: the handles of the trace are accounted for.
* `Heap.trace_eq_survey` — the trace ends, and what it knows is the survey.
-/

namespace ApplyLang

/-- A trace under way. -/
structure Trace where
  /-- Memory, with the handles that the trace has made. -/
  heap : Heap
  /-- What is known, and what waits on the stack. -/
  survey : Survey

namespace Trace

/-! ## Steps -/

/-- Meets a link. The counter of holders is read before there are handles of the trace. -/
def discover (t : Trace) (r : Ref) : Option Trace :=
  match t.survey.member? r, t.heap.object? r with
  | some _, _ => some ⟨t.heap, t.survey.meet t.heap r⟩
  | none, some (.frame _) => some ⟨t.heap.retainAll [r, r], t.survey.meet t.heap r⟩
  | none, some (.closure _) => some ⟨t.heap.retainAll [r], t.survey.meet t.heap r⟩
  | none, _ => none

/-- Takes a link back and marks what it leads to. -/
def takeBack (t : Trace) (r : Ref) : Option Trace :=
  match t.survey.member? r with
  | some m => if m.links = 0 then none else some ⟨t.heap, t.survey.pin r⟩
  | none => some t

mutual

/-- Meets what a value holds, and returns the links to be written down. -/
def discoverValue (t : Trace) : Value → Option (Trace × List Ref)
  | .closure r => do return (← t.discover r, [r])
  | .array _ items => do return (← t.discoverItems items, [])
  | _ => some (t, [])

/-- Meets what the items of an array hold, and takes the links back item by item. -/
def discoverItems (t : Trace) : List Value → Option Trace
  | [] => some t
  | item :: rest => do
    let (t, nested) ← t.discoverValue item
    let t ← nested.foldlM takeBack t
    t.discoverItems rest

end

/-- Meets what bindings hold. -/
def discoverBindings (t : Trace) : List (String × Value) → Option (Trace × List Ref)
  | [] => some (t, [])
  | (_, v) :: rest => do
    let (t, links) ← t.discoverValue v
    let (t, more) ← t.discoverBindings rest
    return (t, links ++ more)

/-- Meets what an object links to. -/
def discoverObject (t : Trace) : Object → Option (Trace × List Ref)
  | .frame f =>
    if f.isSealed then some (t, [])
    else do
      let t ← f.parent.toList.foldlM discover t
      let (t, links) ← t.discoverBindings f.bindings
      return (t, f.parent.toList ++ links)
  | .closure c => do return (← t.discover c.scope, [c.scope])
  | .array _ => none

/-- Visits what has been taken from the stack, writes its links down and drops its handle. -/
def visit (t : Trace) (r : Ref) : Option Trace := do
  let (t, links) ← t.discoverObject (← t.heap.object? r)
  return ⟨t.heap.discard [r], t.survey.record r links⟩

/-- Visits the latest of what waits until nothing does. Fails if that takes more visits than the
    fuel. -/
def run : ℕ → Trace → Option Trace
  | 0, t => if t.survey.waiting = [] then some t else none
  | fuel + 1, t =>
    match t.survey.waiting with
    | [] => some t
    | r :: rest => do run fuel (← visit ⟨t.heap, { t.survey with waiting := rest }⟩ r)

end Trace

namespace Heap

/-- The trace from a frame. -/
def trace (h : Heap) (fuel : ℕ) (r : Ref) : Option Trace := do
  (← Trace.discover ⟨h, ⟨Array.replicate h.cells.size none, []⟩⟩ r).run fuel

/-! ## What it takes -/

/-- A frame or a function. -/
def IsNode (h : Heap) (x : Ref) : Prop :=
  (∃ f, h.object? x = some (.frame f)) ∨ ∃ c, h.object? x = some (.closure c)

/-- Memory in which links can be followed: the frame around a frame and the frame of a function are
    frames, what is bound as a function is one, and what is there has a holder. There may be circles
    of any kind. -/
structure Traceable (h : Heap) : Prop where
  parent {y p : Ref} {f : Frame} (hf : h.object? y = some (.frame f)) (hs : f.isSealed = false)
    (hp : f.parent = some p) : ∃ g, h.object? p = some (.frame g)
  bound {y x : Ref} {f : Frame} {b : String × Value} (hf : h.object? y = some (.frame f))
    (hs : f.isSealed = false) (hb : b ∈ f.bindings) (hx : x ∈ b.2.closures) :
    ∃ c, h.object? x = some (.closure c)
  captured {y : Ref} {c : Closure} (hc : h.object? y = some (.closure c)) :
    ∃ g, h.object? c.scope = some (.frame g)
  held (x : Ref) (hx : h.alive x = true) : 0 < h.holders x

variable {h : Heap} {outer : List Ref} {x y : Ref}

theorem IsNode.alive (hx : h.IsNode x) : h.alive x = true := by
  rcases hx with ⟨f, hf⟩ | ⟨c, hc⟩
  · exact alive_of_object? hf
  · exact alive_of_object? hc

theorem Traceable.isNode (hh : h.Traceable) (hl : h.Links y x) : h.IsNode x := by
  cases hl with
  | parent hf hs hp => exact .inl (hh.parent hf hs hp)
  | bound hf hs hb hx => exact .inr (hh.bound hf hs hb hx)
  | captured hc => exact .inl (hh.captured hc)

theorem Traceable.alive (hh : h.Traceable) (y x : Ref) (hl : h.Links y x) : h.alive x = true :=
  (hh.isNode hl).alive

/-- Memory whose counters tell the truth is traceable. -/
theorem Balanced.traceable (hb : h.Balanced outer) : h.Traceable where
  parent hf _ hp := ((hb.valid _ _ hf).1 _ hp).2
  bound hf _ hb' hx := ((hb.valid _ _ hf).2 _ hb').closure hb.valid _ hx
  captured hc := hb.valid _ _ hc
  held := hb.holders_pos

end Heap

/-! ## Handles of the trace -/

namespace Trace

open Survey (linkOf? targetsOf)

variable {h k : Heap} {s : Survey} {t : Trace} {hand : List Ref} {r x : Ref}

/-- Handles in what is known of a frame. -/
def kept (h : Heap) (s : Survey) (x : Ref) : ℕ :=
  if (s.member? x).isSome && (h.frame? x).isSome then 1 else 0

/-- Memory is that of the beginning, but for the handles of the trace: those that are kept, those on
    the stack and those in hand. -/
structure Follows (h : Heap) (t : Trace) (hand : List Ref) : Prop where
  object (x : Ref) : t.heap.object? x = h.object? x
  holders (x : Ref) : t.heap.holders x =
    h.holders x + kept h t.survey x + (hand ++ t.survey.waiting).count x
  size : t.survey.members.size = h.cells.size
  node : ∀ x ∈ hand ++ t.survey.waiting, h.IsNode x
  known : ∀ x ∈ hand ++ t.survey.waiting, (t.survey.member? x).isSome = true

/-- Handles depend on what is known, not on how much. -/
theorem Follows.congr (ht : Follows h t hand) (hmember : ∀ x, (s.member? x).isSome =
    (t.survey.member? x).isSome) (hwaiting : s.waiting = t.survey.waiting)
    (hsize : s.members.size = t.survey.members.size) : Follows h ⟨t.heap, s⟩ hand where
  object := ht.object
  holders x := by
    rw [ht.holders x, kept, kept, hmember x, hwaiting]
  size := hsize.trans ht.size
  node := by
    rw [hwaiting]
    exact ht.node
  known x := by
    rw [hwaiting, hmember x]
    exact ht.known x

/-- What has not been met yet has the holders that it had in the beginning. -/
theorem Follows.holders_of_new (ht : Follows h t hand) (hx : t.survey.member? x = none) :
    t.heap.holders x = h.holders x := by
  have hcount : (hand ++ t.survey.waiting).count x = 0 := by
    refine List.count_eq_zero_of_not_mem fun hm => ?_
    have hknown := ht.known x hm
    rw [hx] at hknown
    cases hknown
  rw [ht.holders x, hcount, kept, hx]
  rfl

theorem Follows.meet_eq (ht : Follows h t hand) (x : Ref) :
    t.survey.meet t.heap x = t.survey.meet h x := by
  cases hx : t.survey.member? x with
  | some m => rw [Survey.meet_of_member hx, Survey.meet_of_member hx]
  | none => rw [Survey.meet_of_new hx, Survey.meet_of_new hx, ht.holders_of_new hx]

theorem member?_meet (hr : r < s.members.size) :
    ∃ m, (s.meet h r).member? r = some m ∧ m.links ≠ 0 := by
  cases hm : s.member? r with
  | some m =>
    rw [Survey.meet_of_member hm]
    exact ⟨_, by rw [Survey.member?_put s _ hr, if_pos rfl], Nat.succ_ne_zero _⟩
  | none =>
    rw [Survey.meet_of_new hm]
    refine ⟨⟨h.holders r, 1, false, []⟩, ?_, one_ne_zero⟩
    show (s.put r _).member? r = _
    rw [Survey.member?_put s _ hr, if_pos rfl]

theorem known_put {m : Member} (hr : (s.member? r).isSome = true) (x : Ref) :
    ((s.put r m).member? x).isSome = (s.member? x).isSome := by
  obtain ⟨m', hm'⟩ := Option.isSome_iff_exists.mp hr
  rw [Survey.member?_put s m (Survey.lt_size_of_member? hm')]
  split_ifs with hx
  · rw [hx, hr]
    rfl
  · rfl

/-- What is met for the first time: one handle goes to the stack, and a frame has one more. -/
theorem Follows.meet_new (ht : Follows h t hand) (hx : h.IsNode x)
    (hm : t.survey.member? x = none) (hobject : ∀ y, k.object? y = h.object? y)
    (hholders : ∀ y, k.holders y =
      t.heap.holders y + if y = x then (if (h.frame? x).isSome then 2 else 1) else 0) :
    Follows h ⟨k, t.survey.meet h x⟩ hand := by
  have hlt : x < t.survey.members.size := ht.size ▸ Heap.lt_size_of_alive hx.alive
  have hput := Survey.member?_put t.survey ⟨h.holders x, 1, false, []⟩ hlt
  have hperm : (hand ++ x :: t.survey.waiting).Perm (x :: (hand ++ t.survey.waiting)) :=
    List.perm_middle
  rw [Survey.meet_of_new hm]
  refine ⟨hobject, fun y => ?_, (Survey.size_put _ _ _).trans ht.size, fun y hy => ?_,
    fun y hy => ?_⟩
  · have hkept : kept h { t.survey.put x ⟨h.holders x, 1, false, []⟩ with
        waiting := x :: t.survey.waiting } y =
        kept h t.survey y + if y = x then (if (h.frame? x).isSome then 1 else 0) else 0 := by
      show (if ((t.survey.put x _).member? y).isSome && _ then 1 else 0) = _
      rw [kept, hput y]
      by_cases hy : y = x
      · rw [if_pos hy, if_pos hy, hy, hm]
        simp
      · rw [if_neg hy, if_neg hy, Nat.add_zero]
    have hcount : (hand ++ x :: t.survey.waiting).count y =
        (hand ++ t.survey.waiting).count y + if y = x then 1 else 0 := by
      rw [hperm.count_eq, List.count_cons]
      simp only [beq_iff_eq, eq_comm (a := x)]
    dsimp only
    rw [hholders y, ht.holders y, hkept, hcount]
    split_ifs <;> omega
  · rcases List.mem_cons.mp (hperm.mem_iff.mp hy) with rfl | hy
    · exact hx
    · exact ht.node y hy
  · show ((t.survey.put x _).member? y).isSome = true
    rw [hput y]
    split_ifs with hyx
    · rfl
    · exact ht.known y ((List.mem_cons.mp (hperm.mem_iff.mp hy)).resolve_left hyx)

/-- A link to a frame or a function is met as the survey meets it. -/
theorem Follows.discover (ht : Follows h t hand) (hx : h.IsNode x) :
    ∃ k, t.discover x = some ⟨k, t.survey.meet h x⟩ ∧ Follows h ⟨k, t.survey.meet h x⟩ hand := by
  have hmeet := ht.meet_eq x
  cases hm : t.survey.member? x with
  | some m =>
    refine ⟨t.heap, by rw [Trace.discover, hm, hmeet], ?_⟩
    rw [Survey.meet_of_member hm]
    exact ht.congr (known_put (by rw [hm]; rfl)) rfl (Survey.size_put _ _ _)
  | none =>
    have hretain {k : Heap} (hk : ∀ y, k.object? y = h.object? y) (y : Ref) :
        (k.retain x).holders y = k.holders y + if y = x then 1 else 0 := by
      refine Heap.holders_retain ?_ y
      rw [Heap.alive_iff]
      simp only [hk]
      exact Heap.alive_iff.mp hx.alive
    have hsame (refs : List Ref) (y : Ref) : (t.heap.retainAll refs).object? y = h.object? y := by
      rw [Heap.object?_retainAll, ht.object]
    rcases hx with ⟨f, hf⟩ | ⟨c, hc⟩
    · refine ⟨t.heap.retainAll [x, x], ?_, ht.meet_new (.inl ⟨f, hf⟩) hm (hsame _) fun y => ?_⟩
      · rw [Trace.discover, hm, ht.object, hf, hmeet]
      · show ((t.heap.retain x).retain x).holders y = _
        rw [hretain (k := t.heap.retain x) (hsame [x]), hretain ht.object,
          Heap.frame?_eq_some_iff.mpr hf, Option.isSome_some, if_pos rfl]
        split_ifs <;> rfl
    · refine ⟨t.heap.retainAll [x], ?_, ht.meet_new (.inr ⟨c, hc⟩) hm (hsame _) fun y => ?_⟩
      · rw [Trace.discover, hm, ht.object, hc, hmeet]
      · have hframe : h.frame? x = none := by
          rw [Heap.frame?, hc]
        show (t.heap.retain x).holders y = _
        rw [hretain ht.object, hframe]
        rfl

/-- A link that has just been met can be taken back. -/
theorem Follows.takeBack (ht : Follows h ⟨k, s.meet h x⟩ hand) (hx : x < s.members.size) :
    Trace.takeBack ⟨k, s.meet h x⟩ x = some ⟨k, (s.meet h x).pin x⟩ ∧
      Follows h ⟨k, (s.meet h x).pin x⟩ hand := by
  obtain ⟨m, hm, hlinks⟩ := member?_meet (h := h) hx
  constructor
  · rw [Trace.takeBack]
    dsimp only
    rw [hm]
    exact if_neg hlinks
  · rw [Survey.pin_of_member hm]
    exact ht.congr (known_put (by rw [hm]; rfl)) rfl (Survey.size_put _ _ _)

/-- What an item of an array has left to be written down is taken back. -/
theorem Follows.takeBackLinks {name : String} {v : Value}
    (ht : Follows h ⟨k, s.meetValue h v⟩ hand) (hs : ∀ x ∈ v.closures, x < s.members.size) :
    (linkOf? (name, v)).toList.foldlM Trace.takeBack ⟨k, s.meetValue h v⟩ =
        some ⟨k, v.closures.foldl (fun s r => (s.meet h r).pin r) s⟩ ∧
      Follows h ⟨k, v.closures.foldl (fun s r => (s.meet h r).pin r) s⟩ hand := by
  cases v with
  | closure r =>
    obtain ⟨htake, hfollows⟩ := Follows.takeBack ht (hs r (by simp [Value.closures]))
    refine ⟨?_, hfollows⟩
    show (Trace.takeBack ⟨k, s.meet h r⟩ r >>= fun t => pure t) = _
    rw [htake]
    rfl
  | bool | number | text | array | builtin => exact ⟨rfl, ht⟩

mutual

/-- A value is met as the survey meets it; its link is written down if it is a function. -/
theorem Follows.discoverValue : ∀ {v : Value} {t : Trace}, Follows h t hand →
    (∀ x ∈ v.closures, h.IsNode x) →
    ∃ k, (∀ name, t.discoverValue v =
        some (⟨k, t.survey.meetValue h v⟩, (linkOf? (name, v)).toList)) ∧
      Follows h ⟨k, t.survey.meetValue h v⟩ hand
  | .closure r, t, ht, hv => by
    obtain ⟨k, hk, hfollows⟩ := ht.discover (hv r (by simp [Value.closures]))
    refine ⟨k, fun name => ?_, hfollows⟩
    rw [Trace.discoverValue, hk]
    rfl
  | .array storage items, t, ht, hv => by
    obtain ⟨k, hk, hfollows⟩ := Follows.discoverItems ht hv
    refine ⟨k, fun name => ?_, hfollows⟩
    rw [Trace.discoverValue, hk]
    rfl
  | .bool _, t, ht, _ | .number _, t, ht, _ | .text _, t, ht, _ | .builtin _, t, ht, _ =>
    ⟨t.heap, fun _ => rfl, ht⟩

/-- Item by item, and at every depth, the functions in an array are met and taken back. -/
theorem Follows.discoverItems : ∀ {items : List Value} {t : Trace}, Follows h t hand →
    (∀ x ∈ Value.closuresIn items, h.IsNode x) →
    ∃ k, t.discoverItems items = some ⟨k, (Value.closuresIn items).foldl
        (fun s r => (s.meet h r).pin r) t.survey⟩ ∧
      Follows h ⟨k, (Value.closuresIn items).foldl (fun s r => (s.meet h r).pin r) t.survey⟩ hand
  | [], t, ht, _ => ⟨t.heap, rfl, ht⟩
  | item :: rest, t, ht, hv => by
    have hitem : ∀ x ∈ item.closures, h.IsNode x :=
      fun x hx => hv x (List.mem_append_left _ hx)
    have hrest : ∀ x ∈ Value.closuresIn rest, h.IsNode x :=
      fun x hx => hv x (List.mem_append_right _ hx)
    obtain ⟨k, hk, hvalue⟩ := Follows.discoverValue ht hitem
    obtain ⟨htake, hback⟩ := hvalue.takeBackLinks fun x hx =>
      ht.size ▸ Heap.lt_size_of_alive (hitem x hx).alive
    obtain ⟨k', hk', hfollows⟩ := Follows.discoverItems hback hrest
    rw [Value.closuresIn, List.foldl_append]
    refine ⟨k', ?_, hfollows⟩
    rw [Trace.discoverItems, hk ""]
    show (List.foldlM Trace.takeBack _ _ >>= fun t => t.discoverItems rest) = _
    rw [htake]
    exact hk'

end

theorem Follows.discoverBindings {bindings : List (String × Value)} (ht : Follows h t hand)
    (hb : ∀ b ∈ bindings, ∀ x ∈ b.2.closures, h.IsNode x) :
    ∃ k, t.discoverBindings bindings = some
        (⟨k, bindings.foldl (fun s b => s.meetValue h b.2) t.survey⟩, bindings.filterMap linkOf?) ∧
      Follows h ⟨k, bindings.foldl (fun s b => s.meetValue h b.2) t.survey⟩ hand := by
  induction bindings generalizing t with
  | nil => exact ⟨t.heap, rfl, ht⟩
  | cons b rest ih =>
    obtain ⟨name, v⟩ := b
    obtain ⟨k, hk, hvalue⟩ := ht.discoverValue (hb (name, v) List.mem_cons_self)
    obtain ⟨k', hk', hfollows⟩ := ih hvalue fun b hm => hb b (List.mem_cons_of_mem _ hm)
    refine ⟨k', ?_, hfollows⟩
    rw [Trace.discoverBindings, hk name]
    show (Trace.discoverBindings _ rest >>= fun p => pure (p.1, _ ++ p.2)) = _
    rw [hk', List.filterMap_cons]
    cases linkOf? (name, v) <;> rfl

/-- An object is met as the survey meets it, and the links to be written down are its links. -/
theorem Follows.discoverObject {o : Object} (ht : Follows h t hand) (hh : h.Traceable)
    (ho : h.object? r = some o) (hr : h.IsNode r) :
    ∃ k, t.discoverObject o = some (⟨k, t.survey.meetObject h o⟩, targetsOf o) ∧
      Follows h ⟨k, t.survey.meetObject h o⟩ hand := by
  cases o with
  | frame f =>
    rw [Trace.discoverObject, Survey.meetObject, Survey.targetsOf_frame]
    cases hs : f.isSealed with
    | true => exact ⟨t.heap, rfl, ht⟩
    | false =>
      simp only [Bool.false_eq_true, if_false]
      obtain ⟨k, hk, hparent⟩ : ∃ k, f.parent.toList.foldlM Trace.discover t =
          some ⟨k, f.parent.toList.foldl (Survey.meet h) t.survey⟩ ∧
          Follows h ⟨k, f.parent.toList.foldl (Survey.meet h) t.survey⟩ hand := by
        cases hp : f.parent with
        | none => exact ⟨t.heap, rfl, ht⟩
        | some p =>
          obtain ⟨k, hk, hfollows⟩ := ht.discover (hh.isNode (.parent ho hs hp))
          refine ⟨k, ?_, hfollows⟩
          show (Trace.discover t p >>= fun t => pure t) = _
          rw [hk]
          rfl
      obtain ⟨k', hk', hfollows⟩ := hparent.discoverBindings fun b hb x hx =>
        hh.isNode (.bound ho hs hb hx)
      refine ⟨k', ?_, hfollows⟩
      rw [hk]
      show (Trace.discoverBindings _ f.bindings >>= fun p => pure (p.1, _ ++ p.2)) = _
      rw [hk']
      rfl
  | closure c =>
    obtain ⟨k, hk, hfollows⟩ := ht.discover (hh.isNode (.captured ho))
    refine ⟨k, ?_, hfollows⟩
    rw [Trace.discoverObject, hk]
    rfl
  | array items =>
    rcases hr with ⟨f, hf⟩ | ⟨c, hc⟩
    · rw [hf] at ho
      cases ho
    · rw [hc] at ho
      cases ho

/-! ## Visits -/

theorem discard_of_shared {n : ℕ} {o : Object} (hc : h.cell? r = some ⟨n, o⟩) (hn : 1 < n) :
    h.discard [r] = h.put r (some ⟨n - 1, o⟩) := by
  rw [Heap.discard, Heap.dropRounds, Heap.dropHandles, Heap.dropHandle_of_shared hc hn]
  exact Heap.dropRounds_nil _ _

/-- After a visit the handle in hand is dropped. It is not the last one. -/
theorem Follows.drop (ht : Follows h t [r]) (hh : h.Traceable) :
    Follows h ⟨t.heap.discard [r], t.survey⟩ [] := by
  have hnode : h.IsNode r := ht.node r List.mem_cons_self
  have hheld := hh.held r hnode.alive
  obtain ⟨o, ho⟩ := Heap.alive_iff.mp hnode.alive
  obtain ⟨n, hc⟩ := Heap.object?_eq_some_iff.mp ((ht.object r).trans ho)
  have hn : t.heap.holders r = n := by
    rw [Heap.holders, hc]
  have hcount (x : Ref) : ([r] ++ t.survey.waiting).count x =
      ([] ++ t.survey.waiting).count x + if x = r then 1 else 0 := by
    rw [List.singleton_append, List.count_cons, List.nil_append]
    simp only [beq_iff_eq, eq_comm (a := r)]
  have hall := ht.holders r
  rw [hn, hcount, if_pos rfl] at hall
  rw [discard_of_shared hc (by omega)]
  refine ⟨fun x => ?_, fun x => ?_, ht.size, fun x hx => ht.node x (List.mem_cons_of_mem _ hx),
    fun x hx => ht.known x (List.mem_cons_of_mem _ hx)⟩
  · rw [Heap.object?_put_self t.heap hc, ht.object]
  · dsimp only
    rw [Heap.holders_put _ _ _ _ (Heap.lt_size_of_object? ((ht.object r).trans ho))]
    have hx := ht.holders x
    rw [hcount] at hx
    split_ifs at hx ⊢ with hxr
    · subst hxr
      show n - 1 = _
      omega
    · exact hx

/-- Something is visited as the survey visits it. -/
theorem Follows.visit {rest : List Ref} (ht : Follows h t []) (hh : h.Traceable)
    (hw : t.survey.waiting = r :: rest) :
    ∃ k, Trace.visit ⟨t.heap, { t.survey with waiting := rest }⟩ r =
        some ⟨k, Survey.visit h { t.survey with waiting := rest } r⟩ ∧
      Follows h ⟨k, Survey.visit h { t.survey with waiting := rest } r⟩ [] := by
  have hpop : Follows h ⟨t.heap, { t.survey with waiting := rest }⟩ [r] := by
    have hsame : [r] ++ rest = [] ++ t.survey.waiting := by
      rw [hw]
      rfl
    exact ⟨ht.object, fun x => (ht.holders x).trans (by rw [← hsame]; rfl), ht.size,
      fun x hx => ht.node x (hsame ▸ hx), fun x hx => ht.known x (hsame ▸ hx)⟩
  have hnode : h.IsNode r := hpop.node r (by simp)
  obtain ⟨o, ho⟩ := Heap.alive_iff.mp hnode.alive
  obtain ⟨k, hk, hobject⟩ := hpop.discoverObject hh ho hnode
  have hrecord : Follows h ⟨k, (Survey.meetObject h { t.survey with waiting := rest } o).record r
      (targetsOf o)⟩ [r] := by
    have hknown := hobject.known r List.mem_cons_self
    obtain ⟨m, hm⟩ := Option.isSome_iff_exists.mp hknown
    rw [Survey.record, hm]
    exact hobject.congr (known_put hknown) rfl (Survey.size_put _ _ _)
  have hvisit : Survey.visit h { t.survey with waiting := rest } r =
      (Survey.meetObject h { t.survey with waiting := rest } o).record r (targetsOf o) := by
    rw [Survey.visit, ho]
  rw [hvisit]
  refine ⟨k.discard [r], ?_, hrecord.drop hh⟩
  rw [Trace.visit, (hpop.object r).trans ho]
  show (Trace.discoverObject _ o >>= fun p => pure _) = _
  rw [hk]
  rfl

/-- If the survey has nothing left to visit, neither has the trace, and none of its steps fails. -/
theorem Follows.run {fuel : ℕ} (ht : Follows h t []) (hh : h.Traceable)
    (hend : (Survey.visitAll h fuel t.survey).waiting = []) :
    ∃ k, t.run fuel = some ⟨k, Survey.visitAll h fuel t.survey⟩ ∧
      Follows h ⟨k, Survey.visitAll h fuel t.survey⟩ [] := by
  induction fuel generalizing t with
  | zero =>
    refine ⟨t.heap, ?_, ht⟩
    rw [Trace.run]
    exact if_pos hend
  | succ fuel ih =>
    cases hw : t.survey.waiting with
    | nil =>
      refine ⟨t.heap, ?_, ?_⟩ <;> rw [Survey.visitAll, hw]
      · rw [Trace.run, hw]
      · exact ht
    | cons r rest =>
      obtain ⟨k, hk, hvisit⟩ := ht.visit hh hw
      rw [Survey.visitAll, hw] at hend
      obtain ⟨k', hk', hfollows⟩ := ih hvisit hend
      rw [Survey.visitAll, hw]
      refine ⟨k', ?_, hfollows⟩
      rw [Trace.run, hw]
      show (Trace.visit _ r >>= Trace.run fuel) = _
      rw [hk]
      exact hk'

/-- More fuel than needed changes nothing. -/
theorem run_of_le {fuel more : ℕ} {t' : Trace} (ht : t.run fuel = some t') (hle : fuel ≤ more) :
    t.run more = some t' := by
  induction fuel generalizing t more with
  | zero =>
    rw [Trace.run] at ht
    split_ifs at ht with hw
    cases more with
    | zero => rwa [Trace.run, if_pos hw]
    | succ more => rwa [Trace.run, hw]
  | succ fuel ih =>
    cases more with
    | zero => exact absurd hle (Nat.not_succ_le_zero _)
    | succ more =>
      cases hw : t.survey.waiting with
      | nil =>
        rw [Trace.run, hw] at ht
        rwa [Trace.run, hw]
      | cons r rest =>
        rw [Trace.run, hw] at ht
        rw [Trace.run, hw]
        obtain ⟨t'', hvisit, hrun⟩ := Option.bind_eq_some_iff.mp ht
        show (Trace.visit _ r >>= Trace.run more) = _
        rw [hvisit]
        exact ih hrun (Nat.le_of_succ_le_succ hle)

end Trace

namespace Survey

variable {h : Heap} {s : Survey} {r : Ref} {visited : List Ref}

/-- Every visit is a visit to another member. -/
theorem Progress.visits {fuel : ℕ} (hp : Progress h s r visited)
    (hlinks : ∀ y x, h.Links y x → h.alive x = true)
    (hend : (Survey.visitAll h fuel s).waiting = []) :
    ∃ n all, Survey.visitAll h n s = Survey.visitAll h fuel s ∧
      Complete h (Survey.visitAll h fuel s) r all ∧ all.length = visited.length + n := by
  induction fuel generalizing s visited with
  | zero => exact ⟨0, visited, rfl, ⟨hp, hend⟩, rfl⟩
  | succ fuel ih =>
    cases hw : s.waiting with
    | nil =>
      have hstop : Survey.visitAll h (fuel + 1) s = s := by
        rw [Survey.visitAll, hw]
      rw [hstop]
      exact ⟨0, visited, rfl, ⟨hp, hw⟩, rfl⟩
    | cons x rest =>
      have hstep (n : ℕ) :
          Survey.visitAll h (n + 1) s =
            Survey.visitAll h n (Survey.visit h { s with waiting := rest } x) := by
        rw [Survey.visitAll, hw]
      rw [hstep] at hend ⊢
      obtain ⟨n, all, hsame, hc, hlength⟩ := ih (hp.visit hlinks hw) hend
      refine ⟨n + 1, all, (hstep n).trans hsame, hc, ?_⟩
      rw [hlength, List.length_cons]
      omega

/-- The members are what has been visited. -/
theorem Complete.refs_perm (hc : Complete h s r visited) : s.refs.Perm visited := by
  have hnodup : s.refs.Nodup := List.nodup_range.filter _
  refine (List.perm_ext_iff_of_nodup hnodup hc.nodup).mpr fun x => ?_
  rw [mem_refs, hc.mem_iff]

end Survey

namespace Heap

variable {h : Heap} {r : Ref}

theorem follows_start (h : Heap) :
    Trace.Follows h ⟨h, ⟨Array.replicate h.cells.size none, []⟩⟩ [] where
  object _ := rfl
  holders x := by
    have hnone := (Survey.counts_empty h).mem_iff x
    simp only [List.append_nil, List.not_mem_nil, iff_false, Bool.not_eq_true] at hnone
    simp [Trace.kept, hnone]
  size := Array.size_replicate
  node _ hx := absurd hx List.not_mem_nil
  known _ hx := absurd hx List.not_mem_nil

/-- The trace ends after one visit to each member, and none of its steps fails. What it knows is what
    the survey knows, and memory is what it was, but for a handle to each frame that it has found. -/
theorem trace_eq_survey (hh : h.Traceable) (hr : h.IsNode r) :
    ∃ k, (∀ fuel, (h.survey r).refs.length ≤ fuel → h.trace fuel r = some ⟨k, h.survey r⟩) ∧
      (∀ x, k.object? x = h.object? x) ∧
      ∀ x, k.holders x = h.holders x + Trace.kept h (h.survey r) x := by
  obtain ⟨visited, hc⟩ := survey_complete_of_links hh.alive hr.alive
  have hstart : Survey.Progress h (Survey.meet h ⟨Array.replicate h.cells.size none, []⟩ r) r [] :=
    ⟨(Survey.counts_empty h).meet hr.alive, fun v hv => absurd hv List.not_mem_nil⟩
  obtain ⟨n, all, hsame, hall, hlength⟩ := hstart.visits hh.alive hc.waiting_eq
  rw [List.length_nil, Nat.zero_add] at hlength
  obtain ⟨k₀, hdiscover, hfirst⟩ := (follows_start h).discover hr
  obtain ⟨k, hrun, hfollows⟩ := hfirst.run hh (hsame ▸ hall.waiting_eq)
  rw [hsame] at hrun hfollows
  refine ⟨k, fun fuel hfuel => ?_, hfollows.object, fun x => ?_⟩
  · rw [trace, hdiscover]
    exact Trace.run_of_le hrun (hlength ▸ hall.refs_perm.length_eq ▸ hfuel)
  · have hx := hfollows.holders x
    rw [hall.waiting_eq] at hx
    exact hx

end Heap

end ApplyLang
