import ApplyLang.Proofs.Memory.Worklist

/-!
# In-degrees

The trace counts how often each member occurs among the links of all members. What it finds is
described here by memory alone, and does not depend on the order in which frames list their bindings:
that order decides in which order members are met and links are written down, and nothing else.

* `Heap.Shuffled` — memory whose frames list their bindings in other orders.
* `Heap.linkCount`, `Heap.InArray` — how many links there are from one object to another, and the
  functions in the arrays that a frame binds.
* `Survey.garbage` — the frames that a survey finds to be dead.
* `Survey.Agrees.garbage_eq` — they depend on no order.
* `Heap.trace_exact` — what the trace finds, in whatever order.
-/

namespace ApplyLang

/-! ## Other orders -/

/-- The same object, but for the order of bindings. -/
inductive Object.Shuffled : Object → Object → Prop
  | frame {bindings others : List (String × Value)} (hb : bindings.Perm others)
      (parent : Option Ref) (isSealed : Bool) :
      Shuffled (.frame ⟨bindings, parent, isSealed⟩) (.frame ⟨others, parent, isSealed⟩)
  | closure (c : Closure) : Shuffled (.closure c) (.closure c)
  | array (items : List Value) : Shuffled (.array items) (.array items)

theorem Object.Shuffled.refl (o : Object) : o.Shuffled o := by
  cases o with
  | frame f => exact .frame (.refl _) _ _
  | closure c => exact .closure c
  | array items => exact .array items

theorem Object.Shuffled.symm {o p : Object} (h : o.Shuffled p) : p.Shuffled o := by
  cases h with
  | frame hb parent isSealed => exact .frame hb.symm parent isSealed
  | closure c => exact .closure c
  | array items => exact .array items

/-- Links are the same, but for their order. -/
theorem Object.Shuffled.targetsOf {o p : Object} (h : o.Shuffled p) :
    (Survey.targetsOf o).Perm (Survey.targetsOf p) := by
  cases h with
  | frame hb parent isSealed =>
    rw [Survey.targetsOf_frame, Survey.targetsOf_frame]
    cases isSealed with
    | true => exact .refl _
    | false => exact (hb.filterMap _).append_left _
  | closure c => exact .refl _
  | array items => exact .refl _

theorem Object.Shuffled.pinsOf {o p : Object} (h : o.Shuffled p) :
    (Survey.pinsOf o).Perm (Survey.pinsOf p) := by
  cases h with
  | frame hb parent isSealed =>
    rw [Survey.pinsOf, Survey.pinsOf]
    cases isSealed with
    | true => exact .refl _
    | false => exact hb.flatMap_right _
  | closure c => exact .refl _
  | array items => exact .refl _

namespace Heap

/-- The same memory, but for the order of bindings in its frames. -/
structure Shuffled (h k : Heap) : Prop where
  size_eq : k.cells.size = h.cells.size
  holders_eq (x : Ref) : k.holders x = h.holders x
  object (x : Ref) : Option.Rel Object.Shuffled (h.object? x) (k.object? x)

variable {h k : Heap} {x y : Ref}

theorem Shuffled.refl (h : Heap) : h.Shuffled h where
  size_eq := rfl
  holders_eq _ := rfl
  object x := by
    cases h.object? x with
    | none => exact .none
    | some o => exact .some (.refl o)

theorem Shuffled.symm (hk : h.Shuffled k) : k.Shuffled h where
  size_eq := hk.size_eq.symm
  holders_eq x := (hk.holders_eq x).symm
  object x := by
    have hx := hk.object x
    generalize h.object? x = o at hx ⊢
    generalize k.object? x = p at hx ⊢
    cases hx with
    | none => exact .none
    | some ho => exact .some ho.symm

theorem Shuffled.exists_object (hk : h.Shuffled k) {o : Object} (ho : h.object? x = some o) :
    ∃ p, k.object? x = some p ∧ o.Shuffled p := by
  have hx := hk.object x
  rw [ho] at hx
  generalize k.object? x = q at hx
  cases hx with
  | some hp => exact ⟨_, rfl, hp⟩

theorem Shuffled.exists_frame (hk : h.Shuffled k) {f : Frame}
    (hf : h.object? x = some (.frame f)) : ∃ g, k.object? x = some (.frame g) ∧
      f.bindings.Perm g.bindings ∧ g.parent = f.parent ∧ g.isSealed = f.isSealed := by
  obtain ⟨p, hp, hs⟩ := hk.exists_object hf
  cases hs with
  | frame hb parent isSealed => exact ⟨_, hp, hb, rfl, rfl⟩

theorem Shuffled.closure (hk : h.Shuffled k) {c : Closure}
    (hc : h.object? x = some (.closure c)) : k.object? x = some (.closure c) := by
  obtain ⟨p, hp, hs⟩ := hk.exists_object hc
  cases hs with
  | closure c => exact hp

/-- What can be read off an object in any order can be read off memory in any order. -/
theorem Shuffled.perm_at (hk : h.Shuffled k) {read : Object → List Ref}
    (hread : ∀ {o p}, o.Shuffled p → (read o).Perm (read p)) (y : Ref) :
    (match h.object? y with | some o => read o | none => []).Perm
      (match k.object? y with | some o => read o | none => []) := by
  have hy := hk.object y
  generalize h.object? y = o at hy
  generalize k.object? y = p at hy
  cases hy with
  | none => exact .refl _
  | some ho => exact hread ho

theorem Shuffled.targetsAt (hk : h.Shuffled k) (y : Ref) :
    (h.targetsAt y).Perm (k.targetsAt y) :=
  hk.perm_at Object.Shuffled.targetsOf y

theorem Shuffled.pinsAt (hk : h.Shuffled k) (y : Ref) : (h.pinsAt y).Perm (k.pinsAt y) :=
  hk.perm_at Object.Shuffled.pinsOf y

theorem Shuffled.links_eq (hk : h.Shuffled k) : k.Links = h.Links := by
  funext y x
  rw [eq_iff_iff, links_iff, links_iff, (hk.targetsAt y).mem_iff, (hk.pinsAt y).mem_iff]

theorem Shuffled.reaches_eq (hk : h.Shuffled k) : k.Reaches = h.Reaches := by
  rw [Reaches, Reaches, hk.links_eq]

theorem Shuffled.isNode (hk : h.Shuffled k) (hx : h.IsNode x) : k.IsNode x := by
  rcases hx with ⟨f, hf⟩ | ⟨c, hc⟩
  · obtain ⟨g, hg, -⟩ := hk.exists_frame hf
    exact .inl ⟨g, hg⟩
  · exact .inr ⟨c, hk.closure hc⟩

theorem Shuffled.alive (hk : h.Shuffled k) (hx : k.alive x = true) : h.alive x = true := by
  obtain ⟨o, ho⟩ := alive_iff.mp hx
  obtain ⟨p, hp, -⟩ := hk.symm.exists_object ho
  exact alive_of_object? hp

theorem Shuffled.traceable (hk : h.Shuffled k) (hh : h.Traceable) : k.Traceable where
  parent hf hs hp := by
    obtain ⟨f, hf, -, hparent, hseal⟩ := hk.symm.exists_frame hf
    obtain ⟨g, hg⟩ := hh.parent hf (hseal.trans hs) (hparent.trans hp)
    obtain ⟨g', hg', -⟩ := hk.exists_frame hg
    exact ⟨g', hg'⟩
  bound hf hs hb hx := by
    obtain ⟨f, hf, hperm, -, hseal⟩ := hk.symm.exists_frame hf
    obtain ⟨c, hc⟩ := hh.bound hf (hseal.trans hs) (hperm.mem_iff.mp hb) hx
    exact ⟨c, hk.closure hc⟩
  captured hc := by
    obtain ⟨g, hg⟩ := hh.captured (hk.symm.closure hc)
    obtain ⟨g', hg', -⟩ := hk.exists_frame hg
    exact ⟨g', hg'⟩
  held x hx := hk.holders_eq x ▸ hh.held x (hk.alive hx)

end Heap

/-! ## Links, counted -/

/-- Whether a value is this function. -/
def Value.isFunction (x : Ref) : Value → Bool
  | closure r => r == x
  | _ => false

/-- Number of links to `x`: to the frame around a frame, to the functions that a frame binds by
    themselves, and to the frame of a function. A sealed frame has none. -/
def Object.linkCount (x : Ref) : Object → ℕ
  | frame f =>
    if f.isSealed then 0
    else (if f.parent = some x then 1 else 0) + f.bindings.countP fun b => b.2.isFunction x
  | closure c => if c.scope = x then 1 else 0
  | array _ => 0

theorem Survey.count_linkOf? (bindings : List (String × Value)) (x : Ref) :
    (bindings.filterMap linkOf?).count x = bindings.countP fun b => b.2.isFunction x := by
  rw [List.count, List.countP_filterMap]
  refine List.countP_congr fun b _ => ?_
  obtain ⟨name, v⟩ := b
  cases v <;> simp [linkOf?, Value.isFunction]

theorem Survey.count_targetsOf (o : Object) (x : Ref) : (targetsOf o).count x = o.linkCount x := by
  cases o with
  | frame f =>
    rw [targetsOf_frame, Object.linkCount]
    split_ifs with hs
    · rfl
    all_goals
      rw [List.count_append, count_linkOf?]
      cases hp : f.parent <;> simp_all
  | closure c =>
    rw [targetsOf, Object.linkCount, List.count_singleton]
    simp only [beq_iff_eq]
  | array items => rfl

namespace Heap

/-- Number of links from one object to another. -/
def linkCount (h : Heap) (y x : Ref) : ℕ :=
  match h.object? y with
  | some o => o.linkCount x
  | none => 0

variable {h k : Heap} {r x y : Ref}

theorem count_targetsAt (h : Heap) (y x : Ref) : (h.targetsAt y).count x = h.linkCount y x := by
  rw [targetsAt, linkCount]
  cases h.object? y with
  | none => rfl
  | some o => exact Survey.count_targetsOf o x

end Heap

/-! ## What the trace knows -/

namespace Survey

open Heap (Shuffled)

variable {h k : Heap} {s : Survey} {r x y : Ref} {visited : List Ref} {m : Member}

theorem Complete.mem_iff_reaches_of_shuffled (hk : h.Shuffled k)
    (hc : Complete k (k.survey r) r visited) (x : Ref) : x ∈ visited ↔ h.Reaches r x := by
  rw [hc.mem_iff_reaches, hk.reaches_eq]

theorem Complete.holders_of_shuffled (hk : h.Shuffled k) (hc : Complete k s r visited)
    (hm : s.member? x = some m) : m.holders = h.holders x :=
  (hc.counts.holders x m hm).trans (hk.holders_eq x)

/-- A member has the links of its object, each as often as the object has it. -/
theorem Complete.count_targets (hk : h.Shuffled k) (hc : Complete k s r visited)
    (hm : s.member? y = some m) (x : Ref) : m.targets.count x = h.linkCount y x := by
  have hy : y ∈ visited := (hc.mem_iff y).mp (by rw [hm]; rfl)
  rw [← targets_of_member hm, hc.recorded y hy, ← Heap.count_targetsAt, (hk.targetsAt y).count_eq]

/-- A member has been met as often as it occurs among the links of all members, and once more if the
    survey began with it. -/
theorem Complete.links_eq_count (hc : Complete h s r visited) (hm : s.member? x = some m) :
    m.links = (s.refs.flatMap s.targets).count x + if x = r then 1 else 0 := by
  have htargets : (s.refs.flatMap s.targets).Perm (visited.flatMap h.targetsAt) :=
    hc.refs_perm.flatMap fun y hy => by rw [hc.recorded y (hc.refs_perm.mem_iff.mp hy)]
  rw [hc.counts.links_of_member hm, List.count_append, htargets.count_eq, List.count_singleton]
  simp only [beq_iff_eq, eq_comm (a := r)]

/-- Pinned are the functions in arrays that are bound in members. -/
theorem Complete.pinned_iff (hk : h.Shuffled k) (hc : Complete k (k.survey r) r visited)
    (hm : (k.survey r).member? x = some m) :
    m.pinned = true ↔ ∃ y, h.Reaches r y ∧ h.InArray y x := by
  rw [hc.counts.pinned_of_member hm, List.mem_flatMap]
  refine exists_congr fun y => and_congr (hc.mem_iff_reaches_of_shuffled hk y) ?_
  rw [← Heap.mem_pinsAt_iff, (hk.pinsAt y).mem_iff]

end Survey

/-! ## What is dead -/

namespace Survey

/-- The frames that a survey from `r` finds to be dead. -/
def garbage (s : Survey) (h : Heap) (r : Ref) : List Ref :=
  if s.live.getD r false then []
  else s.refs.filter fun x => !s.live.getD x false && (h.frame? x).isSome && !h.isSealed x

/-- Two surveys with the same members, held alike and with the same links, whatever their order. -/
structure Agrees (s t : Survey) : Prop where
  size : s.members.size = t.members.size
  member (x : Ref) : (s.member? x).isSome = (t.member? x).isSome
  held (x : Ref) : s.heldOutside x = t.heldOutside x
  targets (y x : Ref) : x ∈ s.targets y ↔ x ∈ t.targets y

variable {h k : Heap} {s t : Survey} {r x : Ref}

theorem Agrees.getD_live (ha : s.Agrees t) (x : Ref) :
    s.live.getD x false = t.live.getD x false := by
  by_cases hx : x < s.members.size
  · have hlinks : (fun a b => b ∈ s.targets a) = fun a b => b ∈ t.targets a := by
      funext a b
      exact propext (ha.targets a b)
    rw [Bool.eq_iff_iff, Heap.getD_false_iff (s.size_live.symm ▸ hx),
      Heap.getD_false_iff (t.size_live.symm ▸ ha.size ▸ hx), marked_iff hx,
      marked_iff (ha.size ▸ hx), hlinks]
    simp only [ha.held]
  · rw [Array.getD_eq_getD_getElem?, Array.getD_eq_getD_getElem?,
      Array.getElem?_eq_none (s.size_live.symm ▸ not_lt.mp hx),
      Array.getElem?_eq_none (t.size_live.symm ▸ ha.size ▸ not_lt.mp hx)]

theorem Agrees.refs_eq (ha : s.Agrees t) : s.refs = t.refs := by
  rw [refs, refs, ha.size]
  simp only [ha.member]

/-- The dead frames are the same. -/
theorem Agrees.garbage_eq (ha : s.Agrees t)
    (hframe : ∀ x, (h.frame? x).isSome = (k.frame? x).isSome)
    (hseal : ∀ x, h.isSealed x = k.isSealed x) (r : Ref) : s.garbage h r = t.garbage k r := by
  rw [garbage, garbage, ha.refs_eq]
  simp only [ha.getD_live, hframe, hseal]

end Survey

namespace Heap

variable {h k : Heap} {r x : Ref}

theorem lost_eq_garbage (h : Heap) (r : Ref) : h.lost r = (h.survey r).garbage h r :=
  rfl

/-- Whatever the order of bindings, a survey finds the same, except for the order of links. -/
theorem Shuffled.agrees (hk : h.Shuffled k) {visited others : List Ref}
    (hc : Survey.Complete h (h.survey r) r visited)
    (hd : Survey.Complete k (k.survey r) r others) : (k.survey r).Agrees (h.survey r) := by
  have hsame (x : Ref) : x ∈ others ↔ x ∈ visited := by
    rw [hc.mem_iff_reaches, hd.mem_iff_reaches_of_shuffled hk]
  have hperm : others.Perm visited :=
    (List.perm_ext_iff_of_nodup hd.nodup hc.nodup).mpr hsame
  have hmember (x : Ref) : ((k.survey r).member? x).isSome = ((h.survey r).member? x).isSome := by
    rw [Bool.eq_iff_iff, hd.mem_iff, hc.mem_iff, hsame]
  refine ⟨?_, hmember, fun x => ?_, fun y x => ?_⟩
  · rw [hd.counts.size_eq, hc.counts.size_eq, hk.size_eq]
  · have hx := hmember x
    rw [Survey.heldOutside, Survey.heldOutside]
    cases hm : (k.survey r).member? x with
    | none =>
      rw [hm] at hx
      have hnone : (h.survey r).member? x = none :=
        Option.not_isSome_iff_eq_none.mp (by rw [← hx]; exact Bool.false_ne_true)
      rw [hnone]
    | some m =>
      rw [hm] at hx
      obtain ⟨n, hn⟩ := Option.isSome_iff_exists.mp hx.symm
      have hpinned : m.pinned = n.pinned := Bool.eq_iff_iff.mpr
        ((hd.pinned_iff hk hm).trans (hc.pinned_iff (.refl h) hn).symm)
      have hholders : m.holders = n.holders :=
        (hd.holders_of_shuffled hk hm).trans (hc.holders_of_shuffled (.refl h) hn).symm
      have hlinks : m.links = n.links := by
        rw [hd.counts.links_of_member hm, hc.counts.links_of_member hn]
        exact ((hperm.flatMap fun y _ => (hk.targetsAt y).symm).append_right [r]).count_eq x
      rw [hn]
      dsimp only
      rw [hpinned, hholders, hlinks]
  · by_cases hy : y ∈ visited
    · rw [hd.recorded y ((hsame y).mpr hy), hc.recorded y hy, (hk.targetsAt y).mem_iff]
    · have hnone {s : Survey} (hs : ¬ (s.member? y).isSome = true) : s.targets y = [] :=
        Survey.targets_of_none (Option.not_isSome_iff_eq_none.mp hs)
      rw [hnone (mt (hd.mem_iff y).mp (mt (hsame y).mp hy)), hnone (mt (hc.mem_iff y).mp hy)]

theorem Shuffled.isSome_frame? (hk : h.Shuffled k) (x : Ref) :
    (k.frame? x).isSome = (h.frame? x).isSome ∧ k.isSealed x = h.isSealed x := by
  have hx := hk.object x
  rw [isSealed, isSealed, frame?, frame?]
  generalize h.object? x = o at hx
  generalize k.object? x = p at hx
  cases hx with
  | none => exact ⟨rfl, rfl⟩
  | some ho => cases ho <;> exact ⟨rfl, rfl⟩

/-- Reaching something from a frame, links lead to frames and functions. -/
theorem Traceable.isNode_of_reaches (hh : h.Traceable) {f : Frame}
    (hr : h.object? r = some (.frame f)) (hx : h.Reaches r x) : h.IsNode x := by
  cases Relation.ReflTransGen.cases_tail hx with
  | inl heq => exact heq ▸ .inl ⟨f, hr⟩
  | inr hlast =>
    obtain ⟨y, -, hl⟩ := hlast
    exact hh.isNode hl

/-- In whatever order frames list their bindings, the trace from a frame ends, after one visit to
    each member. The members are the frames and functions that the frame reaches, and of each it
    knows what memory says: its holders before the trace, the links of its object as often as they
    are there, the number of its occurrences among the links of all members, the start counted once
    more, and whether it is a function in an array that a member binds. So the frames that are found
    to be dead are the same in every order. -/
theorem trace_exact (hh : h.Traceable) {f : Frame} (hr : h.object? r = some (.frame f))
    (hk : h.Shuffled k) :
    ∃ t, (∀ fuel, t.survey.refs.length ≤ fuel → k.trace fuel r = some t) ∧
      t.survey = k.survey r ∧
      (∀ x, (t.survey.member? x).isSome = true ↔ h.Reaches r x) ∧
      (∀ x, h.Reaches r x → h.IsNode x) ∧
      (∀ x m, t.survey.member? x = some m →
        m.holders = h.holders x ∧
        (∀ y, m.targets.count y = h.linkCount x y) ∧
        m.links = (t.survey.refs.flatMap t.survey.targets).count x + (if x = r then 1 else 0) ∧
        (m.pinned = true ↔ ∃ y, h.Reaches r y ∧ h.InArray y x)) ∧
      t.survey.garbage t.heap r = h.lost r := by
  have hkh := hk.traceable hh
  have hnode : h.IsNode r := .inl ⟨f, hr⟩
  obtain ⟨k', hend, hobject, -⟩ := trace_eq_survey hkh (hk.isNode hnode)
  obtain ⟨visited, hc⟩ := survey_complete_of_links hh.alive hnode.alive
  obtain ⟨others, hd⟩ := survey_complete_of_links hkh.alive (hk.isNode hnode).alive
  refine ⟨⟨k', k.survey r⟩, hend, rfl, fun x => ?_, fun x => hh.isNode_of_reaches hr,
    fun x m hm => ⟨hd.holders_of_shuffled hk hm, hd.count_targets hk hm, hd.links_eq_count hm,
      hd.pinned_iff hk hm⟩, ?_⟩
  · rw [hd.mem_iff, hd.mem_iff_reaches_of_shuffled hk]
  · have hframe (x : Ref) : k'.frame? x = k.frame? x := by
      rw [frame?, frame?, hobject]
    rw [lost_eq_garbage]
    refine (hk.agrees hc hd).garbage_eq (fun x => ?_) (fun x => ?_) r
    · rw [hframe, (hk.isSome_frame? x).1]
    · rw [isSealed, hframe, ← isSealed, (hk.isSome_frame? x).2]

/-- A frame that binds a function made in it, by itself and in an array, in two orders. -/
theorem trace_exact_circle :
    let objects (bindings : List (String × Value)) : Heap := ⟨#[
      some ⟨2, .frame ⟨bindings, none, false⟩⟩,
      some ⟨2, .closure ⟨[], .word "a" ⟨0, 1⟩, 0⟩⟩,
      some ⟨1, .array [.closure 1]⟩]⟩
    let h := objects [("f", .closure 1), ("a", .array 2 [.closure 1])]
    let k := objects [("a", .array 2 [.closure 1]), ("f", .closure 1)]
    ∃ t, k.trace 2 0 = some t ∧ t.survey.garbage t.heap 0 = h.lost 0 ∧
      ∃ m, t.survey.member? 1 = some m ∧ m.holders = 2 ∧ m.targets.count 0 = 1 ∧ m.pinned = true := by
  intro objects h k
  have hobject {bindings : List (String × Value)} {y : Ref} {o : Object}
      (ho : (objects bindings).object? y = some o) :
      o = .frame ⟨bindings, none, false⟩ ∨ o = .closure ⟨[], .word "a" ⟨0, 1⟩, 0⟩ ∨
        o = .array [.closure 1] := by
    match y with
    | 0 => exact .inl (Option.some.inj ho).symm
    | 1 => exact .inr (.inl (Option.some.inj ho).symm)
    | 2 => exact .inr (.inr (Option.some.inj ho).symm)
    | y + 3 => cases ho
  have hh : h.Traceable := by
    constructor
    · intro y p f hf _ hp
      rcases hobject hf with heq | heq | heq <;> cases heq
      cases hp
    · intro y x f b hf _ hb hx
      rcases hobject hf with heq | heq | heq <;> cases heq
      have hone : x = 1 := by
        rcases List.mem_pair.mp hb with rfl | rfl <;>
          simpa [Value.closures, Value.closuresIn] using hx
      exact hone ▸ ⟨_, rfl⟩
    · intro y c hc
      rcases hobject hc with heq | heq | heq <;> cases heq
      exact ⟨_, rfl⟩
    · intro x hx
      match x with
      | 0 | 1 | 2 => decide
      | x + 3 => cases hx
  have hk : h.Shuffled k := by
    refine ⟨rfl, fun x => ?_, fun x => ?_⟩
    · match x with
      | 0 | 1 | 2 | x + 3 => rfl
    · match x with
      | 0 => exact .some (.frame (.swap _ _ _) _ _)
      | 1 => exact .some (.closure _)
      | 2 => exact .some (.array _)
      | x + 3 => exact .none
  obtain ⟨t, hend, hsurvey, hmembers, -, hmember, hgarbage⟩ := trace_exact hh (r := 0) rfl hk
  have hlink : h.Links 0 1 := .bound (f := ⟨_, none, false⟩) (b := ("f", .closure 1)) rfl rfl
    List.mem_cons_self (by simp [Value.closures])
  obtain ⟨m, hm⟩ := Option.isSome_iff_exists.mp ((hmembers 1).mpr (.single hlink))
  obtain ⟨hholders, htargets, -, hpinned⟩ := hmember 1 m hm
  refine ⟨t, hend 2 ?_, hgarbage, m, hm, hholders, htargets 0, hpinned.mpr ⟨0, .refl, ?_⟩⟩
  · rw [hsurvey]
    decide +kernel
  · exact ⟨_, "a", 2, [.closure 1], rfl, rfl, by simp, by simp [Value.closuresIn, Value.closures]⟩

end Heap

end ApplyLang
