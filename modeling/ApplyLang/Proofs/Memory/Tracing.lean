import ApplyLang.Proofs.Memory.Release
import Mathlib.Logic.Relation

/-!
# What a survey finds

A survey follows links: from a frame to the frame around it and to the functions bound in it, by
themselves or in arrays, and from a function to the frame that it was made in. It does not go on
from sealed frames. Both of its results are described here without its counters.

* `Heap.Reaches` — the members are what can be reached by links.
* `Heap.InArray` — the functions that a survey pins.
* `Heap.HeldBeside` — a member is held from outside if it has a holder that is neither a link of the
  survey nor the handle that is given up.
* `Heap.Rescued` — the members that are marked as live are those that can be reached from members
  held from outside.

Main results: `Survey.Complete.mem_iff_reaches`, `Serves.heldOutside_iff` and
`Serves.marked_iff_rescued`. They turn what is known about marks into `Serves.release_of_rescued` and
`Serves.not_alive_of_not_rescued`: exactly the members that nobody rescues go with a release.
-/

namespace ApplyLang

namespace Heap

/-! ## Links -/

/-- What links lead to, one after the other. -/
def Reaches (h : Heap) : Ref → Ref → Prop :=
  Relation.ReflTransGen h.Links

variable {h : Heap} {frames : List Ref} {values : List Value}

/-- An unsealed frame binds an array with the function in it, at any depth. -/
def InArray (h : Heap) (y x : Ref) : Prop :=
  ∃ f name storage items, h.object? y = some (.frame f) ∧ f.isSealed = false ∧
    (name, .array storage items) ∈ f.bindings ∧ x ∈ Value.closuresIn items

theorem mem_pinsAt_iff (h : Heap) (y x : Ref) : x ∈ h.pinsAt y ↔ h.InArray y x := by
  constructor
  · intro hx
    cases ho : h.object? y with
    | none => simp [pinsAt, ho] at hx
    | some o =>
      rw [pinsAt_of_object? ho] at hx
      cases o with
      | frame f =>
        rw [Survey.pinsOf] at hx
        split_ifs at hx with hs
        · cases hx
        · obtain ⟨⟨name, v⟩, hb, hin⟩ := List.mem_flatMap.mp hx
          cases v with
          | array storage items =>
            exact ⟨f, name, storage, items, ho, by simpa using hs, hb, hin⟩
          | bool | number | text | closure | builtin => cases hin
      | closure c => cases hx
      | array items => cases hx
  · rintro ⟨f, name, storage, items, hf, hs, hb, hx⟩
    rw [pinsAt_of_object? hf, Survey.pinsOf, hs]
    exact List.mem_flatMap.mpr ⟨_, hb, hx⟩

/-- Links lead to frames and functions, never to array storages. -/
theorem Links.not_array (hvalid : ∀ r o, h.object? r = some o → o.ValidIn h r) {y x : Ref}
    (hl : h.Links y x) (items : List Value) : h.object? x ≠ some (.array items) := by
  intro hx
  cases hl with
  | parent hf _ hp =>
    obtain ⟨-, g, hg⟩ := (hvalid y _ hf).1 x hp
    rw [hx] at hg
    cases hg
  | bound hf _ hb hxb =>
    obtain ⟨c, hc⟩ := ((hvalid y _ hf).2 _ hb).closure hvalid x hxb
    rw [hx] at hc
    cases hc
  | captured hc =>
    obtain ⟨g, hg⟩ := hvalid y _ hc
    rw [hx] at hg
    cases hg

theorem Reaches.not_array (hvalid : ∀ r o, h.object? r = some o → o.ValidIn h r) {r x : Ref}
    {f : Frame} (hr : h.object? r = some (.frame f)) (hx : h.Reaches r x) (items : List Value) :
    h.object? x ≠ some (.array items) := by
  cases Relation.ReflTransGen.cases_tail hx with
  | inl heq =>
    rw [heq, hr]
    simp
  | inr hlast =>
    obtain ⟨y, -, hl⟩ := hlast
    exact hl.not_array hvalid items

end Heap

/-! ## Members -/

namespace Survey

variable {h : Heap} {s : Survey} {P : Ref → Prop}

/-- All members, those waiting for a visit included, have a property. -/
structure Within (P : Ref → Prop) (s : Survey) : Prop where
  member : ∀ x, (s.member? x).isSome = true → P x
  waiting : ∀ x ∈ s.waiting, P x

theorem isSome_member?_put {r x : Ref} {m : Member}
    (hx : ((s.put r m).member? x).isSome = true) : x = r ∨ (s.member? x).isSome = true := by
  by_cases hr : r < s.members.size
  · rw [member?_put s m hr x] at hx
    split_ifs at hx with heq
    · exact .inl heq
    · exact .inr hx
  · have hsame : (s.put r m).members = s.members := by simp [put, Array.setIfInBounds, hr]
    rw [member?, hsame] at hx
    exact .inr hx

theorem Within.put (hw : s.Within P) {r : Ref} (hr : P r) (m : Member) : (s.put r m).Within P := by
  refine ⟨fun x hx => ?_, hw.waiting⟩
  rcases isSome_member?_put hx with rfl | hx
  · exact hr
  · exact hw.member x hx

theorem Within.meet (hw : s.Within P) {r : Ref} (hr : P r) : (s.meet h r).Within P := by
  cases hm : s.member? r with
  | some m =>
    rw [meet_of_member hm]
    exact hw.put hr _
  | none =>
    rw [meet_of_new hm]
    refine ⟨(hw.put hr _).member, fun x hx => ?_⟩
    rcases List.mem_cons.mp hx with rfl | hx
    · exact hr
    · exact hw.waiting x hx

theorem Within.pin (hw : s.Within P) (r : Ref) : (s.pin r).Within P := by
  cases hm : s.member? r with
  | none =>
    rw [Survey.pin, hm]
    exact hw
  | some m =>
    rw [pin_of_member hm]
    exact hw.put (hw.member r (by rw [hm]; rfl)) _

theorem Within.record (hw : s.Within P) (r : Ref) (targets : List Ref) :
    (s.record r targets).Within P := by
  unfold Survey.record
  cases hm : s.member? r with
  | none => exact hw
  | some m => exact hw.put (hw.member r (by rw [hm]; rfl)) _

theorem Within.meetPins {refs : List Ref} (hw : s.Within P) (hr : ∀ r ∈ refs, P r) :
    (refs.foldl (fun s r => (s.meet h r).pin r) s).Within P := by
  induction refs generalizing s with
  | nil => exact hw
  | cons r rest ih =>
    exact ih ((hw.meet (hr r List.mem_cons_self)).pin r) fun x hx => hr x (List.mem_cons_of_mem _ hx)

theorem Within.meetValue {v : Value} (hw : s.Within P) (hv : ∀ r ∈ v.closures, P r) :
    (s.meetValue h v).Within P := by
  cases v with
  | closure r => exact hw.meet (hv r (by simp [Value.closures]))
  | bool | number | text | array | builtin => exact hw.meetPins hv

theorem Within.meetBindings {bindings : List (String × Value)} (hw : s.Within P)
    (hb : ∀ b ∈ bindings, ∀ r ∈ b.2.closures, P r) :
    (bindings.foldl (fun s b => s.meetValue h b.2) s).Within P := by
  induction bindings generalizing s with
  | nil => exact hw
  | cons first rest ih =>
    exact ih (hw.meetValue (hb first List.mem_cons_self)) fun b hm => hb b (List.mem_cons_of_mem _ hm)

/-- Visiting something meets only what it links to. -/
theorem Within.meetObject {o : Object} {y : Ref} (hw : s.Within P) (ho : h.object? y = some o)
    (hlinks : ∀ x, h.Links y x → P x) : (s.meetObject h o).Within P := by
  cases o with
  | frame f =>
    cases hs : f.isSealed with
    | true =>
      simp only [Survey.meetObject, hs, if_true]
      exact hw
    | false =>
      simp only [Survey.meetObject, hs, Bool.false_eq_true, if_false]
      refine Within.meetBindings ?_ fun b hb r hr => hlinks r (.bound ho hs hb hr)
      cases hp : f.parent with
      | none => exact hw
      | some p => exact hw.meet (hlinks p (.parent ho hs hp))
  | closure c => exact hw.meet (hlinks c.scope (.captured ho))
  | array items => exact hw

theorem Within.visitAll (hclosed : ∀ y x, P y → h.Links y x → P x) (fuel : ℕ) (hw : s.Within P) :
    (Survey.visitAll h fuel s).Within P := by
  induction fuel generalizing s with
  | zero => exact hw
  | succ fuel ih =>
    unfold Survey.visitAll
    split
    · exact hw
    · rename_i y rest hwaiting
      have hrest : ({ s with waiting := rest } : Survey).Within P :=
        ⟨hw.member, fun x hx => hw.waiting x (by rw [hwaiting]; exact List.mem_cons_of_mem _ hx)⟩
      have hy : P y := hw.waiting y (by rw [hwaiting]; exact List.mem_cons_self)
      apply ih
      unfold Survey.visit
      cases ho : h.object? y with
      | none => exact hrest
      | some o => exact (hrest.meetObject ho fun x => hclosed y x hy).record y _

theorem within_survey (h : Heap) (r : Ref) : (h.survey r).Within (h.Reaches r) := by
  unfold Heap.survey
  refine Within.visitAll (fun y x hy hl => hy.tail hl) _ (Within.meet ⟨fun x hx => ?_, ?_⟩ .refl)
  · simp only [member?, Array.getElem?_replicate] at hx
    split_ifs at hx <;> cases hx
  · intro x hx
    cases hx

/-- What has been met is a member. -/
theorem Counts.isSome_of_met {visited met pins : List Ref} (hc : Counts h s visited met pins)
    {x : Ref} (hx : x ∈ met) : (s.member? x).isSome = true := by
  have hpos := List.count_pos_iff.mpr hx
  rw [← hc.links x, linksTo] at hpos
  cases hm : s.member? x with
  | none => simp [hm] at hpos
  | some m => rfl

theorem Counts.isSome_of_pin {visited met pins : List Ref} (hc : Counts h s visited met pins)
    {x : Ref} (hx : x ∈ pins) : (s.member? x).isSome = true := by
  have hpinned := (hc.pinned x).mpr hx
  rw [isPinned] at hpinned
  cases hm : s.member? x with
  | none => simp [hm] at hpinned
  | some m => rfl

/-- What a member links to is a member: it has been met when that member was visited. -/
theorem Complete.mem_of_links {r y x : Ref} {visited : List Ref} (hc : Complete h s r visited)
    (hy : y ∈ visited) (hl : h.Links y x) : x ∈ visited := by
  rw [← hc.mem_iff]
  rcases (h.links_iff y x).mp hl with ht | hp
  · exact hc.counts.isSome_of_met (List.mem_append_left _ (List.mem_flatMap.mpr ⟨y, hy, ht⟩))
  · exact hc.counts.isSome_of_pin (List.mem_flatMap.mpr ⟨y, hy, hp⟩)

theorem Complete.start_mem {r : Ref} {visited : List Ref} (hc : Complete h s r visited) :
    r ∈ visited := by
  rw [← hc.mem_iff]
  exact hc.counts.isSome_of_met (List.mem_append_right _ (List.mem_singleton_self r))

/-- The members of a survey are what can be reached from where it began. -/
theorem Complete.mem_iff_reaches {r : Ref} {visited : List Ref}
    (hc : Complete h (h.survey r) r visited) (x : Ref) : x ∈ visited ↔ h.Reaches r x := by
  constructor
  · intro hx
    exact (within_survey h r).member x ((hc.mem_iff x).mpr hx)
  · intro hx
    induction hx with
    | refl => exact hc.start_mem
    | tail _ hl ih => exact hc.mem_of_links ih hl

/-! ## Marks -/

theorem mem_of_mem_mark {live : Array Bool} {refs : List Ref} {x : Ref}
    (hx : x ∈ (mark live refs).2) : x ∈ refs := by
  induction refs generalizing live with
  | nil => exact hx
  | cons r rest ih =>
    unfold mark at hx
    split_ifs at hx
    · exact List.mem_cons_of_mem _ (ih hx)
    · rcases List.mem_cons.mp hx with rfl | hx
      · exact List.mem_cons_self
      · exact List.mem_cons_of_mem _ (ih hx)

/-- Marks spread along recorded links only. -/
theorem marked_of_spread {Q : Ref → Prop} (hclosed : ∀ y x, Q y → x ∈ s.targets y → Q x)
    {rounds : ℕ} {live : Array Bool} {frontier : List Ref} (hf : ∀ x ∈ frontier, Q x) {x : Ref}
    (hx : Marked (s.spread rounds live frontier) x) : Marked live x ∨ Q x := by
  induction rounds generalizing live frontier with
  | zero => exact .inl hx
  | succ rounds ih =>
    cases frontier with
    | nil => exact .inl hx
    | cons first rest =>
      have hnext : ∀ y ∈ (mark live (first :: rest)).2.flatMap s.targets, Q y := by
        intro y hy
        obtain ⟨z, hz, hyz⟩ := List.mem_flatMap.mp hy
        exact hclosed z y (hf z (mem_of_mem_mark hz)) hyz
      rcases ih hnext hx with hmarked | hq
      · rcases ((mark_marksAll live (first :: rest)).marked_iff x).mp hmarked with hold | hnew
        · exact .inl hold
        · exact .inr (hf x hnew)
      · exact .inr hq

/-- A live member has its mark from a member that is held from outside. -/
theorem marked_induction {Q : Ref → Prop} (hheld : ∀ x, s.heldOutside x = true → Q x)
    (hclosed : ∀ y x, Q y → x ∈ s.targets y → Q x) {x : Ref} (hlt : x < s.members.size)
    (hx : Marked s.live x) : Q x := by
  have hfrontier : ∀ y ∈ s.refs.filter s.heldOutside, Q y := by
    intro y hy
    exact hheld y (List.mem_filter.mp hy).2
  rcases marked_of_spread hclosed hfrontier hx with hstart | hq
  · simp [Marked, Array.getD_eq_getD_getElem?, hlt] at hstart
  · exact hq

/-- The members with a mark are those that recorded links lead to from a member held from outside. -/
theorem marked_iff {x : Ref} (hlt : x < s.members.size) : Marked s.live x ↔
    ∃ y, s.heldOutside y = true ∧ Relation.ReflTransGen (fun a b => b ∈ s.targets a) y x := by
  constructor
  · intro hx
    refine marked_induction (Q := fun z => ∃ y, s.heldOutside y = true ∧
      Relation.ReflTransGen (fun a b => b ∈ s.targets a) y z) (fun y hy => ⟨y, hy, .refl⟩) ?_ hlt hx
    rintro a b ⟨y, hy, hya⟩ hb
    exact ⟨y, hy, hya.tail hb⟩
  · rintro ⟨y, hy, hyx⟩
    clear hlt
    induction hyx with
    | refl => exact live_of_heldOutside hy
    | @tail a b _ hb ih =>
      refine live_of_target ?_ ih hb
      cases hm : s.member? a with
      | none =>
        rw [targets_of_none hm] at hb
        cases hb
      | some m => exact lt_size_of_member? hm

end Survey

namespace Heap

variable {h : Heap} {frames : List Ref} {values : List Value}

/-! ## Holders besides the survey -/

/-- Somebody holds `x` who is neither the handle to `r` that is given up nor a link between members
    of the survey from `r`. The handles that are left are those of `frames` and `values`. -/
inductive HeldBeside (h : Heap) (r : Ref) (frames : List Ref) (values : List Value) (x : Ref) : Prop
  /-- One of the other handles from outside. -/
  | frame (hx : x ∈ frames)
  | value {v : Value} (hv : v ∈ values) (hx : x ∈ v.handles)
  /-- An object that is no member, or a sealed frame, whose links are not followed. -/
  | object {y : Ref} {o : Object} (ho : h.object? y = some o) (hx : x ∈ o.handles)
      (hy : ¬ h.Reaches r y ∨ h.isSealed y = true)
  /-- An array that is bound in a frame of the survey. -/
  | array {y storage : Ref} {f : Frame} {name : String} {items : List Value} (hy : h.Reaches r y)
      (hf : h.object? y = some (.frame f)) (hs : f.isSealed = false)
      (hb : (name, .array storage items) ∈ f.bindings) (hx : x ∈ Value.closuresIn items)

/-- A function in an array of a member is held by the storage of the array. -/
theorem HeldBeside.of_pin {r x y : Ref} (hy : h.Reaches r y) (hx : x ∈ h.pinsAt y) :
    h.HeldBeside r frames values x := by
  obtain ⟨f, name, storage, items, hf, hs, hb, hx⟩ := (h.mem_pinsAt_iff y x).mp hx
  exact .array hy hf hs hb hx

/-- Some member with a holder besides the survey reaches `x`. -/
def Rescued (h : Heap) (r : Ref) (frames : List Ref) (values : List Value) (x : Ref) : Prop :=
  ∃ y, h.Reaches r y ∧ h.HeldBeside r frames values y ∧ h.Reaches y x

/-- In an unsealed frame and in a function, every handle to a frame or a function is a link that the
    survey counts. -/
theorem count_targetsOf_eq (hvalid : ∀ r o, h.object? r = some o → o.ValidIn h r) {y x : Ref}
    {o : Object} (ho : h.object? y = some o) (hseal : h.isSealed y = false)
    (hx : ∀ items, h.object? x ≠ some (.array items))
    (harray : ∀ items, o ≠ .array items) :
    (Survey.targetsOf o).count x = o.handles.count x := by
  cases o with
  | frame f =>
    have hs : f.isSealed = false := by rwa [isSealed, frame?_eq_some_iff.mpr ho] at hseal
    rw [Survey.targetsOf_frame, hs]
    simp only [Bool.false_eq_true, if_false, Object.handles, List.count_append,
      Nat.add_left_cancel_iff]
    have hbindings : ∀ b ∈ f.bindings, b.2.ValidIn h := (hvalid y _ ho).2
    generalize f.bindings = bindings at hbindings
    induction bindings with
    | nil => rfl
    | cons first rest ih =>
      obtain ⟨name, v⟩ := first
      have hrest := ih fun b hb => hbindings b (List.mem_cons_of_mem _ hb)
      have hv : v.ValidIn h := hbindings (name, v) List.mem_cons_self
      rw [List.flatMap_cons, List.count_append, ← hrest]
      cases v with
      | closure c =>
        simp only [List.filterMap_cons, Survey.linkOf?, Value.handles, List.count_cons,
          List.count_nil]
        omega
      | array storage items =>
        have hne : storage ≠ x := by
          rintro rfl
          exact hx items hv
        simp [Survey.linkOf?, Value.handles, List.filterMap_cons, hne]
      | bool | number | text | builtin =>
        simp [Survey.linkOf?, Value.handles, List.filterMap_cons]
  | closure c => rfl
  | array items => exact absurd rfl (harray items)

/-- A member has more handles than the survey has counted links into it exactly if an object or
    somebody outside holds it in another way. -/
theorem Balanced.links_lt_holders_iff {r x : Ref} {outer visited : List Ref} {m : Member}
    (hb : h.Balanced (r :: outer)) (hc : Survey.Complete h (h.survey r) r visited)
    (hm : (h.survey r).member? x = some m) :
    m.links < m.holders ↔ x ∈ outer ∨ ∃ y,
      (if y ∈ visited then (h.targetsAt y).count x else 0) < (h.handlesAt y).count x := by
  have hterm : ∀ y, (if y ∈ visited then (h.targetsAt y).count x else 0) ≤
      (h.handlesAt y).count x := by
    intro y
    split_ifs
    · exact h.count_targetsAt_le y x
    · exact Nat.zero_le _
  have hlinks : m.links = (∑ y ∈ Finset.range h.cells.size,
      if y ∈ visited then (h.targetsAt y).count x else 0) + [r].count x := by
    rw [hc.counts.links_of_member hm, List.count_append,
      count_flatMap_targetsAt hc.nodup hc.lt_size]
  have hholders : m.holders = [r].count x + outer.count x +
      ∑ y ∈ Finset.range h.cells.size, (h.handlesAt y).count x := by
    rw [hc.counts.holders x m hm, hb.holders_eq x, linked, ← List.count_append]
    rfl
  have hsum := Finset.sum_le_sum fun y (_ : y ∈ Finset.range h.cells.size) => hterm y
  rw [hlinks, hholders]
  constructor
  · intro hlt
    by_contra hnone
    push Not at hnone
    have houter := List.count_eq_zero_of_not_mem hnone.1
    have hge := Finset.sum_le_sum fun y (_ : y ∈ Finset.range h.cells.size) => hnone.2 y
    omega
  · rintro (hx | ⟨y, hy⟩)
    · have hpos := List.count_pos_iff.mpr hx
      omega
    · have hmem : y ∈ Finset.range h.cells.size := by
        have hpos : 0 < (h.handlesAt y).count x := by omega
        rw [Finset.mem_range]
        by_contra hge
        rw [handlesAt_of_none (by rw [object?, cell?_of_size_le (not_lt.mp hge)]; rfl)] at hpos
        cases hpos
      have hlt : (∑ y ∈ Finset.range h.cells.size,
          if y ∈ visited then (h.targetsAt y).count x else 0) <
          ∑ y ∈ Finset.range h.cells.size, (h.handlesAt y).count x :=
        Finset.sum_lt_sum (fun y _ => hterm y) ⟨y, hmem, hy⟩
      omega

/-- A handle that is not counted as a link is in an object that the survey does not look into. -/
theorem Serves.uncounted_iff {r x y : Ref} {visited : List Ref} (hs : h.Serves (r :: frames) values)
    (hc : Survey.Complete h (h.survey r) r visited) (hx : h.Reaches r x) :
    (if y ∈ visited then (h.targetsAt y).count x else 0) < (h.handlesAt y).count x ↔
      ∃ o, h.object? y = some o ∧ x ∈ o.handles ∧ (¬ h.Reaches r y ∨ h.isSealed y = true) := by
  obtain ⟨f, hf⟩ := hs.frame r List.mem_cons_self
  have hvalid := hs.balanced.valid
  cases ho : h.object? y with
  | none => simp [handlesAt, ho]
  | some o =>
    rw [handlesAt_of_object? ho, targetsAt_of_object? ho]
    simp only [Option.some.injEq, exists_eq_left']
    by_cases hy : h.Reaches r y
    · rw [if_pos ((hc.mem_iff_reaches y).mpr hy)]
      cases hseal : h.isSealed y with
      | true =>
        obtain ⟨g, hg, hgs⟩ : ∃ g, o = .frame g ∧ g.isSealed = true := by
          unfold isSealed at hseal
          cases hframe : h.frame? y with
          | none => rw [hframe] at hseal; cases hseal
          | some g =>
            rw [frame?_eq_some_iff.mp hframe] at ho
            cases ho
            rw [hframe] at hseal
            exact ⟨g, rfl, hseal⟩
        simp [hg, Survey.targetsOf_frame, hgs, List.count_pos_iff]
      | false =>
        have harray : ∀ items, o ≠ .array items := by
          rintro items rfl
          exact hy.not_array hvalid hf items ho
        rw [count_targetsOf_eq hvalid ho hseal (hx.not_array hvalid hf) harray]
        simp [hy]
    · rw [if_neg (mt (hc.mem_iff_reaches y).mp hy)]
      simp [hy, List.count_pos_iff]

/-- The survey takes a member for held from outside exactly if it has a holder besides the survey. -/
theorem Serves.heldOutside_iff {r x : Ref} {visited : List Ref} (hs : h.Serves (r :: frames) values)
    (hc : Survey.Complete h (h.survey r) r visited) (hx : h.Reaches r x) :
    (h.survey r).heldOutside x = true ↔ h.HeldBeside r frames values x := by
  obtain ⟨m, hm⟩ := Option.isSome_iff_exists.mp
    ((hc.mem_iff x).mpr ((hc.mem_iff_reaches x).mpr hx))
  have hb : h.Balanced (r :: (frames ++ values.flatMap Value.handles)) := hs.balanced
  have hcount := hb.links_lt_holders_iff hc hm
  have hpinned := hc.counts.pinned_of_member hm
  have hheld : (h.survey r).heldOutside x = true ↔ m.pinned = true ∨ m.links < m.holders := by
    rw [Survey.heldOutside, hm]
    simp
  rw [hheld, hpinned, hcount]
  constructor
  · rintro (hpin | hout | ⟨y, hy⟩)
    · obtain ⟨y, hy, hxy⟩ := List.mem_flatMap.mp hpin
      exact .of_pin ((hc.mem_iff_reaches y).mp hy) hxy
    · rcases List.mem_append.mp hout with hframe | hvalue
      · exact .frame hframe
      · obtain ⟨v, hv, hxv⟩ := List.mem_flatMap.mp hvalue
        exact .value hv hxv
    · obtain ⟨o, ho, hxo, hbeside⟩ := (hs.uncounted_iff hc hx).mp hy
      exact .object ho hxo hbeside
  · intro hbeside
    cases hbeside with
    | frame hframe => exact .inr (.inl (List.mem_append_left _ hframe))
    | value hv hxv =>
      exact .inr (.inl (List.mem_append_right _ (List.mem_flatMap.mpr ⟨_, hv, hxv⟩)))
    | @object y o ho hxo hy => exact .inr (.inr ⟨y, (hs.uncounted_iff hc hx).mpr ⟨o, ho, hxo, hy⟩⟩)
    | @array y storage f name items hy hf hseal hbind hin =>
      left
      exact List.mem_flatMap.mpr ⟨y, (hc.mem_iff_reaches y).mpr hy,
        (h.mem_pinsAt_iff y x).mpr ⟨f, name, storage, items, hf, hseal, hbind, hin⟩⟩

/-- A member has a mark exactly if a member with a holder besides the survey reaches it. -/
theorem Serves.marked_iff_rescued {r x : Ref} {visited : List Ref}
    (hs : h.Serves (r :: frames) values) (hc : Survey.Complete h (h.survey r) r visited)
    (hx : h.Reaches r x) :
    Survey.Marked (h.survey r).live x ↔ h.Rescued r frames values x := by
  have hlt : ∀ y, h.Reaches r y → y < (h.survey r).members.size := by
    intro y hy
    rw [hc.counts.size_eq]
    exact hc.lt_size y ((hc.mem_iff_reaches y).mpr hy)
  constructor
  · intro hmark
    refine Survey.marked_induction (fun y hy => ?_) (fun y z hy hz => ?_) (hlt x hx) hmark
    · have hmember : ((h.survey r).member? y).isSome = true := by
        rw [Survey.heldOutside] at hy
        cases hm : (h.survey r).member? y with
        | none => simp [hm] at hy
        | some m => rfl
      have hreach := (hc.mem_iff_reaches y).mp ((hc.mem_iff y).mp hmember)
      exact ⟨y, hreach, (hs.heldOutside_iff hc hreach).mp hy, .refl⟩
    · obtain ⟨w, hw, hbeside, hwy⟩ := hy
      have hmem : y ∈ visited := (hc.mem_iff_reaches y).mpr (hw.trans hwy)
      rw [hc.recorded y hmem] at hz
      exact ⟨w, hw, hbeside, hwy.tail ((h.links_iff y z).mpr (.inl hz))⟩
  · rintro ⟨y, hy, hbeside, hyx⟩
    clear hx
    induction hyx with
    | refl => exact Survey.live_of_heldOutside ((hs.heldOutside_iff hc hy).mpr hbeside)
    | @tail w z hyw hl ih =>
      have hw : h.Reaches r w := hy.trans hyw
      have hmem := (hc.mem_iff_reaches w).mpr hw
      rcases (h.links_iff w z).mp hl with ht | hp
      · refine Survey.live_of_target (hlt w hw) ih ?_
        rw [hc.recorded w hmem]
        exact ht
      · -- a function in an array is held from outside, whatever leads to it
        have hpin := List.mem_flatMap.mpr ⟨w, hmem, hp⟩
        obtain ⟨m, hm⟩ := Option.isSome_iff_exists.mp (hc.counts.isSome_of_pin hpin)
        apply Survey.live_of_heldOutside
        rw [Survey.heldOutside, hm]
        simp [(hc.counts.pinned_of_member hm).mpr hpin]

/-! ## Releasing -/

/-- No frame is emptied for a handle to a frame that somebody else needs. -/
theorem Serves.not_rescued_of_mem_lost {r n : Ref} (hs : h.Serves (r :: frames) values)
    (hn : n ∈ h.lost r) : ¬ h.Rescued r frames values r := by
  intro hr
  have halive := hs.alive_of_mem_frames (r := r) List.mem_cons_self
  obtain ⟨visited, hc⟩ := survey_complete hs.balanced.valid halive
  have hlt : r < (h.survey r).live.size := size_live hc ▸ lt_size_of_alive halive
  rw [lost_of_marked hlt ((hs.marked_iff_rescued hc .refl).mpr hr)] at hn
  cases hn

/-- Somebody else needs the frame: only the handle goes. -/
theorem Serves.release_of_rescued {r : Ref} (hs : h.Serves (r :: frames) values)
    (hone : h.holders r ≠ 1) (hr : h.Rescued r frames values r) : h.release r = h.discard [r] := by
  have hnone : h.lost r = [] :=
    List.eq_nil_iff_forall_not_mem.mpr fun n hn => hs.not_rescued_of_mem_lost hn hr
  rw [release_of_shared hone, collect, hnone]
  rfl

/-- The frames that are emptied are the members that nobody rescues. -/
theorem Serves.mem_lost_iff_not_rescued {r n : Ref} (hs : h.Serves (r :: frames) values)
    (hr : ¬ h.Rescued r frames values r) :
    n ∈ h.lost r ↔ h.Reaches r n ∧ ¬ h.Rescued r frames values n ∧
      ∃ f, h.object? n = some (.frame f) ∧ f.isSealed = false := by
  have halive := hs.alive_of_mem_frames (r := r) List.mem_cons_self
  obtain ⟨visited, hc⟩ := survey_complete hs.balanced.valid halive
  have hsize := size_live hc
  have hmark : ¬ Survey.Marked (h.survey r).live r := mt (hs.marked_iff_rescued hc .refl).mp hr
  rw [mem_lost_iff (hsize ▸ lt_size_of_alive halive) hmark hsize, Survey.Lost, hc.mem_iff,
    hc.mem_iff_reaches, and_assoc]
  constructor
  · rintro ⟨hn, hnot, hframe⟩
    exact ⟨hn, mt (hs.marked_iff_rescued hc hn).mpr hnot, hframe⟩
  · rintro ⟨hn, hnot, hframe⟩
    exact ⟨hn, mt (hs.marked_iff_rescued hc hn).mp hnot, hframe⟩

/-- Nobody needs the frame: with it goes every member that nobody rescues. -/
theorem Serves.not_alive_collect {r n : Ref} (hs : h.Serves (r :: frames) values)
    (hr : ¬ h.Rescued r frames values r) (hn : h.Reaches r n)
    (hnot : ¬ h.Rescued r frames values n) : (h.collect r).alive n = false := by
  have hb : h.Balanced (r :: (frames ++ values.flatMap Value.handles)) := hs.balanced
  obtain ⟨visited, hc⟩ := survey_complete hb.valid (hb.alive_of_mem List.mem_cons_self)
  refine hb.lost_not_alive hc (mt (hs.marked_iff_rescued hc .refl).mp hr) ⟨?_, ?_⟩
  · exact (hc.mem_iff n).mpr ((hc.mem_iff_reaches n).mpr hn)
  · exact mt (hs.marked_iff_rescued hc hn).mp hnot

theorem Serves.not_alive_of_not_rescued {r n : Ref} (hs : h.Serves (r :: frames) values)
    (hone : h.holders r ≠ 1) (hr : ¬ h.Rescued r frames values r) (hn : h.Reaches r n)
    (hnot : ¬ h.Rescued r frames values n) : (h.release r).alive n = false := by
  rw [release_of_shared hone]
  exact hs.not_alive_collect hr hn hnot

end Heap

end ApplyLang
