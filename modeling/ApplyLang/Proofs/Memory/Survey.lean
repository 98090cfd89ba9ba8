import ApplyLang.Memory.Release
import ApplyLang.Proofs.Memory.Roots

/-!
# What a survey knows

A survey visits what can be reached from a frame, one member after the other. Its counts are exact:
when it ends, every member has been visited once, and the links into a member are the links out of
all members.

* `Heap.Links` — what a survey follows: the links that it counts and those to functions in arrays.
* `Survey.Counts` — the invariant, for the members visited so far and the links met so far.
* `Survey.Complete` — what is known in the end.
* `Heap.survey_complete` — every survey gets there.
-/

namespace ApplyLang

/-! ## Functions inside values -/

mutual

/-- Every function in a valid value is there. -/
theorem Value.ValidIn.closure {h : Heap}
    (hvalid : ∀ r o, h.object? r = some o → o.ValidIn h r) :
    ∀ {v : Value}, v.ValidIn h → ∀ r ∈ v.closures, ∃ c, h.object? r = some (.closure c)
  | .closure s, hv, r, hr => by
    rw [Value.closures, List.mem_singleton] at hr
    rw [hr]
    exact hv
  | .array storage items, hv, r, hr => by
    rw [Value.closures] at hr
    exact Value.closure_of_mem_closuresIn hvalid (hvalid storage _ hv) r hr
  | .bool _, _, _, hr | .number _, _, _, hr | .text _, _, _, hr | .builtin _, _, _, hr => by
    cases hr

theorem Value.closure_of_mem_closuresIn {h : Heap}
    (hvalid : ∀ r o, h.object? r = some o → o.ValidIn h r) :
    ∀ {items : List Value}, (∀ v ∈ items, v.ValidIn h) →
      ∀ r ∈ Value.closuresIn items, ∃ c, h.object? r = some (.closure c)
  | [], _, _, hr => by cases hr
  | item :: rest, hv, r, hr => by
    rw [Value.closuresIn] at hr
    rcases List.mem_append.mp hr with hr | hr
    · exact Value.ValidIn.closure hvalid (hv item (by simp)) r hr
    · exact Value.closure_of_mem_closuresIn hvalid (fun v hm => hv v (by simp [hm])) r hr

end

/-! ## Links of objects -/

namespace Survey

/-- The function that is bound by itself. -/
def linkOf? (binding : String × Value) : Option Ref :=
  match binding.2 with
  | .closure r => some r
  | _ => none

/-- The functions that are bound in an array. -/
def pinsIn (binding : String × Value) : List Ref :=
  match binding.2 with
  | .closure _ => []
  | v => v.closures

/-- The functions in the arrays that an object binds. -/
def pinsOf : Object → List Ref
  | .frame f => if f.isSealed then [] else f.bindings.flatMap pinsIn
  | _ => []

theorem mem_closures_iff (b : String × Value) (x : Ref) :
    x ∈ b.2.closures ↔ linkOf? b = some x ∨ x ∈ pinsIn b := by
  obtain ⟨name, v⟩ := b
  cases v with
  | closure r => simp [linkOf?, pinsIn, Value.closures, eq_comm]
  | bool | number | text | array | builtin => simp [linkOf?, pinsIn]

theorem targetsOf_frame (f : Frame) : targetsOf (.frame f) =
    if f.isSealed then [] else f.parent.toList ++ f.bindings.filterMap linkOf? :=
  rfl

theorem count_links_le (bindings : List (String × Value)) (x : Ref) :
    (bindings.filterMap linkOf?).count x ≤
      (bindings.flatMap fun binding => binding.2.handles).count x := by
  induction bindings with
  | nil => simp
  | cons first rest ih =>
    obtain ⟨name, v⟩ := first
    rw [List.flatMap_cons, List.count_append]
    cases v with
    | closure r =>
      have hlink : linkOf? (name, .closure r) = some r := rfl
      have hr : (Value.closure r).handles = [r] := rfl
      simp only [List.filterMap_cons, hlink, hr, List.count_cons, List.count_nil]
      omega
    | bool | number | text | array | builtin =>
      simp only [List.filterMap_cons, linkOf?]
      omega

/-- Links are handles. -/
theorem count_targetsOf_le (o : Object) (x : Ref) :
    (targetsOf o).count x ≤ o.handles.count x := by
  cases o with
  | frame f =>
    rw [targetsOf_frame]
    split_ifs
    · simp
    · have := count_links_le f.bindings x
      simp only [Object.handles, List.count_append]
      omega
  | closure c => exact le_rfl
  | array items => simp [targetsOf]

end Survey

namespace Heap

/-- The links of the object of a reference. -/
def targetsAt (h : Heap) (r : Ref) : List Ref :=
  match h.object? r with
  | some o => Survey.targetsOf o
  | none => []

/-- The functions in the arrays that the object of a reference binds. -/
def pinsAt (h : Heap) (r : Ref) : List Ref :=
  match h.object? r with
  | some o => Survey.pinsOf o
  | none => []

theorem targetsAt_of_object? {h : Heap} {r : Ref} {o : Object} (ho : h.object? r = some o) :
    h.targetsAt r = Survey.targetsOf o := by
  rw [targetsAt, ho]

theorem pinsAt_of_object? {h : Heap} {r : Ref} {o : Object} (ho : h.object? r = some o) :
    h.pinsAt r = Survey.pinsOf o := by
  rw [pinsAt, ho]

/-- The links that a survey follows. -/
inductive Links (h : Heap) (y : Ref) : Ref → Prop
  /-- From a frame to the frame around it. -/
  | parent {f : Frame} {p : Ref} (hf : h.object? y = some (.frame f)) (hs : f.isSealed = false)
      (hp : f.parent = some p) : Links h y p
  /-- From a frame to the functions bound in it, at any depth of arrays. -/
  | bound {f : Frame} {b : String × Value} {x : Ref} (hf : h.object? y = some (.frame f))
      (hs : f.isSealed = false) (hb : b ∈ f.bindings) (hx : x ∈ b.2.closures) : Links h y x
  /-- From a function to the frame that it was made in. -/
  | captured {c : Closure} (hc : h.object? y = some (.closure c)) : Links h y c.scope

/-- A link is one that the survey counts, or leads to a function in an array. -/
theorem links_iff (h : Heap) (y x : Ref) : h.Links y x ↔ x ∈ h.targetsAt y ∨ x ∈ h.pinsAt y := by
  constructor
  · intro hl
    cases hl with
    | parent hf hs hp =>
      left
      rw [targetsAt_of_object? hf, Survey.targetsOf_frame, hs]
      simp [hp]
    | @bound f b x hf hs hb hx =>
      rw [targetsAt_of_object? hf, pinsAt_of_object? hf, Survey.targetsOf_frame, Survey.pinsOf, hs]
      rcases (Survey.mem_closures_iff b x).mp hx with hlink | hpin
      · exact .inl (List.mem_append_right _ (List.mem_filterMap.mpr ⟨b, hb, hlink⟩))
      · exact .inr (List.mem_flatMap.mpr ⟨b, hb, hpin⟩)
    | captured hc =>
      left
      rw [targetsAt_of_object? hc]
      exact List.mem_singleton_self _
  · cases ho : h.object? y with
    | none => simp [targetsAt, pinsAt, ho]
    | some o =>
      rw [targetsAt_of_object? ho, pinsAt_of_object? ho]
      cases o with
      | frame f =>
        rw [Survey.targetsOf_frame, Survey.pinsOf]
        cases hs : f.isSealed with
        | true => simp
        | false =>
          rintro (hx | hx)
          · rcases List.mem_append.mp hx with hp | hx
            · exact .parent ho hs (Option.mem_toList.mp hp)
            · obtain ⟨b, hb, hlink⟩ := List.mem_filterMap.mp hx
              exact .bound ho hs hb ((Survey.mem_closures_iff b x).mpr (.inl hlink))
          · obtain ⟨b, hb, hpin⟩ := List.mem_flatMap.mp hx
            exact .bound ho hs hb ((Survey.mem_closures_iff b x).mpr (.inr hpin))
      | closure c =>
        rintro (hx | hx)
        · rw [List.mem_singleton.mp hx]
          exact .captured ho
        · cases hx
      | array items => rintro (hx | hx) <;> cases hx

/-- In valid memory links lead to something alive. -/
theorem Links.alive {h : Heap} (hvalid : ∀ r o, h.object? r = some o → o.ValidIn h r) {y x : Ref}
    (hl : h.Links y x) : h.alive x = true := by
  cases hl with
  | parent hf _ hp =>
    obtain ⟨-, g, hg⟩ := (hvalid y _ hf).1 x hp
    exact alive_of_object? hg
  | bound hf _ hb hxb =>
    obtain ⟨c, hc⟩ := ((hvalid y _ hf).2 _ hb).closure hvalid x hxb
    exact alive_of_object? hc
  | captured hc =>
    obtain ⟨g, hg⟩ := hvalid y _ hc
    exact alive_of_object? hg

theorem count_targetsAt_le (h : Heap) (r x : Ref) :
    (h.targetsAt r).count x ≤ (h.handlesAt r).count x := by
  unfold targetsAt handlesAt
  cases h.object? r with
  | none => exact le_rfl
  | some o => exact Survey.count_targetsOf_le o x

end Heap

/-! ## Members -/

namespace Survey

variable {h : Heap} {s : Survey}

/-- Number of links into a member that the survey has met. -/
def linksTo (s : Survey) (r : Ref) : ℕ :=
  match s.member? r with
  | some m => m.links
  | none => 0

/-- Whether a member was found in an array. -/
def isPinned (s : Survey) (r : Ref) : Bool :=
  match s.member? r with
  | some m => m.pinned
  | none => false

theorem member?_put (s : Survey) {r : ℕ} (m : Member) (hr : r < s.members.size) (x : ℕ) :
    (s.put r m).member? x = if x = r then some m else s.member? x := by
  unfold put member?
  by_cases hx : x = r
  · subst hx; simp [hr]
  · simp [hx, Array.getElem?_setIfInBounds_ne (Ne.symm hx)]

theorem size_put (s : Survey) (r : Ref) (m : Member) :
    (s.put r m).members.size = s.members.size := by
  simp [put]

theorem lt_size_of_member? {r : Ref} {m : Member} (hm : s.member? r = some m) :
    r < s.members.size := by
  by_contra hr
  simp [member?, Array.getElem?_eq_none (not_lt.mp hr)] at hm

theorem meet_of_member {r : Ref} {m : Member} (hm : s.member? r = some m) :
    s.meet h r = s.put r { m with links := m.links + 1 } := by
  unfold meet
  rw [hm]

theorem meet_of_new {r : Ref} (hm : s.member? r = none) :
    s.meet h r =
      { s.put r ⟨h.holders r, 1, false, []⟩ with waiting := r :: s.waiting } := by
  unfold meet
  rw [hm]
  rfl

theorem pin_of_member {r : Ref} {m : Member} (hm : s.member? r = some m) :
    s.pin r = s.put r { m with links := m.links - 1, pinned := true } := by
  unfold pin
  rw [hm]

/-- What is known at some point: `visited` are the members visited so far, `met` the links met so
    far, and `pins` the functions found in arrays so far. -/
structure Counts (h : Heap) (s : Survey) (visited met pins : List Ref) : Prop where
  size_eq : s.members.size = h.cells.size
  mem_iff : ∀ r, (s.member? r).isSome = true ↔ r ∈ visited ++ s.waiting
  alive : ∀ r ∈ visited ++ s.waiting, h.alive r = true
  nodup : (visited ++ s.waiting).Nodup
  holders : ∀ r m, s.member? r = some m → m.holders = h.holders r
  links : ∀ r, s.linksTo r = met.count r
  pinned : ∀ r, s.isPinned r = true ↔ r ∈ pins

variable {visited met pins : List Ref}

theorem Counts.congr (hc : Counts h s visited met pins) {met' pins' : List Ref}
    (hmet : ∀ r, met'.count r = met.count r) (hpins : ∀ r, r ∈ pins' ↔ r ∈ pins) :
    Counts h s visited met' pins' :=
  { hc with
    links := fun r => (hc.links r).trans (hmet r).symm
    pinned := fun r => (hc.pinned r).trans (hpins r).symm }

theorem Counts.links_of_member (hc : Counts h s visited met pins) {r : Ref} {m : Member}
    (hm : s.member? r = some m) : m.links = met.count r := by
  rw [← hc.links r, linksTo, hm]

theorem Counts.pinned_of_member (hc : Counts h s visited met pins) {r : Ref} {m : Member}
    (hm : s.member? r = some m) : m.pinned = true ↔ r ∈ pins := by
  rw [← hc.pinned r, isPinned, hm]

/-- What is known of one member changes. -/
theorem Counts.update {met' pins' : List Ref} (hc : Counts h s visited met pins) {r : Ref}
    {m m' : Member} (hm : s.member? r = some m) (hholders : m'.holders = m.holders)
    (hmet : ∀ x, met'.count x = if x = r then m'.links else met.count x)
    (hpins : ∀ x, x ∈ pins' ↔ if x = r then m'.pinned = true else x ∈ pins) :
    Counts h (s.put r m') visited met' pins' := by
  have hput := member?_put s m' (lt_size_of_member? hm)
  have hwaiting : (s.put r m').waiting = s.waiting := rfl
  refine ⟨(size_put s r m').trans hc.size_eq, fun x => ?_, hwaiting ▸ hc.alive,
    hwaiting ▸ hc.nodup, fun x n hn => ?_, fun x => ?_, fun x => ?_⟩
  · rw [hput x, hwaiting, ← hc.mem_iff x]
    split_ifs with hx
    · rw [hx, hm]; rfl
    · rfl
  · rw [hput x] at hn
    split_ifs at hn with hx
    · cases hn
      rw [hholders, hx]
      exact hc.holders r m hm
    · exact hc.holders x n hn
  · rw [linksTo, hput x, hmet x]
    split_ifs
    · rfl
    · exact hc.links x
  · rw [isPinned, hput x, hpins x]
    split_ifs
    · rfl
    · exact hc.pinned x

/-- Something is met for the first time. -/
theorem Counts.discover (hc : Counts h s visited met pins) {r : Ref} (hr : h.alive r = true)
    (hm : s.member? r = none) :
    Counts h { s.put r ⟨h.holders r, 1, false, []⟩ with waiting := r :: s.waiting } visited
      (r :: met) pins := by
  have hlt : r < s.members.size := hc.size_eq ▸ Heap.lt_size_of_alive hr
  have hput := member?_put s ⟨h.holders r, 1, false, []⟩ hlt
  have hnew : r ∉ visited ++ s.waiting := by
    rw [← hc.mem_iff r, hm]
    simp
  have hwait : (visited ++ r :: s.waiting).Perm (r :: (visited ++ s.waiting)) := List.perm_middle
  have hlinks := hc.links r
  have hpinned := hc.pinned r
  rw [linksTo, hm] at hlinks
  rw [isPinned, hm] at hpinned
  refine ⟨(size_put s r _).trans hc.size_eq, fun x => ?_, fun x hx => ?_,
    hwait.nodup_iff.mpr (List.nodup_cons.mpr ⟨hnew, hc.nodup⟩), fun x n hn => ?_,
    fun x => ?_, fun x => ?_⟩
  · show ((s.put r _).member? x).isSome = true ↔ x ∈ visited ++ r :: s.waiting
    rw [hput x, hwait.mem_iff, List.mem_cons, ← hc.mem_iff x]
    split_ifs with hx <;> simp [hx]
  · rcases List.mem_cons.mp (hwait.mem_iff.mp hx) with rfl | hx
    · exact hr
    · exact hc.alive x hx
  · replace hn : (s.put r _).member? x = some n := hn
    rw [hput x] at hn
    split_ifs at hn with hx
    · cases hn
      rw [hx]
    · exact hc.holders x n hn
  · show linksTo (s.put r _) x = _
    rw [linksTo, hput x, List.count_cons]
    by_cases hx : x = r
    · subst hx
      simp [← hlinks]
    · rw [if_neg hx, if_neg (by simpa using Ne.symm hx)]
      exact hc.links x
  · show isPinned (s.put r _) x = true ↔ _
    rw [isPinned, hput x]
    by_cases hx : x = r
    · subst hx
      rw [if_pos rfl]
      exact hpinned
    · rw [if_neg hx]
      exact hc.pinned x

/-- Only the first link to something makes it wait. -/
theorem Counts.meet (hc : Counts h s visited met pins) {r : Ref} (hr : h.alive r = true) :
    Counts h (s.meet h r) visited (r :: met) pins := by
  cases hm : s.member? r with
  | none =>
    rw [meet_of_new hm]
    exact hc.discover hr hm
  | some m =>
    rw [meet_of_member hm]
    refine hc.update hm rfl (fun x => ?_) fun x => ?_
    · rw [List.count_cons]
      by_cases hx : x = r
      · subst hx
        simp [hc.links_of_member hm]
      · rw [if_neg hx, if_neg (by simpa using Ne.symm hx), Nat.add_zero]
    · by_cases hx : x = r
      · rw [if_pos hx, hx]
        exact (hc.pinned_of_member hm).symm
      · rw [if_neg hx]

/-- Taking the latest link back leaves the other links. -/
theorem Counts.pin {r : Ref} (hc : Counts h s visited (r :: met) pins) :
    Counts h (s.pin r) visited met (r :: pins) := by
  cases hm : s.member? r with
  | none =>
    have hlinks := hc.links r
    rw [linksTo, hm, List.count_cons_self] at hlinks
    cases hlinks
  | some m =>
    have hlinks := hc.links_of_member hm
    rw [List.count_cons_self] at hlinks
    rw [pin_of_member hm]
    refine hc.update hm rfl (fun x => ?_) fun x => ?_
    · by_cases hx : x = r
      · subst hx
        rw [if_pos rfl]
        simp only
        omega
      · rw [if_neg hx, List.count_cons, if_neg (by simpa using Ne.symm hx), Nat.add_zero]
    · by_cases hx : x = r
      · simp [hx]
      · simp [hx]

theorem Counts.record (hc : Counts h s visited met pins) (r : Ref) (refs : List Ref) :
    Counts h (s.record r refs) visited met pins := by
  unfold Survey.record
  cases hm : s.member? r with
  | none => exact hc
  | some m =>
    refine hc.update hm rfl (fun x => ?_) fun x => ?_
    · split_ifs with hx
      · rw [hx, ← hc.links_of_member hm]
      · rfl
    · split_ifs with hx
      · rw [hx]
        exact (hc.pinned_of_member hm).symm
      · rfl

theorem Counts.meetPins {refs : List Ref} (hc : Counts h s visited met pins)
    (hr : ∀ r ∈ refs, h.alive r = true) :
    Counts h (refs.foldl (fun s r => (s.meet h r).pin r) s) visited met (refs ++ pins) := by
  induction refs generalizing s pins with
  | nil => exact hc
  | cons r rest ih =>
    refine (ih (hc.meet (hr r (by simp))).pin fun x hx => hr x (by simp [hx])).congr
      (fun _ => rfl) fun x => ?_
    simp only [List.mem_append, List.mem_cons]
    tauto

theorem Counts.meetAll {refs : List Ref} (hc : Counts h s visited met pins)
    (hr : ∀ r ∈ refs, h.alive r = true) :
    Counts h (refs.foldl (Survey.meet h) s) visited (refs ++ met) pins := by
  induction refs generalizing s met with
  | nil => exact hc
  | cons r rest ih =>
    refine (ih (hc.meet (hr r (by simp))) fun x hx => hr x (by simp [hx])).congr
      (fun x => ?_) fun _ => .rfl
    simp only [List.count_append, List.count_cons]
    omega

/-- The bindings of a frame: a function is a link, functions in arrays are pinned. -/
theorem Counts.meetBindings {bindings : List (String × Value)}
    (hc : Counts h s visited met pins)
    (hr : ∀ b ∈ bindings, ∀ r ∈ b.2.closures, h.alive r = true) :
    Counts h (bindings.foldl (fun s b => s.meetValue h b.2) s) visited
      (bindings.filterMap linkOf? ++ met) (bindings.flatMap pinsIn ++ pins) := by
  induction bindings generalizing s met pins with
  | nil => exact hc
  | cons first rest ih =>
    obtain ⟨name, v⟩ := first
    have hfirst : ∀ r ∈ v.closures, h.alive r = true := hr (name, v) (by simp)
    have hrest : ∀ b ∈ rest, ∀ r ∈ b.2.closures, h.alive r = true :=
      fun b hb => hr b (by simp [hb])
    have hpins : ∀ {t : Survey}, Counts h t visited met (v.closures ++ pins) →
        Counts h (rest.foldl (fun s b => s.meetValue h b.2) t) visited
          (rest.filterMap linkOf? ++ met) (v.closures ++ rest.flatMap pinsIn ++ pins) := fun ht =>
      (ih ht hrest).congr (fun _ => rfl) fun x => by
        simp only [List.mem_append]
        tauto
    cases v with
    | closure r =>
      refine (ih (hc.meet (hfirst r (by simp [Value.closures]))) hrest).congr (fun x => ?_)
        fun _ => .rfl
      have hlink : linkOf? (name, .closure r) = some r := rfl
      simp only [List.filterMap_cons, hlink, List.count_append, List.count_cons]
      omega
    | bool | number | text | array | builtin => exact hpins (hc.meetPins hfirst)

theorem Counts.meetObject {o : Object} (hc : Counts h s visited met pins)
    (hlinks : ∀ x, x ∈ targetsOf o ∨ x ∈ pinsOf o → h.alive x = true) :
    Counts h (s.meetObject h o) visited (targetsOf o ++ met) (pinsOf o ++ pins) := by
  cases o with
  | frame f =>
    simp only [Survey.meetObject, targetsOf_frame, pinsOf] at hlinks ⊢
    split_ifs at hlinks ⊢
    · exact hc
    · have hparent : ∀ p ∈ f.parent.toList, h.alive p = true :=
        fun p hp => hlinks p (.inl (List.mem_append_left _ hp))
      have hbindings : ∀ b ∈ f.bindings, ∀ c ∈ b.2.closures, h.alive c = true := by
        intro b hb c hcl
        rcases (mem_closures_iff b c).mp hcl with hlink | hpin
        · exact hlinks c (.inl (List.mem_append_right _ (List.mem_filterMap.mpr ⟨b, hb, hlink⟩)))
        · exact hlinks c (.inr (List.mem_flatMap.mpr ⟨b, hb, hpin⟩))
      refine ((hc.meetAll hparent).meetBindings hbindings).congr (fun x => ?_) fun _ => .rfl
      simp only [List.count_append]
      omega
  | closure c => exact hc.meet (hlinks c.scope (.inl (List.mem_singleton_self _)))
  | array items => exact hc

/-! ## Targets -/

theorem targets_of_member {r : Ref} {m : Member} (hm : s.member? r = some m) :
    s.targets r = m.targets := by
  rw [targets, hm]

theorem targets_of_none {r : Ref} (hm : s.member? r = none) : s.targets r = [] := by
  rw [targets, hm]

/-- Counting changes no targets. -/
theorem targets_put {r : Ref} {m : Member} (hm : m.targets = s.targets r) (x : Ref) :
    (s.put r m).targets x = s.targets x := by
  by_cases hr : r < s.members.size
  · rw [targets, member?_put s m hr x]
    split_ifs with hx
    · rw [hx]
      exact hm
    · rfl
  · have hsame : (s.put r m).members = s.members := by simp [put, Array.setIfInBounds, hr]
    rw [targets, targets, member?, member?, hsame]

theorem targets_meet (h : Heap) (s : Survey) (r x : Ref) : (s.meet h r).targets x = s.targets x := by
  cases hm : s.member? r with
  | some m =>
    rw [meet_of_member hm]
    apply targets_put
    exact (targets_of_member hm).symm
  | none =>
    rw [meet_of_new hm]
    exact targets_put (targets_of_none hm).symm x

theorem targets_pin (s : Survey) (r x : Ref) : (s.pin r).targets x = s.targets x := by
  cases hm : s.member? r with
  | none => rw [Survey.pin, hm]
  | some m =>
    rw [pin_of_member hm]
    apply targets_put
    exact (targets_of_member hm).symm

theorem targets_meetValue (h : Heap) (s : Survey) (v : Value) (x : Ref) :
    (s.meetValue h v).targets x = s.targets x := by
  have hpins : ∀ (refs : List Ref) (s : Survey),
      (refs.foldl (fun s r => (s.meet h r).pin r) s).targets x = s.targets x := by
    intro refs
    induction refs with
    | nil => intro s; rfl
    | cons r rest ih =>
      intro s
      rw [List.foldl_cons, ih, targets_pin, targets_meet]
  cases v with
  | closure r => exact targets_meet h s r x
  | bool | number | text | array | builtin => exact hpins _ s

theorem targets_meetObject (h : Heap) (s : Survey) (o : Object) (x : Ref) :
    (s.meetObject h o).targets x = s.targets x := by
  cases o with
  | frame f =>
    simp only [meetObject]
    split_ifs
    · rfl
    · have hbindings : ∀ (bindings : List (String × Value)) (s : Survey),
          (bindings.foldl (fun s b => s.meetValue h b.2) s).targets x = s.targets x := by
        intro bindings
        induction bindings with
        | nil => intro s; rfl
        | cons b rest ih =>
          intro s
          rw [List.foldl_cons, ih, targets_meetValue]
      rw [hbindings]
      cases f.parent with
      | none => rfl
      | some p => exact targets_meet h s p x
  | closure c => exact targets_meet h s c.scope x
  | array items => rfl

theorem targets_record {r : Ref} {m : Member} (hm : s.member? r = some m) (refs : List Ref)
    (x : Ref) : (s.record r refs).targets x = if x = r then refs else s.targets x := by
  unfold record
  rw [hm, targets]
  simp only
  rw [member?_put s _ (lt_size_of_member? hm) x]
  split_ifs <;> rfl

/-! ## Visits -/

/-- What is known between two visits. -/
structure Progress (h : Heap) (s : Survey) (r : Ref) (visited : List Ref) : Prop where
  counts : Counts h s visited (visited.flatMap h.targetsAt ++ [r]) (visited.flatMap h.pinsAt)
  recorded : ∀ v ∈ visited, s.targets v = h.targetsAt v

/-- What is known when nothing is left to visit. -/
structure Complete (h : Heap) (s : Survey) (r : Ref) (visited : List Ref) : Prop
    extends Progress h s r visited where
  waiting_eq : s.waiting = []

theorem Counts.pop {r : Ref} {rest : List Ref} (hc : Counts h s visited met pins)
    (hw : s.waiting = r :: rest) :
    Counts h { s with waiting := rest } (r :: visited) met pins := by
  have hperm : ((r :: visited) ++ rest).Perm (visited ++ s.waiting) := by
    rw [hw]
    exact List.perm_middle.symm
  exact
    { hc with
      mem_iff := fun x => (hc.mem_iff x).trans hperm.mem_iff.symm
      alive := fun x hx => hc.alive x (hperm.mem_iff.mp hx)
      nodup := hperm.nodup_iff.mpr hc.nodup }

theorem Progress.visit {r x : Ref} {rest : List Ref} (hp : Progress h s r visited)
    (hlinks : ∀ y x, h.Links y x → h.alive x = true)
    (hw : s.waiting = x :: rest) :
    Progress h (Survey.visit h { s with waiting := rest } x) r (x :: visited) := by
  have hpop := hp.counts.pop hw
  obtain ⟨o, ho⟩ := Heap.alive_iff.mp (hp.counts.alive x (by rw [hw]; simp))
  have hmet := hpop.meetObject fun z hz => by
    rw [← Heap.targetsAt_of_object? ho, ← Heap.pinsAt_of_object? ho] at hz
    exact hlinks x z ((h.links_iff x z).mpr hz)
  have hvisit : Survey.visit h { s with waiting := rest } x =
      (Survey.meetObject h { s with waiting := rest } o).record x (targetsOf o) := by
    rw [Survey.visit, ho]
  obtain ⟨m, hm⟩ := Option.isSome_iff_exists.mp ((hmet.mem_iff x).mpr (by simp))
  rw [hvisit]
  constructor
  · rw [List.flatMap_cons, List.flatMap_cons, Heap.targetsAt_of_object? ho,
      Heap.pinsAt_of_object? ho, List.append_assoc]
    exact hmet.record x (targetsOf o)
  · intro v hv
    rw [targets_record hm, targets_meetObject]
    split_ifs with hx
    · rw [hx, Heap.targetsAt_of_object? ho]
    · exact hp.recorded v ((List.mem_cons.mp hv).resolve_left hx)

/-- Members are below the size of memory and come once each. -/
theorem Counts.length_le (hc : Counts h s visited met pins) :
    visited.length + s.waiting.length ≤ h.cells.size := by
  rw [← List.length_append, ← List.length_range (n := h.cells.size)]
  apply (List.Nodup.subperm hc.nodup _).length_le
  intro r hr
  exact List.mem_range.mpr (Heap.lt_size_of_alive (hc.alive r hr))

theorem Progress.visitAll {r : Ref} {fuel : ℕ} (hp : Progress h s r visited)
    (hlinks : ∀ y x, h.Links y x → h.alive x = true)
    (hfuel : visited.length + fuel = h.cells.size) :
    ∃ all, Complete h (Survey.visitAll h fuel s) r all := by
  induction fuel generalizing s visited with
  | zero =>
    have hle := hp.counts.length_le
    have hnone : s.waiting.length = 0 := by omega
    exact ⟨visited, hp, List.eq_nil_of_length_eq_zero hnone⟩
  | succ fuel ih =>
    unfold Survey.visitAll
    split
    · rename_i hw
      exact ⟨visited, hp, hw⟩
    · rename_i x rest hw
      exact ih (hp.visit hlinks hw) (by rw [List.length_cons]; omega)

end Survey

theorem Survey.counts_empty (h : Heap) :
    Survey.Counts h ⟨Array.replicate h.cells.size none, []⟩ [] [] [] := by
  have hnone : ∀ x,
      (⟨Array.replicate h.cells.size none, []⟩ : Survey).member? x = none := by
    intro x
    simp only [Survey.member?, Array.getElem?_replicate]
    split_ifs <;> rfl
  refine ⟨Array.size_replicate, fun x => ?_, fun x hx => absurd hx List.not_mem_nil, List.nodup_nil,
    fun x m hm => ?_, fun x => ?_, fun x => ?_⟩
  · rw [hnone x]; simp
  · rw [hnone x] at hm; cases hm
  · rw [Survey.linksTo, hnone x]; rfl
  · rw [Survey.isPinned, hnone x]; simp

/-- The survey from anything alive visits every member once, if links lead to something alive. -/
theorem Heap.survey_complete_of_links {h : Heap}
    (hlinks : ∀ y x, h.Links y x → h.alive x = true) {r : Ref}
    (hr : h.alive r = true) : ∃ visited, Survey.Complete h (h.survey r) r visited := by
  have hfirst := (Survey.counts_empty h).meet hr
  exact Survey.Progress.visitAll ⟨hfirst, fun v hv => by cases hv⟩ hlinks (Nat.zero_add _)

/-- The survey from anything alive in valid memory visits every member once. -/
theorem Heap.survey_complete {h : Heap}
    (hvalid : ∀ r o, h.object? r = some o → o.ValidIn h r) {r : Ref} (hr : h.alive r = true) :
    ∃ visited, Survey.Complete h (h.survey r) r visited :=
  survey_complete_of_links (fun _ _ => Links.alive hvalid) hr

end ApplyLang
