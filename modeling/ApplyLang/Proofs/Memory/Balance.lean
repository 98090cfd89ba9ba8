import ApplyLang.Memory.Scope
import Mathlib.Algebra.BigOperators.Group.Finset.Basic
import Mathlib.Algebra.Order.BigOperators.Group.Finset

/-!
# Balanced memory

Memory is balanced when its counters tell the truth: the number of holders of every object is the
number of handles to it, those from outside together with those inside other objects, and an object
is there as long as somebody holds it.

* `Heap.Balanced` — the invariant, for a list of handles from outside.
* `Heap.Evolves` — what no operation undoes: a reference that is dead stays dead, and an object
  keeps its kind.
* `Heap.Shrinks` — objects go, and nothing else changes.

Every operation of memory has one lemma on `Balanced`, which says how it moves handles between
objects and the outside: `Balanced.retain`, `Balanced.alloc`, `Balanced.replace`.
-/

namespace ApplyLang

/-! ## Objects -/

/-- Two states of one object: a frame keeps its parent and its seal, anything else is as it was. -/
def Object.Like : Object → Object → Prop
  | .frame f, .frame g => g.parent = f.parent ∧ g.isSealed = f.isSealed
  | .closure c, .closure d => d = c
  | .array xs, .array ys => ys = xs
  | _, _ => False

theorem Object.Like.refl (o : Object) : o.Like o := by
  cases o <;> simp [Object.Like]

theorem Object.Like.trans {a b c : Object} (hab : a.Like b) (hbc : b.Like c) : a.Like c := by
  cases a <;> cases b <;> cases c <;> simp_all [Object.Like]

namespace Heap

/-- The handles in the object of a reference. -/
def handlesAt (h : Heap) (r : Ref) : List Ref :=
  match h.object? r with
  | some o => o.handles
  | none => []

/-- Number of handles to `r` inside objects. -/
def linked (h : Heap) (r : Ref) : ℕ :=
  ∑ y ∈ Finset.range h.cells.size, (h.handlesAt y).count r

end Heap

/-- Memory has what a value mentions: the function, or the storage with these very items. -/
def Value.ValidIn (h : Heap) : Value → Prop
  | .closure r => ∃ c, h.object? r = some (.closure c)
  | .array storage items => h.object? storage = some (.array items)
  | _ => True

/-- Memory has what an object mentions. Parents are older than their children. -/
def Object.ValidIn (h : Heap) (r : Ref) : Object → Prop
  | .frame f =>
    (∀ p, f.parent = some p → p < r ∧ ∃ g, h.object? p = some (.frame g)) ∧
      ∀ b ∈ f.bindings, b.2.ValidIn h
  | .closure c => ∃ f, h.object? c.scope = some (.frame f)
  | .array items => ∀ v ∈ items, v.ValidIn h

namespace Heap

/-- Counters tell the truth, for the handles `outer` from outside. -/
structure Balanced (h : Heap) (outer : List Ref) : Prop where
  /-- Every handle is counted. -/
  holders_eq : ∀ r, h.holders r = outer.count r + h.linked r
  /-- What nobody holds is gone. -/
  holders_pos : ∀ r, h.alive r = true → 0 < h.holders r
  /-- Objects mention only what is there. -/
  valid : ∀ r o, h.object? r = some o → o.ValidIn h r

/-- Every object of memory mentions only what is there. -/
def Valid (h : Heap) : Prop :=
  ∀ r o, h.object? r = some o → o.ValidIn h r

/-- What can become of memory: it gets no smaller, and what is alive was there before or is new. -/
structure Evolves (h k : Heap) : Prop where
  size_le : h.cells.size ≤ k.cells.size
  like : ∀ r o, r < h.cells.size → k.object? r = some o → ∃ o', h.object? r = some o' ∧ o'.Like o

/-- Objects may go, and nothing else changes. -/
structure Shrinks (h k : Heap) : Prop where
  size_eq : k.cells.size = h.cells.size
  object : ∀ r o, k.object? r = some o → h.object? r = some o

/-! ## Reading -/

theorem object?_eq_some_iff {h : Heap} {r : Ref} {o : Object} :
    h.object? r = some o ↔ ∃ n, h.cell? r = some ⟨n, o⟩ := by
  unfold object?
  constructor
  · intro ho
    obtain ⟨⟨n, o'⟩, hc, rfl⟩ := Option.map_eq_some_iff.mp ho
    exact ⟨n, hc⟩
  · rintro ⟨n, hc⟩
    rw [hc]; rfl

theorem alive_iff {h : Heap} {r : Ref} : h.alive r = true ↔ ∃ o, h.object? r = some o := by
  unfold alive object?
  cases h.cell? r <;> simp

theorem object?_of_not_alive {h : Heap} {r : Ref} (hr : h.alive r = false) :
    h.object? r = none := by
  rw [Option.eq_none_iff_forall_ne_some]
  intro o ho
  rw [alive_iff.mpr ⟨o, ho⟩] at hr
  cases hr

theorem cell?_of_size_le {h : Heap} {r : Ref} (hr : h.cells.size ≤ r) : h.cell? r = none := by
  simp [cell?, Array.getElem?_eq_none hr]

theorem lt_size_of_object? {h : Heap} {r : Ref} {o : Object} (ho : h.object? r = some o) :
    r < h.cells.size := by
  by_contra hr
  rw [object?, cell?_of_size_le (not_lt.mp hr)] at ho
  cases ho

theorem lt_size_of_alive {h : Heap} {r : Ref} (hr : h.alive r = true) : r < h.cells.size := by
  obtain ⟨o, ho⟩ := alive_iff.mp hr
  exact lt_size_of_object? ho

theorem alive_of_object? {h : Heap} {r : Ref} {o : Object} (ho : h.object? r = some o) :
    h.alive r = true :=
  alive_iff.mpr ⟨o, ho⟩

theorem frame?_eq_some_iff {h : Heap} {r : Ref} {f : Frame} :
    h.frame? r = some f ↔ h.object? r = some (.frame f) := by
  unfold frame?
  cases h.object? r with
  | none => simp
  | some o => cases o <;> simp

theorem closure?_eq_some_iff {h : Heap} {r : Ref} {c : Closure} :
    h.closure? r = some c ↔ h.object? r = some (.closure c) := by
  unfold closure?
  cases h.object? r with
  | none => simp
  | some o => cases o <;> simp

theorem handlesAt_of_object? {h : Heap} {r : Ref} {o : Object} (ho : h.object? r = some o) :
    h.handlesAt r = o.handles := by
  rw [handlesAt, ho]

theorem handlesAt_of_none {h : Heap} {r : Ref} (ho : h.object? r = none) : h.handlesAt r = [] := by
  rw [handlesAt, ho]

theorem holders_of_not_alive {h : Heap} {r : Ref} (hr : h.alive r = false) : h.holders r = 0 := by
  unfold alive at hr
  unfold holders
  cases hc : h.cell? r with
  | none => rfl
  | some c => rw [hc] at hr; cases hr

theorem alive_of_holders_pos {h : Heap} {r : Ref} (hr : 0 < h.holders r) : h.alive r = true := by
  by_contra ha
  rw [holders_of_not_alive (by simpa using ha)] at hr
  omega

theorem count_le_linked {h : Heap} {r x : Ref} {o : Object} (ho : h.object? r = some o) :
    o.handles.count x ≤ h.linked x := by
  rw [← handlesAt_of_object? ho]
  exact Finset.single_le_sum (f := fun y => (h.handlesAt y).count x) (fun _ _ => Nat.zero_le _)
    (Finset.mem_range.mpr (lt_size_of_object? ho))

theorem exists_of_linked_pos {h : Heap} {x : Ref} (hx : 0 < h.linked x) :
    ∃ r o, h.object? r = some o ∧ x ∈ o.handles := by
  by_contra hno
  have hz : h.linked x = 0 := by
    apply Finset.sum_eq_zero
    intro y _
    cases ho : h.object? y with
    | none => rw [handlesAt_of_none ho]; rfl
    | some o =>
      rw [handlesAt_of_object? ho]
      exact List.count_eq_zero_of_not_mem fun hm => hno ⟨y, o, ho, hm⟩
  omega

/-! ## Replacing a cell -/

theorem object?_put (h : Heap) (r s : Ref) (cell : Option Cell) (hr : r < h.cells.size) :
    (h.put r cell).object? s = if s = r then cell.map Cell.object else h.object? s := by
  unfold object?
  rw [cell?_put h r s cell hr]
  split_ifs <;> rfl

theorem object?_put_self (h : Heap) {r s : Ref} {n m : ℕ} {o : Object}
    (hc : h.cell? r = some ⟨n, o⟩) : (h.put r (some ⟨m, o⟩)).object? s = h.object? s := by
  have ho := object?_eq_some_iff.mpr ⟨n, hc⟩
  rw [object?_put h r s _ (lt_size_of_object? ho)]
  split_ifs with hs
  · rw [hs, ho]; rfl
  · rfl

theorem holders_put (h : Heap) (r s : Ref) (cell : Option Cell) (hr : r < h.cells.size) :
    (h.put r cell).holders s = if s = r then cell.elim 0 Cell.holders else h.holders s := by
  unfold holders
  rw [cell?_put h r s cell hr]
  split_ifs
  · cases cell <;> rfl
  · rfl

theorem sum_add_eq_of_agree {s : Finset ℕ} {f g : ℕ → ℕ} {k : ℕ} (hk : k ∈ s)
    (hfg : ∀ y, y ≠ k → f y = g y) : (∑ y ∈ s, f y) + g k = (∑ y ∈ s, g y) + f k := by
  have hrest : ∑ y ∈ s.erase k, f y = ∑ y ∈ s.erase k, g y :=
    Finset.sum_congr rfl fun y hy => hfg y (Finset.ne_of_mem_erase hy)
  rw [← Finset.add_sum_erase s f hk, ← Finset.add_sum_erase s g hk, hrest]
  omega

/-- A new cell brings its own handles and takes those of the old cell away. -/
theorem linked_put (h : Heap) (r x : Ref) (cell : Option Cell) (hr : r < h.cells.size) :
    (h.put r cell).linked x + (h.handlesAt r).count x =
      h.linked x + ((h.put r cell).handlesAt r).count x := by
  unfold linked
  rw [size_put]
  apply sum_add_eq_of_agree (f := fun y => ((h.put r cell).handlesAt y).count x)
    (g := fun y => (h.handlesAt y).count x) (Finset.mem_range.mpr hr)
  intro y hy
  simp only [handlesAt, object?_put h r y cell hr, if_neg hy]

theorem linked_eq_of_object? {h k : Heap} (hsize : k.cells.size = h.cells.size)
    (hobj : ∀ r, k.object? r = h.object? r) (x : Ref) : k.linked x = h.linked x := by
  unfold linked handlesAt
  simp only [hsize, hobj]

/-! ## Evolution -/

theorem Evolves.refl (h : Heap) : h.Evolves h :=
  ⟨le_rfl, fun _ o _ ho => ⟨o, ho, .refl o⟩⟩

theorem Evolves.trans {h k l : Heap} (hk : h.Evolves k) (kl : k.Evolves l) : h.Evolves l := by
  refine ⟨hk.size_le.trans kl.size_le, fun r o hr ho => ?_⟩
  obtain ⟨o₁, ho₁, h₁⟩ := kl.like r o (hr.trans_le hk.size_le) ho
  obtain ⟨o₂, ho₂, h₂⟩ := hk.like r o₁ hr ho₁
  exact ⟨o₂, ho₂, h₂.trans h₁⟩

theorem Shrinks.refl (h : Heap) : h.Shrinks h :=
  ⟨rfl, fun _ _ ho => ho⟩

theorem Shrinks.trans {h k l : Heap} (hk : h.Shrinks k) (kl : k.Shrinks l) : h.Shrinks l :=
  ⟨kl.size_eq.trans hk.size_eq, fun r o ho => hk.object r o (kl.object r o ho)⟩

theorem Shrinks.eq_of_alive {h k : Heap} (hk : h.Shrinks k) {r : Ref} (hr : k.alive r = true) :
    k.object? r = h.object? r := by
  obtain ⟨o, ho⟩ := alive_iff.mp hr
  rw [ho, hk.object r o ho]

theorem Shrinks.evolves {h k : Heap} (hk : h.Shrinks k) : h.Evolves k :=
  ⟨hk.size_eq.ge, fun r o _ ho => ⟨o, hk.object r o ho, .refl o⟩⟩

theorem shrinks_of_object? {h k : Heap} (hsize : k.cells.size = h.cells.size)
    (hobj : ∀ r, k.object? r = h.object? r) : h.Shrinks k :=
  ⟨hsize, fun r o ho => by rwa [← hobj r]⟩

/-- The dead stay dead. -/
theorem Evolves.not_alive {h k : Heap} (hk : h.Evolves k) {r : Ref} (hr : r < h.cells.size)
    (hd : h.alive r = false) : k.alive r = false := by
  by_contra ha
  obtain ⟨o, ho⟩ := alive_iff.mp (by simpa using ha)
  obtain ⟨o', ho', -⟩ := hk.like r o hr ho
  rw [alive_of_object? ho'] at hd
  cases hd

/-- What is still alive is like what it was. -/
theorem Evolves.like_of_alive {h k : Heap} (hk : h.Evolves k) {r : Ref} {o : Object}
    (ho : h.object? r = some o) (ha : k.alive r = true) :
    ∃ o', k.object? r = some o' ∧ o.Like o' := by
  obtain ⟨o', ho'⟩ := alive_iff.mp ha
  obtain ⟨o₀, ho₀, hlike⟩ := hk.like r o' (lt_size_of_object? ho) ho'
  rw [ho] at ho₀
  cases ho₀
  exact ⟨o', ho', hlike⟩

theorem Evolves.frame {h k : Heap} (hk : h.Evolves k) {r : Ref} {f : Frame}
    (hf : h.object? r = some (.frame f)) (ha : k.alive r = true) :
    ∃ g, k.object? r = some (.frame g) ∧ g.parent = f.parent ∧ g.isSealed = f.isSealed := by
  obtain ⟨o, ho, hlike⟩ := hk.like_of_alive hf ha
  cases o with
  | frame g => exact ⟨g, ho, hlike⟩
  | closure c => exact hlike.elim
  | array items => exact hlike.elim

end Heap

/-! ## Validity -/

/-- A value that holds nothing is valid everywhere. -/
theorem Value.validIn_of_handles {h : Heap} {v : Value} (hv : v.handles = []) : v.ValidIn h := by
  cases v with
  | closure | array => cases hv
  | bool | number | text | builtin => trivial

/-- A value stays valid while its own handles are to something alive. -/
theorem Value.ValidIn.evolve {h k : Heap} {v : Value} (hv : v.ValidIn h) (hk : h.Evolves k)
    (ha : ∀ r ∈ v.handles, k.alive r = true) : v.ValidIn k := by
  cases v with
  | closure r =>
    obtain ⟨c, hc⟩ := hv
    obtain ⟨o, ho, hlike⟩ := hk.like_of_alive hc (ha r (by simp [Value.handles]))
    cases o with
    | frame f => exact hlike.elim
    | closure d => exact ⟨d, ho⟩
    | array items => exact hlike.elim
  | array storage items =>
    have hs : h.object? storage = some (.array items) := hv
    obtain ⟨o, ho, hlike⟩ := hk.like_of_alive hs (ha storage (by simp [Value.handles]))
    cases o with
    | frame f => exact hlike.elim
    | closure c => exact hlike.elim
    | array ys =>
      have hys : ys = items := hlike
      exact hys ▸ ho
  | bool | number | text | builtin => trivial

/-- An object stays valid while everything that it holds is alive. -/
theorem Object.ValidIn.evolve {h k : Heap} {r : Ref} {o : Object} (hv : o.ValidIn h r)
    (hk : h.Evolves k) (ha : ∀ x ∈ o.handles, k.alive x = true) : o.ValidIn k r := by
  cases o with
  | frame f =>
    refine ⟨fun p hp => ?_, fun b hb => ?_⟩
    · obtain ⟨hlt, g, hg⟩ := hv.1 p hp
      obtain ⟨g', hg', -⟩ := hk.frame hg (ha p (by simp [Object.handles, hp]))
      exact ⟨hlt, g', hg'⟩
    · refine (hv.2 b hb).evolve hk fun x hx => ha x ?_
      exact List.mem_append_right _ (List.mem_flatMap.mpr ⟨b, hb, hx⟩)
  | closure c =>
    obtain ⟨f, hf⟩ := hv
    obtain ⟨g, hg, -⟩ := hk.frame hf (ha c.scope (by simp [Object.handles]))
    exact ⟨g, hg⟩
  | array items =>
    intro v hvi
    exact (hv v hvi).evolve hk fun x hx => ha x (List.mem_flatMap.mpr ⟨v, hvi, hx⟩)

namespace Heap

variable {h : Heap} {outer : List Ref}

/-! ## What balance says -/

theorem Balanced.alive_of_mem (hb : h.Balanced outer) {r : Ref} (hr : r ∈ outer) :
    h.alive r = true := by
  apply alive_of_holders_pos
  have := List.count_pos_iff.mpr hr
  rw [hb.holders_eq r]
  omega

/-- Only the number of handles from outside matters, not their order. -/
theorem Balanced.congr (hb : h.Balanced outer) {outer' : List Ref}
    (hcount : ∀ r, outer'.count r = outer.count r) : h.Balanced outer' :=
  ⟨fun r => by rw [hb.holders_eq r, hcount r], hb.holders_pos, hb.valid⟩

theorem Balanced.alive_iff_holders_pos (hb : h.Balanced outer) (r : Ref) :
    h.alive r = true ↔ 0 < h.holders r :=
  ⟨hb.holders_pos r, alive_of_holders_pos⟩

/-- Counters and objects may change together, as long as they stay in step. -/
theorem Balanced.of_evolves {k : Heap} (hk : h.Evolves k)
    (hholders : ∀ r, k.holders r = outer.count r + k.linked r)
    (hpos : ∀ r, k.alive r = true → 0 < k.holders r)
    (hvalid : ∀ r o, k.object? r = some o → o.ValidIn h r) : k.Balanced outer := by
  refine ⟨hholders, hpos, fun r o ho => ?_⟩
  -- What the object holds is counted in the new memory, and so it is there.
  apply (hvalid r o ho).evolve hk
  intro x hx
  have h1 := List.count_pos_iff.mpr hx
  have h2 := count_le_linked (x := x) ho
  apply alive_of_holders_pos
  rw [hholders x]
  omega

/-! ## More handles -/

theorem size_retain (h : Heap) (r : Ref) : (h.retain r).cells.size = h.cells.size := by
  unfold retain
  split
  · exact size_put h r _
  · rfl

theorem object?_retain (h : Heap) (r s : Ref) : (h.retain r).object? s = h.object? s := by
  unfold retain
  split
  · rename_i c hc
    exact object?_put_self h (n := c.holders) hc
  · rfl

theorem holders_retain {r : Ref} (hr : h.alive r = true) (s : Ref) :
    (h.retain r).holders s = h.holders s + if s = r then 1 else 0 := by
  obtain ⟨o, ho⟩ := alive_iff.mp hr
  obtain ⟨n, hc⟩ := object?_eq_some_iff.mp ho
  unfold retain
  simp only [hc]
  rw [holders_put h r s _ (lt_size_of_object? ho)]
  split_ifs with hs
  · subst hs; simp [holders, hc]
  · rfl

theorem retain_shrinks (h : Heap) (r : Ref) : h.Shrinks (h.retain r) :=
  shrinks_of_object? (size_retain h r) (object?_retain h r)

theorem Balanced.retain (hb : h.Balanced outer) {r : Ref} (hr : h.alive r = true) :
    (h.retain r).Balanced (r :: outer) := by
  apply Balanced.of_evolves (retain_shrinks h r).evolves
  · intro x
    rw [holders_retain hr, hb.holders_eq x, List.count_cons,
      linked_eq_of_object? (size_retain h r) (object?_retain h r)]
    by_cases hx : x = r
    · subst hx; simp; omega
    · simp [hx, Ne.symm hx]
  · intro x hx
    rw [holders_retain hr]
    obtain ⟨o, ho⟩ := alive_iff.mp hx
    have := hb.holders_pos x (alive_of_object? (object?_retain h r x ▸ ho))
    omega
  · intro x o ho
    exact hb.valid x o (object?_retain h r x ▸ ho)

theorem size_retainAll (h : Heap) (refs : List Ref) :
    (h.retainAll refs).cells.size = h.cells.size := by
  induction refs generalizing h with
  | nil => rfl
  | cons r rest ih => exact (ih (h.retain r)).trans (size_retain h r)

theorem object?_retainAll (h : Heap) (refs : List Ref) (s : Ref) :
    (h.retainAll refs).object? s = h.object? s := by
  induction refs generalizing h with
  | nil => rfl
  | cons r rest ih => exact (ih (h.retain r)).trans (object?_retain h r s)

theorem retainAll_shrinks (h : Heap) (refs : List Ref) : h.Shrinks (h.retainAll refs) :=
  shrinks_of_object? (size_retainAll h refs) (object?_retainAll h refs)

theorem Balanced.retainAll (hb : h.Balanced outer) {refs : List Ref}
    (hr : ∀ r ∈ refs, h.alive r = true) : (h.retainAll refs).Balanced (refs ++ outer) := by
  induction refs generalizing h outer with
  | nil => exact hb
  | cons r rest ih =>
    have h1 := hb.retain (hr r (by simp))
    have h2 := ih h1 fun s hs => by
      obtain ⟨o, ho⟩ := alive_iff.mp (hr s (by simp [hs]))
      exact alive_of_object? ((object?_retain h r s).trans ho)
    apply h2.congr
    intro x
    simp only [List.count_append, List.count_cons]
    omega

/-! ## New objects -/

theorem size_alloc (h : Heap) (o : Object) : (h.alloc o).1.cells.size = h.cells.size + 1 := by
  simp [alloc]

theorem cell?_alloc (h : Heap) (o : Object) (s : ℕ) :
    (h.alloc o).1.cell? s = if s = h.cells.size then some ⟨1, o⟩ else h.cell? s := by
  rcases lt_trichotomy s h.cells.size with hs | hs | hs
  · rw [cell?_alloc_of_lt h o s hs, if_neg (by omega)]
  · rw [if_pos hs, hs]
    exact cell?_alloc_new h o
  · rw [if_neg (by omega), cell?_of_size_le (by rw [size_alloc]; omega),
      cell?_of_size_le (by omega)]

theorem object?_alloc (h : Heap) (o : Object) (s : Ref) :
    (h.alloc o).1.object? s = if s = h.cells.size then some o else h.object? s := by
  unfold object?
  rw [cell?_alloc]
  split_ifs <;> rfl

theorem holders_alloc (h : Heap) (o : Object) (s : Ref) :
    (h.alloc o).1.holders s = if s = h.cells.size then 1 else h.holders s := by
  unfold holders
  rw [cell?_alloc]
  split_ifs <;> rfl

theorem linked_alloc (h : Heap) (o : Object) (x : Ref) :
    (h.alloc o).1.linked x = h.linked x + o.handles.count x := by
  unfold linked
  rw [size_alloc, Finset.sum_range_succ,
    handlesAt_of_object? (o := o) (by rw [object?_alloc, if_pos rfl])]
  congr 1
  apply Finset.sum_congr rfl
  intro y hy
  have : y ≠ h.cells.size := by have := Finset.mem_range.mp hy; omega
  simp only [handlesAt, object?_alloc, if_neg this]

theorem alloc_evolves (h : Heap) (o : Object) : h.Evolves (h.alloc o).1 := by
  refine ⟨by rw [size_alloc]; omega, fun r o' hr ho => ⟨o', ?_, .refl o'⟩⟩
  rwa [object?_alloc, if_neg (ne_of_lt hr)] at ho

/-- A new object takes the handles that it holds over from outside. -/
theorem Balanced.alloc {o : Object} (hb : h.Balanced (o.handles ++ outer))
    (hv : o.ValidIn h h.cells.size) : (h.alloc o).1.Balanced ((h.alloc o).2 :: outer) := by
  have hnew : h.holders h.cells.size = 0 := by
    unfold holders
    rw [cell?_of_size_le le_rfl]
  apply Balanced.of_evolves (alloc_evolves h o)
  · intro x
    have hx := hb.holders_eq x
    rw [List.count_append] at hx
    rw [holders_alloc, linked_alloc, List.count_cons]
    by_cases hs : x = h.cells.size
    · subst hs
      rw [if_pos rfl]
      simp only [Heap.alloc, beq_self_eq_true, if_true]
      omega
    · simp only [Heap.alloc, if_neg hs, beq_iff_eq, if_neg (Ne.symm hs)]
      omega
  · intro x hx
    rw [holders_alloc]
    split_ifs with hs
    · omega
    · obtain ⟨o', ho'⟩ := alive_iff.mp hx
      rw [object?_alloc, if_neg hs] at ho'
      exact hb.holders_pos x (alive_of_object? ho')
  · intro x o' ho
    rw [object?_alloc] at ho
    split_ifs at ho with hs
    · cases ho
      exact hs ▸ hv
    · exact hb.valid x o' ho

/-! ## Changed objects -/

theorem size_replace (h : Heap) (r : Ref) (o : Object) :
    (h.replace r o).cells.size = h.cells.size := by
  unfold replace
  split
  · exact size_put h r _
  · rfl

theorem object?_replace {r : Ref} (hr : h.alive r = true) (o : Object) (s : Ref) :
    (h.replace r o).object? s = if s = r then some o else h.object? s := by
  obtain ⟨o', ho'⟩ := alive_iff.mp hr
  obtain ⟨n, hc⟩ := object?_eq_some_iff.mp ho'
  unfold replace
  simp only [hc]
  rw [object?_put h r s _ (lt_size_of_object? ho')]
  rfl

theorem holders_replace (h : Heap) (r : Ref) (o : Object) (s : Ref) :
    (h.replace r o).holders s = h.holders s := by
  unfold replace
  split
  · rename_i c hc
    have ho : h.object? r = some c.object := by rw [object?, hc]; rfl
    rw [holders_put h r s _ (lt_size_of_object? ho)]
    split_ifs with hs
    · subst hs; simp [holders, hc]
    · rfl
  · rfl

theorem replace_evolves {r : Ref} {o o' : Object} (ho : h.object? r = some o)
    (hlike : o.Like o') : h.Evolves (h.replace r o') := by
  refine ⟨(size_replace h r o').ge, fun s p _ hp => ?_⟩
  rw [object?_replace (alive_of_object? ho)] at hp
  split_ifs at hp with hs
  · cases hp
    exact ⟨o, hs ▸ ho, hlike⟩
  · exact ⟨p, hp, .refl p⟩

theorem linked_replace {r : Ref} {o : Object} (ho : h.object? r = some o) (o' : Object) (x : Ref) :
    (h.replace r o').linked x + o.handles.count x = h.linked x + o'.handles.count x := by
  have hg : (h.replace r o').handlesAt r = o'.handles :=
    handlesAt_of_object? (by rw [object?_replace (alive_of_object? ho), if_pos rfl])
  obtain ⟨n, hc⟩ := object?_eq_some_iff.mp ho
  have he : h.replace r o' = h.put r (some ⟨n, o'⟩) := by
    unfold replace
    simp only [hc]
  have hput := linked_put h r x (some ⟨n, o'⟩) (lt_size_of_object? ho)
  rw [handlesAt_of_object? ho] at hput
  rw [← hg, he]
  exact hput

/-- A changed object takes the handles that it gains from outside, and gives those that it loses
    back. -/
theorem Balanced.replace {r : Ref} {o o' : Object} {outer' : List Ref} (hb : h.Balanced outer)
    (ho : h.object? r = some o) (hlike : o.Like o') (hv : o'.ValidIn h r)
    (hcount : ∀ x, outer'.count x + o'.handles.count x = outer.count x + o.handles.count x) :
    (h.replace r o').Balanced outer' := by
  have ha := alive_of_object? ho
  apply Balanced.of_evolves (replace_evolves ho hlike)
  · intro x
    have h1 := hb.holders_eq x
    have h2 := linked_replace ho o' x
    have h3 := hcount x
    rw [holders_replace]
    omega
  · intro x hx
    rw [holders_replace]
    obtain ⟨p, hp⟩ := alive_iff.mp hx
    rw [object?_replace ha] at hp
    split_ifs at hp with hs
    · exact hs ▸ hb.holders_pos r ha
    · exact hb.holders_pos x (alive_of_object? hp)
  · intro x p hp
    rw [object?_replace ha] at hp
    split_ifs at hp with hs
    · cases hp
      exact hs ▸ hv
    · exact hb.valid x p hp

end Heap

end ApplyLang
