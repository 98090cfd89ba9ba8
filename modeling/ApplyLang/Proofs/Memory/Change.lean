import ApplyLang.Proofs.Memory.Release
import Mathlib.Logic.Relation

/-!
# What can be done to memory

Whatever works on memory makes, binds and gives up frames and values, and does so in a few ways. No
reference is given out twice, an object stays of its kind, and a sealed frame stays as it is: the
writers of bindings and the release of a frame leave it alone.

* `Heap.Change` — one of these ways; `Heap.Changes` — any number of changes, one after the other.
* `Heap.Changes.evolves` — the dead stay dead, and what stays alive is like what it was.
* `Heap.Changes.of_sealed` — a sealed frame was there before, with the same bindings.
* `Heap.IsOrWas.changes` — a sealed frame that is still there is what it was.
-/

namespace ApplyLang

namespace Heap

/-- What can be done to memory, making sealed frames apart. -/
inductive Change (h : Heap) : Heap → Prop
  /-- Handles and values are copied or dropped, and what nobody holds any more goes. -/
  | shrink {k : Heap} (hk : h.Shrinks k) : Change h k
  | alloc (o : Object) (ho : ∀ f, o = .frame f → f.isSealed = false) : Change h (h.alloc o).1
  | bind {r : Ref} (hr : h.isSealed r = false) (name : String) (v : Value) :
      Change h (h.bind r name v)
  | release (r : Ref) : Change h (h.release r)

/-- Changes one after the other. -/
def Changes : Heap → Heap → Prop :=
  Relation.ReflTransGen Change

theorem isSealed_of_frame {h : Heap} {r : Ref} {f : Frame} (hf : h.object? r = some (.frame f)) :
    h.isSealed r = f.isSealed := by
  unfold isSealed
  rw [frame?_eq_some_iff.mpr hf]

/-! ## One change -/

/-- Binding a name in an unsealed frame leaves the sealed frames alone. -/
theorem of_sealed_bind {h : Heap} {r x : Ref} {f : Frame} (hr : h.isSealed r = false)
    {name : String} {v : Value} (hf : (h.bind r name v).object? x = some (.frame f))
    (hs : f.isSealed = true) : h.object? x = some (.frame f) := by
  cases hframe : h.frame? r with
  | none => rwa [bind_of_none hframe] at hf
  | some g =>
    have ho := frame?_eq_some_iff.mp hframe
    have hbefore := object?_of_bind ho hf
    split_ifs at hbefore
    · cases hbefore
      rw [isSealed_of_frame ho] at hr
      cases hr.symm.trans hs
    · exact hbefore

/-- No sealed frame is emptied. -/
theorem isSealed_of_mem_lost {h : Heap} {r x : Ref} (hx : x ∈ h.lost r) : h.isSealed x = false := by
  unfold lost at hx
  dsimp only at hx
  split_ifs at hx
  · cases hx
  · have hkept := (List.mem_filter.mp hx).2
    simp only [Bool.and_eq_true, Bool.not_eq_true'] at hkept
    exact hkept.2

/-- A release leaves the sealed frames alone. -/
theorem of_sealed_release {h : Heap} {r x : Ref} {f : Frame}
    (hf : (h.release r).object? x = some (.frame f)) (hs : f.isSealed = true) :
    h.object? x = some (.frame f) := by
  by_cases hone : h.holders r = 1
  · rw [release_of_last hone] at hf
    exact (discard_shrinks _ _).object x _ hf
  · rw [release_of_shared hone] at hf
    have hbefore := object?_of_collect hf
    split_ifs at hbefore with hx
    · obtain ⟨o, ho, hemptied⟩ := Option.map_eq_some_iff.mp hbefore
      cases o with
      | frame g =>
        cases hemptied
        have hunsealed := isSealed_of_mem_lost hx
        rw [isSealed_of_frame ho] at hunsealed
        cases hunsealed.symm.trans hs
      | closure | array => cases hemptied
    · exact hbefore

namespace Change

variable {h k : Heap}

theorem evolves (hk : h.Change k) : h.Evolves k := by
  cases hk with
  | shrink hk => exact hk.evolves
  | alloc o _ => exact alloc_evolves h o
  | bind _ name v => exact bind_evolves h _ name v
  | release r => exact release_evolves h r

theorem of_sealed (hk : h.Change k) {r : Ref} {f : Frame} (hf : k.object? r = some (.frame f))
    (hs : f.isSealed = true) : h.object? r = some (.frame f) := by
  cases hk with
  | shrink hk => exact hk.object r _ hf
  | alloc o ho =>
    rw [object?_alloc] at hf
    split_ifs at hf
    · cases hf
      cases (ho f rfl).symm.trans hs
    · exact hf
  | bind hr => exact of_sealed_bind hr hf hs
  | release => exact of_sealed_release hf hs

end Change

/-! ## Any number of changes -/

namespace Changes

variable {h k l : Heap}

theorem refl (h : Heap) : h.Changes h :=
  Relation.ReflTransGen.refl

theorem trans (hk : h.Changes k) (kl : k.Changes l) : h.Changes l :=
  Relation.ReflTransGen.trans hk kl

theorem one (hk : h.Change k) : h.Changes k :=
  Relation.ReflTransGen.single hk

theorem evolves (hk : h.Changes k) : h.Evolves k := by
  induction hk with
  | refl => exact .refl h
  | tail _ hlast ih => exact ih.trans hlast.evolves

/-- A sealed frame was there before, with the same bindings. -/
theorem of_sealed (hk : h.Changes k) {r : Ref} {f : Frame} (hf : k.object? r = some (.frame f))
    (hs : f.isSealed = true) : h.object? r = some (.frame f) := by
  induction hk with
  | refl => exact hf
  | tail _ hlast ih => exact ih (hlast.of_sealed hf hs)

/-- A frame that is not sealed stays so. -/
theorem isSealed_eq_false (hk : h.Changes k) {r : Ref} (hr : h.isSealed r = false) :
    k.isSealed r = false := by
  by_contra hs
  unfold isSealed at hs
  cases hf : k.frame? r with
  | none => simp [hf] at hs
  | some f =>
    have hbefore := hk.of_sealed (frame?_eq_some_iff.mp hf) (by simpa [hf] using hs)
    rw [isSealed_of_frame hbefore] at hr
    simp [hf, hr] at hs

end Changes

/-- A reference that has been given out is a certain frame, or was and is free. -/
def IsOrWas (h : Heap) (r : Ref) (f : Frame) : Prop :=
  r < h.cells.size ∧ ∀ o, h.object? r = some o → o = .frame f

namespace IsOrWas

variable {h k : Heap} {r : Ref} {f : Frame}

theorem of_object? (hf : h.object? r = some (.frame f)) : h.IsOrWas r f := by
  refine ⟨lt_size_of_object? hf, fun o ho => ?_⟩
  rw [hf] at ho
  exact (Option.some.inj ho).symm

theorem object? (hr : h.IsOrWas r f) (ha : h.alive r = true) : h.object? r = some (.frame f) := by
  obtain ⟨o, ho⟩ := alive_iff.mp ha
  rw [ho, hr.2 o ho]

/-- Changes leave a sealed frame as it is, or free it. -/
theorem changes (hr : h.IsOrWas r f) (hs : f.isSealed = true) (hk : h.Changes k) :
    k.IsOrWas r f := by
  refine ⟨hr.1.trans_le hk.evolves.size_le, fun o ho => ?_⟩
  obtain ⟨o', ho', hlike⟩ := hk.evolves.like r o hr.1 ho
  rw [hr.2 o' ho'] at hlike
  cases o with
  | frame g => exact hr.2 _ (hk.of_sealed ho (hlike.2.trans hs))
  | closure | array => exact hlike.elim

theorem newSealed (hr : h.IsOrWas r f) (bindings : List (String × Value)) :
    (h.newSealed bindings).1.IsOrWas r f := by
  refine ⟨hr.1.trans_le (newSealed_evolves h bindings).size_le, fun o ho => hr.2 o ?_⟩
  rwa [Heap.newSealed, object?_alloc, if_neg (Nat.ne_of_lt hr.1)] at ho

end IsOrWas

theorem Shrinks.changes {h k : Heap} (hk : h.Shrinks k) : h.Changes k :=
  .one (.shrink hk)

theorem release_changes (h : Heap) (r : Ref) : h.Changes (h.release r) :=
  .one (.release r)

theorem child_changes (h : Heap) (r : Ref) : h.Changes (h.child r).1 :=
  (retain_shrinks h r).changes.trans (.one (.alloc _ fun f hf => by cases hf; rfl))

theorem isSealed_child (h : Heap) (r : Ref) : (h.child r).1.isSealed (h.child r).2 = false :=
  isSealed_of_frame (object?_alloc_new _ _)

theorem newClosure_changes (h : Heap) (c : Closure) : h.Changes (h.newClosure c).1 :=
  (retain_shrinks h c.scope).changes.trans (.one (.alloc _ fun f hf => by cases hf))

theorem newArray_changes (h : Heap) (items : List Value) : h.Changes (h.newArray items).1 :=
  (retainAll_shrinks h _).changes.trans (.one (.alloc _ fun f hf => by cases hf))

theorem define_changes {h k : Heap} {r : Ref} {name : String} {v : Value}
    (hd : h.define r name v = .ok k) : h.Changes k := by
  unfold define at hd
  split_ifs at hd with hs
  cases hd
  exact .one (.bind (by simpa using hs) name v)

theorem assign_changes {h k : Heap} {scope : Ref} {name : String} {v : Value}
    (ha : h.assign scope name v = .ok k) : h.Changes k := by
  unfold assign at ha
  cases ho : h.owner? scope name with
  | none => rw [ho] at ha; cases ha
  | some r =>
    rw [ho] at ha
    dsimp only at ha
    split_ifs at ha with hs
    cases ha
    exact .one (.bind (by simpa using hs) name v)

end Heap

end ApplyLang
