import ApplyLang.Proofs.Reference.Simulation

/-!
# Evaluation with and without counting

Both machines take the same steps. At every moment the memory that counts is the one that does not,
with some objects gone, and none of these is ever asked for. This is the case of `Machine.Mirrors` in
which both memories give out the same references.

* `tracks_iff_mirrors` — the relation between the machines, without renaming.
* `Tracks.finish?` — both end with the same result, or neither ends.
-/

namespace ApplyLang

/-! ## The same references -/

mutual

@[simp] theorem Value.rename_id : ∀ v : Value, v.rename id = v
  | .array storage items => by rw [rename, renameAll_id items, id]
  | .closure _ | .bool _ | .number _ | .text _ | .builtin _ => rfl

theorem Value.renameAll_id : ∀ items : List Value, renameAll id items = items
  | [] => rfl
  | item :: rest => by rw [renameAll, rename_id item, renameAll_id rest]

end

@[simp] theorem Value.map_rename_id (items : List Value) : items.map (Value.rename id) = items :=
  (renameAll_eq_map items).symm.trans (renameAll_id items)

@[simp] theorem Object.rename_id (o : Object) : o.rename id = o := by
  cases o with
  | frame f => simp [rename, Frame.rename]
  | closure c => rfl
  | array items => exact congrArg Object.array (Value.map_rename_id items)

/-! ## Writing to both memories -/

namespace Heap

variable {h k : Heap}

/-- Memory with some objects gone has the others under the same references. -/
theorem shrinks_iff_renames : k.Shrinks h ↔ k.Renames id h := by
  constructor
  · intro hk
    refine ⟨hk.size_eq.le, fun i => congrArg (· + i) hk.size_eq, fun r o ho => ?_⟩
    rw [Object.rename_id]
    exact hk.object r o ho
  · intro hk
    refine ⟨hk.next 0, fun r o ho => ?_⟩
    have hold := hk.object r o ho
    rwa [Object.rename_id] at hold

theorem Shrinks.alloc (hk : k.Shrinks h) (o : Object) : (k.alloc o).1.Shrinks (h.alloc o).1 := by
  have hnew := (shrinks_iff_renames.mp hk).alloc o
  rw [Object.rename_id] at hnew
  exact shrinks_iff_renames.mpr hnew

theorem Shrinks.child (hk : k.Shrinks h) (r : Ref) :
    (Reference.child k r).1.Shrinks (h.child r).1 ∧ (Reference.child k r).2 = (h.child r).2 :=
  ((shrinks_iff_renames.mp hk).child r).imp_left shrinks_iff_renames.mpr

theorem Shrinks.newArray (hk : k.Shrinks h) (items : List Value) :
    (Reference.newArray k items).1.Shrinks (h.newArray items).1 ∧
      (Reference.newArray k items).2 = (h.newArray items).2 := by
  have hnew := (shrinks_iff_renames.mp hk).newArray items
  rw [Value.map_rename_id, Value.rename_id] at hnew
  exact hnew.imp_left shrinks_iff_renames.mpr

/-- Both ways to write are refused, or both bind the name in the same frame. -/
theorem Shrinks.define (hk : k.Shrinks h) {r : Ref} {f : Frame}
    (hf : h.object? r = some (.frame f)) (name : String) (v : Value) :
    (∃ e, Reference.define k r name v = .error e ∧ h.define r name v = .error e) ∨
      ∃ k' h', Reference.define k r name v = .ok k' ∧ h.define r name v = .ok h' ∧
        k'.Shrinks h' := by
  have hw := (shrinks_iff_renames.mp hk).define Function.injective_id hf name v
  simp only [Value.rename_id, ← shrinks_iff_renames] at hw
  exact hw

theorem Shrinks.assign (hk : k.Shrinks h) {outer : List Ref} (hb : h.Balanced outer) {scope : Ref}
    {f : Frame} (hf : h.object? scope = some (.frame f)) (name : String) (v : Value) :
    (∃ e, Reference.assign k scope name v = .error e ∧ h.assign scope name v = .error e) ∨
      ∃ k' h', Reference.assign k scope name v = .ok k' ∧ h.assign scope name v = .ok h' ∧
        k'.Shrinks h' := by
  have hw := (shrinks_iff_renames.mp hk).assign Function.injective_id hb hf name v
  simp only [Value.rename_id, ← shrinks_iff_renames] at hw
  exact hw

end Heap

/-! ## Machines -/

/-- A machine that counts follows one that does not. -/
structure Tracks (n m : Machine) : Prop where
  heap : n.heap.Shrinks m.heap
  out : n.out = m.out
  control : n.control = m.control
  pending : n.pending = m.pending

theorem Control.rename_id (c : Control) : c.rename id = c := by
  cases c with
  | value v => exact congrArg Control.value v.rename_id
  | eval | fault => rfl

theorem Pending.rename_id (p : Pending) : p.rename id = p := by
  cases p <;> simp [rename]

theorem Pending.map_rename_id (pending : List Pending) : pending.map (Pending.rename id) = pending :=
  (List.map_congr_left fun p _ => p.rename_id).trans (List.map_id _)

namespace Machine

/-- The machine on another memory. -/
def withHeap (m : Machine) (k : Heap) : Machine :=
  { m with heap := k }

theorem rename_id (m : Machine) (k : Heap) : m.rename id k = m.withHeap k := by
  rw [rename, m.control.rename_id, Pending.map_rename_id, withHeap]

end Machine

variable {base : List Ref} {others : List Value} {n m : Machine}

/-- A machine that counts follows one that does not if it is in the same state, under the same
    references. -/
theorem tracks_iff_mirrors : Tracks n m ↔ Machine.Mirrors id n m := by
  constructor
  · rintro ⟨hk, hout, hcontrol, hpending⟩
    rw [← m.control.rename_id] at hcontrol
    rw [← Pending.map_rename_id m.pending] at hpending
    exact ⟨Heap.shrinks_iff_renames.mp hk, hout, hcontrol, hpending⟩
  · rintro ⟨hk, hout, hcontrol, hpending⟩
    rw [m.control.rename_id] at hcontrol
    rw [Pending.map_rename_id] at hpending
    exact ⟨Heap.shrinks_iff_renames.mpr hk, hout, hcontrol, hpending⟩

theorem Machine.Holds.apply_tracks {function : Value} {arguments : List Value} {k : Heap}
    (hm : m.Holds base others (function :: arguments)) (hk : k.Shrinks m.heap) (call : Call)
    (blamed : Span) :
    Tracks (Reference.apply (m.withHeap k) call blamed function arguments)
      (m.apply call blamed function arguments) := by
  have hmirrors := hm.apply_mirrors Function.injective_id (Heap.shrinks_iff_renames.mp hk) call blamed
  rw [Machine.rename_id, Value.rename_id, Value.map_rename_id] at hmirrors
  exact tracks_iff_mirrors.mpr hmirrors

/-- Two evaluations have ended in the same way. -/
structure Ended.Tracks (n m : Ended) : Prop where
  heap : n.heap.Shrinks m.heap
  out : n.out = m.out
  result : n.result = m.result

theorem Ended.Mirrors.tracks {n m : Ended} (hm : Ended.Mirrors id n m) : n.Tracks m := by
  refine ⟨Heap.shrinks_iff_renames.mpr hm.heap, hm.out, ?_⟩
  rw [hm.result]
  cases m.result with
  | ok v => exact congrArg Except.ok v.rename_id
  | error f => rfl

theorem Tracks.finish? (ht : Tracks n m) (hm : m.Sound base others) (fuel : ℕ) :
    Option.Rel Ended.Tracks (Reference.finish? fuel n) (m.finish? fuel) := by
  have hrel := (tracks_iff_mirrors.mp ht).finish? Function.injective_id hm fuel
  generalize Reference.finish? fuel n = x at hrel ⊢
  generalize m.finish? fuel = y at hrel ⊢
  cases hrel with
  | none => exact .none
  | some hended => exact .some hended.tracks

end ApplyLang
