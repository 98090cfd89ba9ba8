import ApplyLang.Proofs.Session.Soundness
import Mathlib.Algebra.BigOperators.Group.Finset.Piecewise

/-!
# Accounts

Who holds what between the steps of a session.

* `Session.Accounted` — the holders of every frame and every function, one by one.
* `Session.Reached.accounted` — the accounts are in order in every state that a session reaches, and
  what has died stays dead.
-/

namespace ApplyLang

/-- Whether a value is this function. -/
def Value.isClosure (r : Ref) : Value → Bool
  | closure s => s == r
  | _ => false

/-- Everything that a value refers to is alive: its storage, and the functions in it at any depth. -/
def Value.AliveIn (h : Heap) (v : Value) : Prop :=
  ∀ r, r ∈ v.handles ∨ r ∈ v.closures → h.alive r = true

/-- The values stored in an object. -/
def Object.stored : Object → List Value
  | frame f => f.bindings.map Prod.snd
  | closure _ => []
  | array items => items

namespace Heap

/-- The values stored in an object that is alive: those bound in a frame, or the items of an array
    storage. -/
def storedAt (h : Heap) (r : Ref) : List Value :=
  match h.object? r with
  | some o => o.stored
  | none => []

/-- The frame that a function captured. -/
def captured? (h : Heap) (r : Ref) : Option Ref :=
  (h.closure? r).map Closure.scope

/-- Number of frames inside a frame. -/
def children (h : Heap) (r : Ref) : ℕ :=
  ((Finset.range h.cells.size).filter fun x => h.parent? x = some r).card

/-- Number of functions that captured a frame. -/
def capturers (h : Heap) (r : Ref) : ℕ :=
  ((Finset.range h.cells.size).filter fun x => h.captured? x = some r).card

/-- How often a function is bound in frames or stands in array storages. -/
def occurrences (h : Heap) (r : Ref) : ℕ :=
  ∑ x ∈ Finset.range h.cells.size, (h.storedAt x).countP (·.isClosure r)

end Heap

/-! ## Handles of values -/

namespace Value

variable {h : Heap} {v : Value} {r : Ref}

/-- Values do not hold frames. -/
theorem ValidIn.count_handles_frame (hv : v.ValidIn h) {f : Frame}
    (hr : h.object? r = some (.frame f)) : v.handles.count r = 0 := by
  apply List.count_eq_zero_of_not_mem
  intro hmem
  cases v with
  | closure s =>
    obtain ⟨c, hc⟩ := hv
    rw [← List.mem_singleton.mp hmem, hr] at hc
    cases hc
  | array storage items =>
    have hs : h.object? storage = some (.array items) := hv
    rw [← List.mem_singleton.mp hmem, hr] at hs
    cases hs
  | bool | number | text | builtin => cases hmem

/-- The only values that hold a function are the function itself. -/
theorem ValidIn.count_handles_closure (hv : v.ValidIn h) {c : Closure}
    (hr : h.object? r = some (.closure c)) : v.handles.count r = if v.isClosure r then 1 else 0 := by
  cases v with
  | closure s => simp [handles, isClosure, List.count_singleton]
  | array storage items =>
    have hs : h.object? storage = some (.array items) := hv
    have hne : storage ≠ r := by
      rintro rfl
      rw [hr] at hs
      cases hs
    simp [handles, isClosure, hne]
  | bool | number | text | builtin => rfl

theorem count_flatMap_handles_frame {vs : List Value} (hv : ∀ v ∈ vs, v.ValidIn h) {f : Frame}
    (hr : h.object? r = some (.frame f)) : (vs.flatMap handles).count r = 0 := by
  apply List.count_eq_zero_of_not_mem
  intro hmem
  obtain ⟨v, hv', hr'⟩ := List.mem_flatMap.mp hmem
  have := (hv v hv').count_handles_frame hr
  exact List.count_pos_iff.mpr hr' |>.ne' this

theorem count_flatMap_handles_closure {vs : List Value} (hv : ∀ v ∈ vs, v.ValidIn h) {c : Closure}
    (hr : h.object? r = some (.closure c)) :
    (vs.flatMap handles).count r = vs.countP (·.isClosure r) := by
  induction vs with
  | nil => rfl
  | cons v vs ih =>
    rw [List.flatMap_cons, List.count_append, List.countP_cons,
      (hv v List.mem_cons_self).count_handles_closure hr,
      ih fun w hw => hv w (List.mem_cons_of_mem _ hw), Nat.add_comm]

end Value

namespace Heap

variable {h : Heap} {outer : List Ref} {r : Ref}

theorem parent?_of_frame {x : Ref} {f : Frame} (hf : h.object? x = some (.frame f)) :
    h.parent? x = f.parent := by
  rw [parent?, frame?_eq_some_iff.mpr hf]
  rfl

/-- Handles of a frame in another object: the other object is a frame inside it, or a function that
    was made in it. -/
theorem Balanced.count_handlesAt_frame (hb : h.Balanced outer) {f : Frame}
    (hr : h.object? r = some (.frame f)) (x : Ref) :
    (h.handlesAt x).count r =
      (if h.parent? x = some r then 1 else 0) + if h.captured? x = some r then 1 else 0 := by
  cases ho : h.object? x with
  | none => simp [handlesAt, parent?, captured?, frame?, closure?, ho]
  | some o =>
    have hv := hb.valid x o ho
    rw [handlesAt_of_object? ho]
    cases o with
    | frame g =>
      have hbindings : (g.bindings.flatMap fun b => b.2.handles).count r = 0 := by
        rw [← List.flatMap_map Prod.snd]
        refine Value.count_flatMap_handles_frame (fun v hv' => ?_) hr
        obtain ⟨b, hb', rfl⟩ := List.mem_map.mp hv'
        exact hv.2 b hb'
      have hcaptured : h.captured? x = none := by simp [captured?, closure?, ho]
      rw [Object.handles, List.count_append, hbindings, parent?_of_frame ho, hcaptured]
      cases g.parent <;> simp [List.count_singleton]
    | closure c =>
      have hparent : h.parent? x = none := by simp [parent?, frame?, ho]
      have hcaptured : h.captured? x = some c.scope := by simp [captured?, closure?, ho]
      rw [hparent, hcaptured]
      simp [Object.handles, List.count_singleton]
    | array items =>
      have hparent : h.parent? x = none := by simp [parent?, frame?, ho]
      have hcaptured : h.captured? x = none := by simp [captured?, closure?, ho]
      rw [hparent, hcaptured]
      exact Value.count_flatMap_handles_frame hv hr

/-- Handles of a function in another object: it is stored there. -/
theorem Balanced.count_handlesAt_closure (hb : h.Balanced outer) {c : Closure}
    (hr : h.object? r = some (.closure c)) (x : Ref) :
    (h.handlesAt x).count r = (h.storedAt x).countP (·.isClosure r) := by
  cases ho : h.object? x with
  | none => simp [handlesAt, storedAt, ho]
  | some o =>
    have hv := hb.valid x o ho
    rw [handlesAt_of_object? ho, storedAt, ho]
    cases o with
    | frame g =>
      have hparent : g.parent.toList.count r = 0 := by
        apply List.count_eq_zero_of_not_mem
        intro hmem
        obtain ⟨-, f, hf⟩ := hv.1 r (Option.mem_toList.mp hmem)
        rw [hr] at hf
        cases hf
      rw [Object.handles, List.count_append, hparent, Nat.zero_add, ← List.flatMap_map Prod.snd]
      refine Value.count_flatMap_handles_closure (fun v hv' => ?_) hr
      obtain ⟨b, hb', rfl⟩ := List.mem_map.mp hv'
      exact hv.2 b hb'
    | closure d =>
      have hne : d.scope ≠ r := by
        rintro rfl
        obtain ⟨f, hf⟩ := hv
        rw [hr] at hf
        cases hf
      simp [Object.handles, Object.stored, hne]
    | array items => exact Value.count_flatMap_handles_closure hv hr

theorem Balanced.linked_frame (hb : h.Balanced outer) {f : Frame}
    (hr : h.object? r = some (.frame f)) : h.linked r = h.children r + h.capturers r := by
  unfold linked children capturers
  rw [Finset.card_filter, Finset.card_filter, ← Finset.sum_add_distrib]
  exact Finset.sum_congr rfl fun x _ => hb.count_handlesAt_frame hr x

theorem Balanced.linked_closure (hb : h.Balanced outer) {c : Closure}
    (hr : h.object? r = some (.closure c)) : h.linked r = h.occurrences r :=
  Finset.sum_congr rfl fun x _ => hb.count_handlesAt_closure hr x

/-- Stored values are valid. -/
theorem Balanced.valid_of_mem_stored (hb : h.Balanced outer) {v : Value} (hv : v ∈ h.storedAt r) :
    v.ValidIn h := by
  unfold storedAt at hv
  cases ho : h.object? r with
  | none => rw [ho] at hv; cases hv
  | some o =>
    rw [ho] at hv
    have hvalid := hb.valid r o ho
    cases o with
    | frame f =>
      obtain ⟨b, hmem, rfl⟩ := List.mem_map.mp hv
      exact hvalid.2 b hmem
    | closure c => cases hv
    | array items => exact hvalid v hv

theorem Balanced.aliveIn (hb : h.Balanced outer) {v : Value} (hv : v.ValidIn h) : v.AliveIn h := by
  rintro x (hx | hx)
  · exact hv.alive hx
  · obtain ⟨c, hc⟩ := hv.closure hb.valid x hx
    exact alive_of_object? hc

end Heap

namespace Session

/-- The accounts of a session are in order. -/
structure Accounted (s : Session) : Prop where
  /-- Whatever is alive is held, and the other way round. -/
  alive_iff : ∀ r, s.heap.alive r = true ↔ 0 < s.heap.holders r
  /-- A frame is held by entries of the table of scopes, by the frames inside it and by the functions
      that captured it; the global frame is also held by the process. -/
  frame : ∀ r f, s.heap.object? r = some (.frame f) →
    s.heap.holders r = (s.scopes.map Prod.snd).count r + s.heap.children r + s.heap.capturers r +
      if r = Heap.global then 1 else 0
  /-- A function is held wherever it is stored, and by the table of values. -/
  closure : ∀ r c, s.heap.object? r = some (.closure c) →
    s.heap.holders r = s.heap.occurrences r + s.kept.countP (·.isClosure r)
  parent : ∀ r p, s.heap.parent? r = some p → s.heap.alive p = true
  captured : ∀ r p, s.heap.captured? r = some p → s.heap.alive p = true
  stored : ∀ r, ∀ v ∈ s.heap.storedAt r, v.AliveIn s.heap
  scopes : ∀ r ∈ s.scopes.map Prod.snd, s.heap.alive r = true
  values : ∀ v ∈ s.kept, v.AliveIn s.heap

variable {s : Session}

theorem Sound.holders_frame (hs : s.Sound) {r : Ref} {f : Frame}
    (hr : s.heap.object? r = some (.frame f)) :
    s.heap.holders r = (s.scopes.map Prod.snd).count r + s.heap.children r + s.heap.capturers r +
      if r = Heap.global then 1 else 0 := by
  have hb := hs.serves.balanced
  rw [hb.holders_eq r, hb.linked_frame hr, List.count_append,
    Value.count_flatMap_handles_frame hs.serves.value hr, frames, List.count_cons]
  by_cases hglobal : r = Heap.global
  · simp only [hglobal, beq_self_eq_true, if_true]
    omega
  · have hne : (Heap.global == r) = false := by simp [Ne.symm hglobal]
    simp only [hne, hglobal, Bool.false_eq_true, if_false]
    omega

theorem Sound.holders_closure (hs : s.Sound) {r : Ref} {c : Closure}
    (hr : s.heap.object? r = some (.closure c)) :
    s.heap.holders r = s.heap.occurrences r + s.kept.countP (·.isClosure r) := by
  have hb := hs.serves.balanced
  have hframes : s.frames.count r = 0 := by
    apply List.count_eq_zero_of_not_mem
    intro hmem
    obtain ⟨f, hf⟩ := hs.serves.frame r hmem
    rw [hr] at hf
    cases hf
  rw [hb.holders_eq r, hb.linked_closure hr, List.count_append, hframes,
    Value.count_flatMap_handles_closure hs.serves.value hr]
  omega

theorem Sound.accounts (hs : s.Sound) : s.Accounted where
  alive_iff := hs.serves.balanced.alive_iff_holders_pos
  frame _ _ := hs.holders_frame
  closure _ _ := hs.holders_closure
  parent r p hp := by
    obtain ⟨f, hf, hparent⟩ := Option.bind_eq_some_iff.mp hp
    obtain ⟨-, g, hg⟩ := (hs.serves.balanced.valid r _ (Heap.frame?_eq_some_iff.mp hf)).1 p hparent
    exact Heap.alive_of_object? hg
  captured r p hp := by
    obtain ⟨c, hc, rfl⟩ := Option.map_eq_some_iff.mp hp
    obtain ⟨g, hg⟩ := hs.serves.balanced.valid r _ (Heap.closure?_eq_some_iff.mp hc)
    exact Heap.alive_of_object? hg
  stored _ _ hv := hs.serves.balanced.aliveIn (hs.serves.balanced.valid_of_mem_stored hv)
  scopes r hr := hs.serves.alive_of_mem_frames (List.mem_cons_of_mem _ hr)
  values v hv := hs.serves.balanced.aliveIn (hs.serves.value v hv)

/-- In every state that a session reaches the accounts are in order, and what has died by then never
    comes to life again. -/
theorem Reached.accounted (hs : s.Reached) :
    s.Accounted ∧ ∀ s', s.Becomes s' → ∀ r, r < s.heap.cells.size → s.heap.alive r = false →
      s'.heap.alive r = false :=
  ⟨hs.sound.accounts, fun _ hb _ hr hdead => (hs.sound.becomes hb).evolves.not_alive hr hdead⟩

/-- A child of the global frame holds it, as do the entry made for it and the process. -/
theorem accounted_child : ∃ s,
    performAll 0 (start .unlimited) [.global "g", .child "g" "c"] = .ok (s, [.done, .done]) ∧
      s.Accounted ∧ s.heap.holders Heap.global = 3 := by
  have hp : performAll 0 (start .unlimited) [.global "g", .child "g" "c"] = .ok (_, _) := rfl
  exact ⟨_, hp, (Reached.accounted ⟨_, becomes_performAll hp⟩).1, rfl⟩

/-- Entries, children and functions are not all that holds the global frame. -/
theorem global_held_by_process : ¬ ∀ s : Session, s.Reached → ∀ r f,
    s.heap.object? r = some (.frame f) →
      s.heap.holders r =
        (s.scopes.map Prod.snd).count r + s.heap.children r + s.heap.capturers r := by
  intro h
  have hglobal : (start .unlimited).perform 0 (.global "g") = .ok (_, .done) := rfl
  have hholders := h _ ⟨.unlimited, .perform .refl hglobal⟩ Heap.global _ rfl
  exact absurd hholders (by decide)

end Session

end ApplyLang
