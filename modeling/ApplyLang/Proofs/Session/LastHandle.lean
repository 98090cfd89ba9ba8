import ApplyLang.Proofs.Memory.Support
import ApplyLang.Proofs.Session.Exactness

/-!
# Releasing the only handle

A release with the only handle to a frame does without a survey and just drops the handle. That frees
the frame, but not all that only this frame still needed: a function bound in it may have been made
in another frame that binds the function as well, and those two keep each other alive.

* `Handle.release_last` — what releasing the only handle leaves, next to what the long way leaves.
* `leaks_borrowed_frame` — a frame that the long way takes along and the release leaves behind.

**Deviation.** A release is to empty the frames that are then reached only through functions bound
inside themselves, so that they are freed. With the only handle it does not look for such frames.
-/

namespace ApplyLang

namespace Handle

variable {h : Heap} {r : Ref} {frames : List Ref} {values : List Value}

/-- Releasing the only handle to a frame drops it. Every frame that the long way leaves is left, with
    the same bindings; and both ways leave the same frames with the same bindings if and only if no
    member of the survey that nobody rescues is on a way of links that comes back to it. -/
theorem release_last (hh : Handle h r frames values) (hone : h.holders r = 1) :
    h.release r = h.discard [r] ∧
      (∀ n f, (h.collect r).frame? n = some f → (h.release r).frame? n = some f) ∧
      ((∀ n, (h.release r).frame? n = (h.collect r).frame? n) ↔
        ¬ ∃ n, h.Circle r frames values n) := by
  have hs := hh.serves
  have hdrop := Heap.release_of_last hone
  refine ⟨hdrop, fun n f hf => ?_, ?_⟩
  · have ho := Heap.frame?_eq_some_iff.mp hf
    have hleft := hs.alive_discard_of_collect (Heap.alive_of_object? ho)
    rw [hdrop, Heap.frame?_eq_some_iff, (Heap.discard_shrinks h [r]).eq_of_alive hleft]
    exact hs.balanced_cons.collect_shrinks.object n _ ho
  · rw [hdrop]
    exact hs.discard_eq_collect_iff hone

end Handle

/-! ## A frame that is left behind -/

namespace Session

theorem performAll_cons {fuel : ℕ} {s s' s'' : Session} {step : Step} {rest : List Step}
    {answer : Answer} {answers : List Answer} (hp : s.perform fuel step = .ok (s', answer))
    (hr : s'.performAll fuel rest = .ok (s'', answers)) :
    s.performAll fuel (step :: rest) = .ok (s'', answer :: answers) := by
  rw [performAll, hp]
  show (s'.performAll fuel rest >>= _) = _
  rw [hr]
  rfl

theorem performAll_append {fuel : ℕ} {s s' s'' : Session} {first rest : List Step}
    {answers more : List Answer} (hp : s.performAll fuel first = .ok (s', answers))
    (hr : s'.performAll fuel rest = .ok (s'', more)) :
    s.performAll fuel (first ++ rest) = .ok (s'', answers ++ more) := by
  induction first generalizing s answers with
  | nil =>
    cases hp
    exact hr
  | cons step first ih =>
    obtain ⟨⟨s₁, answer⟩, hstep, hp⟩ := exists_of_bind_eq_ok hp
    obtain ⟨⟨s₂, later⟩, hrest, hp⟩ := exists_of_bind_eq_ok hp
    cases hp
    exact performAll_cons hstep (ih hrest)

/-- The frame 1 binds a function that was made in it, and the frame 3 is all that still needs that
    function. -/
def borrowed : Session where
  heap := ⟨#[some ⟨4, .frame ⟨Heap.globalBindings, none, true⟩⟩,
    some ⟨1, .frame ⟨[("f", .closure 2)], some 0, false⟩⟩,
    some ⟨2, .closure ⟨[], .word "f" ⟨15, 16⟩, 1⟩⟩,
    some ⟨1, .frame ⟨[("x", .closure 2)], some 0, false⟩⟩]⟩
  out := .unlimited
  scopes := [("d", 3), ("g", 0)]
  weaks := [("w", 1)]
  values := []

/-- Before the function is bound in the frame 3. -/
def lending : Session where
  heap := ⟨#[some ⟨4, .frame ⟨Heap.globalBindings, none, true⟩⟩,
    some ⟨2, .frame ⟨[("f", .closure 2)], some 0, false⟩⟩,
    some ⟨2, .closure ⟨[], .word "f" ⟨15, 16⟩, 1⟩⟩,
    some ⟨1, .frame ⟨[], some 0, false⟩⟩]⟩
  out := .unlimited
  scopes := [("d", 3), ("c", 1), ("g", 0)]
  weaks := [("w", 1)]
  values := [("v", .closure 2)]

theorem performAll_lending : ∃ answers, performAll 100 (.start .unlimited)
    [.global "g", .child "g" "c", .weaken "c" "w",
      .evaluate "c" "define(f, func(f))" (some "v"), .child "g" "d"] = .ok (lending, answers) :=
  ⟨_, rfl⟩

/-- The frame 3 gets the function, and everyone else lets go of it and of the frame 1. -/
theorem performAll_borrowed : ∃ answers, performAll 100 (.start .unlimited)
    [.global "g", .child "g" "c", .weaken "c" "w",
      .evaluate "c" "define(f, func(f))" (some "v"), .child "g" "d",
      .define "d" "x" (.stored "v"), .forget "v", .drop "c"] = .ok (borrowed, answers) := by
  let own : Frame := ⟨[("f", .closure 2)], some 0, false⟩
  let f : Closure := ⟨[], .word "f" ⟨15, 16⟩, 1⟩
  let heap (holders : ℕ) : Heap := ⟨#[some ⟨4, .frame ⟨Heap.globalBindings, none, true⟩⟩,
    some ⟨2, .frame own⟩, some ⟨holders, .closure f⟩,
    some ⟨1, .frame ⟨[("x", .closure 2)], some 0, false⟩⟩]⟩
  let bound : Session := { lending with heap := heap 3 }
  let forgotten : Session := { lending with heap := heap 2, values := [] }
  have hbound : lending.perform 100 (.define "d" "x" (.stored "v")) = .ok (bound, .done) := rfl
  have hforgotten : bound.perform 100 (.forget "v") = .ok (forgotten, .done) := rfl
  have hget : Table.get forgotten.scopes "c" = .ok 1 := rfl
  have hdropped : forgotten.perform 100 (.drop "c") = .ok (borrowed, .done) := by
    simp only [perform, hget]
    rfl
  have hnone : borrowed.performAll 100 [] = .ok (borrowed, []) := rfl
  have hrest := performAll_cons hbound (performAll_cons hforgotten (performAll_cons hdropped hnone))
  obtain ⟨_, hmade⟩ := performAll_lending
  have hall := performAll_append hmade hrest
  exact ⟨_, hall⟩

end Session

theorem Handle.borrowed : Handle Session.borrowed.heap 3 [0, 0] [] := by
  obtain ⟨_, hp⟩ := Session.performAll_borrowed
  have hheld : [0, 3, 0].Perm [3, 0, 0] := by decide
  have hreached : Session.borrowed.Reached := ⟨_, Session.becomes_performAll hp⟩
  exact .between hreached hheld

/-- The function and the frame that it was made in are on a way of links that comes back. -/
theorem release_last_borrowed :
    Handle Session.borrowed.heap 3 [0, 0] [] ∧ Session.borrowed.heap.holders 3 = 1 ∧
      ∃ n, Session.borrowed.heap.Circle 3 [0, 0] [] n := by
  refine ⟨Handle.borrowed, rfl, ?_⟩
  by_contra hnone
  have hsame := (Handle.release_last .borrowed rfl).2.2.mpr hnone 1
  have hleft : (Session.borrowed.heap.release 3).frame? 1 =
    some ⟨[("f", .closure 2)], some 0, false⟩ := rfl
  have hgone : (Session.borrowed.heap.collect 3).frame? 1 = none := rfl
  rw [hleft, hgone] at hsame
  cases hsame

/-- Releasing the only handle to the frame 3 leaves the frame 1 behind for good, in a state that a
    session reaches. The long way would have taken it along. -/
theorem leaks_borrowed_frame : ∃ answers,
    Session.performAll 100 (.start .unlimited)
        [.global "g", .child "g" "c", .weaken "c" "w",
          .evaluate "c" "define(f, func(f))" (some "v"), .child "g" "d",
          .define "d" "x" (.stored "v"), .forget "v", .drop "c"] =
      .ok (Session.borrowed, answers) ∧
    Handle Session.borrowed.heap 3 [0, 0] [] ∧ Session.borrowed.heap.holders 3 = 1 ∧
    (Session.borrowed.heap.release 3).frame? 1 ≠ (Session.borrowed.heap.collect 3).frame? 1 ∧
    (Session.borrowed.heap.release 3).alive 1 = true ∧
    (Session.borrowed.heap.collect 3).alive 1 = false := by
  obtain ⟨answers, hp⟩ := Session.performAll_borrowed
  have hleft : (Session.borrowed.heap.release 3).frame? 1 =
    some ⟨[("f", .closure 2)], some 0, false⟩ := rfl
  have hgone : (Session.borrowed.heap.collect 3).frame? 1 = none := rfl
  have hne : (Session.borrowed.heap.release 3).frame? 1 ≠
      (Session.borrowed.heap.collect 3).frame? 1 := by
    rw [hleft, hgone]
    exact Option.some_ne_none _
  exact ⟨answers, hp, Handle.borrowed, rfl, hne, rfl, rfl⟩

end ApplyLang
