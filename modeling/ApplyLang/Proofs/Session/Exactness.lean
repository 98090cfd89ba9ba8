import ApplyLang.Proofs.Memory.Tracing
import ApplyLang.Proofs.Session.Reachability

/-!
# What a release does

Giving up a handle to a frame that has other holders either drops the handle and nothing else, or
takes every frame with it that nobody can reach any more.

* `Handle` — a handle that somebody holds at some moment of a session, with everything else that is
  held at that moment.
* `Handle.release_exact` — which of the two happens, and what goes.
-/

namespace ApplyLang

/-- Somebody holds a handle to the frame `r` in memory `h`, and `frames` and `values` are all that is
    held besides. Between steps a session holds what is in its tables and the process holds the
    global frame; during an evaluation the machine holds frames and values as well. -/
inductive Handle : Heap → Ref → List Ref → List Value → Prop
  | between {s : Session} {r : Ref} {frames : List Ref} (hs : s.Reached)
      (hr : s.frames.Perm (r :: frames)) : Handle s.heap r frames s.kept
  | during {s : Session} {m : Machine} {r : Ref} {frames : List Ref} (hs : s.Reached)
      (hm : s.Evaluating m) (hr : (m.frames ++ s.frames).Perm (r :: frames)) :
      Handle m.heap r frames (m.control.values ++ (m.kept ++ s.kept))

namespace Handle

variable {h : Heap} {r : Ref} {frames : List Ref} {values : List Value}

theorem serves (hh : Handle h r frames values) : h.Serves (r :: frames) values := by
  cases hh with
  | between hs hr => exact hs.sound.serves.perm hr.symm (.refl _)
  | during hs hm hr => exact (hs.sound.evaluating hm).holds.serves.perm hr.symm (.refl _)

/-- What an empty frame was is gone for good. -/
theorem not_alive_of_lost (hh : Handle h r frames values) (hshared : h.holders r ≠ 1) {n : Ref}
    (hn : n ∈ h.lost r) {k : Heap} (hk : (h.release r).Evolves k) : k.alive n = false := by
  have hr := hh.serves.not_rescued_of_mem_lost hn
  obtain ⟨hreach, hnot, f, hf, -⟩ := (hh.serves.mem_lost_iff_not_rescued hr).mp hn
  have hsize : (h.release r).cells.size = h.cells.size :=
    (Heap.Balanced.release_shrinks hh.serves.balanced).size_eq
  apply hk.not_alive
  · rw [hsize]
    exact Heap.lt_size_of_object? hf
  · exact hh.serves.not_alive_of_not_rescued hshared hr hreach hnot

/-- Releasing a handle that is not the only one. If a member of the survey that is held besides
    reaches the frame, only the handle goes. Otherwise all unsealed frames of the survey that no such
    member reaches die, and whatever frame is left has the bindings that it had. In no case can a weak
    handle bring back a frame that has been emptied, whatever becomes of memory later on. -/
theorem release_exact (hh : Handle h r frames values) (hshared : h.holders r ≠ 1) :
    (h.Rescued r frames values r → h.release r = h.discard [r]) ∧
      (¬ h.Rescued r frames values r →
        (∀ n f, h.Reaches r n → h.object? n = some (.frame f) → f.isSealed = false →
          ¬ h.Rescued r frames values n → (h.release r).alive n = false) ∧
        ∀ n f, (h.release r).object? n = some (.frame f) → h.object? n = some (.frame f)) ∧
      ∀ n ∈ h.lost r, ∀ s : Session, (h.release r).Evolves s.heap →
        ∀ (fuel : ℕ) (weak into : String), s.weaks.get weak = .ok n →
          s.perform fuel (.strengthen weak into) = .ok (s, .alive false) := by
  refine ⟨hh.serves.release_of_rescued hshared, fun hr => ⟨?_, ?_⟩, ?_⟩
  · intro n f hreach _ _ hnot
    exact hh.serves.not_alive_of_not_rescued hshared hr hreach hnot
  · intro n f hf
    exact (Heap.Balanced.release_shrinks hh.serves.balanced).object n _ hf
  · intro n hn s hs fuel weak into hweak
    have hdead := hh.not_alive_of_lost hshared hn hs
    simp only [Session.perform, hweak]
    show (if s.heap.alive n = true then _ else _) = _
    rw [hdead]
    rfl

end Handle

/-- A frame that a function bound in it keeps alive goes with the handle of its owner. -/
theorem releases_own_function : ∃ s answers,
    Session.performAll 100 (.start .unlimited)
        [.global "g", .child "g" "c", .evaluate "c" "define(f, func(f))" none] =
      .ok (s, answers) ∧
    Handle s.heap 1 [0, 0] [] ∧ s.heap.holders 1 = 2 ∧ ¬ s.heap.Rescued 1 [0, 0] [] 1 ∧
    (s.heap.release 1).alive 1 = false := by
  have hp : Session.performAll 100 (.start .unlimited)
      [.global "g", .child "g" "c", .evaluate "c" "define(f, func(f))" none] = .ok (_, _) := rfl
  have hheld : [0, 1, 0].Perm [1, 0, 0] := by decide
  have hh := Handle.between ⟨_, Session.becomes_performAll hp⟩ hheld
  have hlost : ∀ {h : Heap}, Handle h 1 [0, 0] [] → ¬ Survey.Marked (h.survey 1).live 1 →
      ¬ h.Rescued 1 [0, 0] [] 1 := by
    intro h hh hmark hr
    obtain ⟨visited, hc⟩ := Heap.survey_complete hh.serves.balanced.valid
      (hh.serves.alive_of_mem_frames List.mem_cons_self)
    exact hmark ((hh.serves.marked_iff_rescued hc .refl).mpr hr)
  have hr := hlost hh (by unfold Survey.Marked; decide)
  refine ⟨_, _, hp, hh, rfl, hr, ?_⟩
  exact ((Handle.release_exact hh (by decide)).2.1 hr).1 1 _ .refl rfl rfl hr

end ApplyLang
