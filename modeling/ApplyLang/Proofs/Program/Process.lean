import ApplyLang.Proofs.Evaluation.Confinement
import ApplyLang.Proofs.Evaluation.Ending
import ApplyLang.Proofs.Session.Soundness

/-!
# Programs one after the other

A process runs programs in turn, all of them on one memory. A result that is a value stays with
whoever ran the program, who drops it at some time or never.

* `Program.After` — the memories that a process can have between two programs.
* `Program.After.settled` — such a memory serves the results that are kept, and the global frame is
  what it was in the beginning.
-/

namespace ApplyLang

/-- Memory between two programs: it serves the global frame and the results that are kept. -/
structure Heap.Settled (h : Heap) (kept : List Value) : Prop where
  serves : h.Serves [Heap.global] kept
  global : h.object? Heap.global = some (.frame Heap.globalFrame)

namespace Program

/-- Memory of a process in which programs have run and ended, with the results that are kept. -/
inductive After : Heap → List Value → Prop
  | fresh : After Heap.initial []
  | run {h : Heap} {kept : List Value} {fuel : ℕ} {out : Sink} {source : String} {ended : Ended}
      (ha : After h kept) (he : run? fuel h out source = some ended) :
      After ended.heap (resultValues ended.result ++ kept)
  | drop {h : Heap} {kept rest : List Value} {v : Value} (ha : After h kept)
      (hv : kept.Perm (v :: rest)) : After (h.discardValues [v]) rest

end Program

namespace Heap.Settled

variable {h : Heap} {kept : List Value}

/-- What a machine leaves is settled if the global frame is as it was. -/
theorem of_serves {w : Realm} (hs : h.Serves [Heap.global] kept) (hw : h.Within w) :
    h.Settled kept := by
  obtain ⟨f, hf⟩ := hs.frame _ List.mem_cons_self
  refine ⟨hs, ?_⟩
  rw [hf, hw.global _ hf]

theorem sound (hs : h.Settled kept) (out : Sink) (node : Node) :
    (Machine.ofProgram h out node).Sound [Heap.global] kept :=
  Machine.ofProgram_sound hs.serves List.mem_cons_self out node

theorem finish? (hs : h.Settled kept) {out : Sink} {node : Node} {fuel : ℕ} {ended : Ended}
    (he : (Machine.ofProgram h out node).finish? fuel = some ended) :
    ended.heap.Settled (resultValues ended.result ++ kept) := by
  have hsound := hs.sound out node
  have hserves := hsound.finish? he
  have hwithin := (Machine.ofProgram_within hs.global out node).run fuel hsound
  obtain ⟨result, -, rfl⟩ := Option.map_eq_some_iff.mp he
  exact of_serves hserves hwithin.heap

/-- A program fails over its own nodes. -/
theorem about (hs : h.Settled kept) {out : Sink} {node : Node} {ended : Ended} {f : Fault}
    (he : (Machine.ofProgram h out node).Finishes ended) (hf : ended.result = .error f) :
    f.About node.Has := by
  obtain ⟨fuel, he⟩ := Machine.finishes_iff.mp he
  have hwithin := (Machine.ofProgram_within hs.global out node).run fuel (hs.sound out node)
  obtain ⟨result, hresult, rfl⟩ := Option.map_eq_some_iff.mp he
  cases hf
  have hcontrol := hwithin.control
  rw [Machine.control_of_error hresult] at hcontrol
  exact hcontrol

theorem run? (hs : h.Settled kept) {fuel : ℕ} {out : Sink} {source : String} {ended : Ended}
    (he : Program.run? fuel h out source = some ended) :
    ended.heap.Settled (resultValues ended.result ++ kept) := by
  rcases Program.run?_eq_some_iff.mp he with ⟨e, -, rfl⟩ | ⟨node, -, hf⟩
  · exact hs
  · exact hs.finish? hf

theorem drop (hs : h.Settled kept) {v : Value} {rest : List Value} (hv : kept.Perm (v :: rest)) :
    (h.discardValues [v]).Settled rest := by
  have hserves := (hs.serves.perm (.refl _) hv.symm).discardValue
  obtain ⟨f, hf⟩ := hserves.frame _ List.mem_cons_self
  have hold := (discardValues_shrinks h [v]).object _ _ hf
  exact ⟨hserves, by rw [hf, ← hold, hs.global]⟩

end Heap.Settled

theorem Program.After.settled {h : Heap} {kept : List Value} (ha : After h kept) :
    h.Settled kept := by
  induction ha with
  | fresh => exact ⟨(Session.start_sound .unlimited).serves, rfl⟩
  | run _ he ih => exact ih.run? he
  | drop _ hv ih => exact ih.drop hv

end ApplyLang
