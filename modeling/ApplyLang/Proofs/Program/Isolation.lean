import ApplyLang.Proofs.Program.Process
import ApplyLang.Proofs.Reference.Simulation
import ApplyLang.Proofs.Reference.Sessions

/-!
# Programs do not see each other

All programs of a process share one memory, in which earlier programs may have left functions that
escaped and cycles that nobody collects. None of this can be seen: a program prints the same and
ends in the same way as in a fresh process, and it ends if and only if it ends there.

* `Heap.displaced` — the reference that memory gives out where fresh memory gives out another one.
* `Ended.shown` — what is seen of a program that has ended.
* `Program.After.shown_eq_fresh` — the result.

The proof goes by way of evaluation without counting on the used memory, which takes the same steps
as evaluation with counting on fresh memory, up to references.
-/

namespace ApplyLang

/-! ## Used memory and fresh memory -/

namespace Heap

/-- The global frame is where it is in fresh memory, and all that is new comes after what has been
    there before. -/
def displaced (h : Heap) (r : Ref) : Ref :=
  if r = Heap.global then r else h.cells.size - 1 + r

theorem displaced_global (h : Heap) : h.displaced Heap.global = Heap.global :=
  if_pos rfl

theorem displaced_succ (h : Heap) (r : ℕ) : h.displaced (r + 1) = h.cells.size - 1 + (r + 1) :=
  if_neg (Nat.succ_ne_zero r)

theorem displaced_injective (h : Heap) : Function.Injective h.displaced := by
  intro r s heq
  rcases r with _ | r <;> rcases s with _ | s
  · rfl
  · rw [displaced_succ] at heq
    exact absurd heq (by show (0 : ℕ) ≠ _; omega)
  · rw [displaced_succ] at heq
    exact absurd heq (by show _ ≠ (0 : ℕ); omega)
  · rw [displaced_succ, displaced_succ] at heq
    exact Nat.add_left_cancel heq

theorem rename_globalFrame (ρ : Ref → Ref) : globalFrame.rename ρ = globalFrame := by
  simp [globalFrame, Frame.rename, globalBindings, Builtin.all, Value.rename]

/-- Used memory has all that fresh memory has. -/
theorem Settled.renames {h : Heap} {kept : List Value} (hs : h.Settled kept) :
    h.Renames h.displaced initial := by
  have hpos : 0 < h.cells.size := lt_size_of_object? hs.global
  refine ⟨hpos, fun i => ?_, fun r o ho => ?_⟩
  · show h.displaced (1 + i) = h.cells.size + i
    rw [Nat.add_comm 1 i, displaced_succ]
    show h.cells.size - 1 + (i + 1) = h.cells.size + i
    omega
  · have hr : r = Heap.global := Nat.lt_one_iff.mp (lt_size_of_object? ho)
    subst hr
    cases ho
    rw [displaced_global, hs.global]
    exact congrArg (some ∘ Object.frame) (rename_globalFrame h.displaced).symm

end Heap

/-! ## Programs -/

/-- What is seen of a program that has ended: what its sink has taken, and the fault, or the type and
    the printed form of its value. -/
def Ended.shown (ended : Ended) : Sink × Except Fault Shown :=
  (ended.out, ended.result.map (Session.shown ended.heap))

theorem Ended.shown_of_seen (ended : Ended) :
    ended.shown = (ended.seen.1, ended.seen.2.map Prod.snd) := by
  obtain ⟨h, out, result⟩ := ended
  cases result <;> rfl

theorem Ended.Mirrors.shown_eq {ρ : Ref → Ref} {n m : Ended} (hn : n.Mirrors ρ m)
    {frames : List Ref} {values : List Value}
    (hm : m.heap.Serves frames (resultValues m.result ++ values)) : n.shown = m.shown := by
  obtain ⟨hk, hout, hresult⟩ := hn
  rw [Ended.shown, hout, hresult, Ended.shown]
  obtain ⟨h, out, result⟩ := m
  cases result with
  | error f => rfl
  | ok v =>
    have hv : v.ValidIn h := hm.value v List.mem_cons_self
    simp only [Except.map, Session.shown, Value.typeName_rename, hk.display_eq hm.balanced hv]

namespace Heap.Settled

variable {h : Heap} {kept : List Value}

/-- Without counting, a program does on used memory what it does on fresh memory. -/
theorem reference_mirrors (hs : h.Settled kept) (fuel : ℕ) (out : Sink) (source : String) :
    Option.Rel (Ended.Mirrors h.displaced) (Reference.run? fuel h out source)
      (Program.run? fuel Heap.initial out source) := by
  unfold Reference.run? Program.run? Program.start
  cases parse source with
  | error e => exact .some ⟨hs.renames, rfl, rfl⟩
  | ok node =>
    have hfresh := Program.After.fresh.settled.sound out node
    obtain ⟨hheap, href⟩ := hs.renames.child Heap.global
    rw [displaced_global] at hheap href
    have hstart : Machine.Mirrors h.displaced (Reference.ofProgram h out node)
        (Machine.ofProgram initial out node) :=
      ⟨hheap, rfl, congrArg (Control.eval node) href,
        congrArg (fun r => [Pending.leave r []]) href⟩
    exact hstart.finish? h.displaced_injective hfresh fuel

theorem shown_eq_reference (hs : h.Settled kept) (fuel : ℕ) (out : Sink) (source : String) :
    (Program.run? fuel h out source).map Ended.shown =
      (Reference.run? fuel h out source).map Ended.shown := by
  have hrel := Session.run?_tracks hs.serves List.mem_cons_self (.refl h) fuel out source
  generalize Reference.run? fuel h out source = n at hrel ⊢
  generalize hm : Program.run? fuel h out source = m at hrel ⊢
  cases hrel with
  | none => rfl
  | some hended =>
    have hseen := hended.seen_eq (hs.run? hm).serves
    simp only [Option.map_some, Ended.shown_of_seen, hseen]

theorem reference_shown_eq_fresh (hs : h.Settled kept) (fuel : ℕ) (out : Sink) (source : String) :
    (Reference.run? fuel h out source).map Ended.shown =
      (Program.run? fuel Heap.initial out source).map Ended.shown := by
  have hrel := hs.reference_mirrors fuel out source
  generalize Reference.run? fuel h out source = n at hrel ⊢
  generalize hm : Program.run? fuel Heap.initial out source = m at hrel ⊢
  cases hrel with
  | none => rfl
  | some hended =>
    exact congrArg some (hended.shown_eq (Program.After.fresh.settled.run? hm).serves)

end Heap.Settled

/-- Whatever programs have run before, and whichever of their results are kept: with any sink a
    program ends after the same number of steps as in a fresh process, or in both cases never. It
    leaves the same bytes in the sink, and ends in the same fault or in a value that looks the
    same. -/
theorem Program.After.shown_eq_fresh {h : Heap} {kept : List Value} (ha : After h kept) (fuel : ℕ)
    (out : Sink) (source : String) :
    (run? fuel h out source).map Ended.shown =
      (run? fuel Heap.initial out source).map Ended.shown :=
  calc (run? fuel h out source).map Ended.shown
      = (Reference.run? fuel h out source).map Ended.shown :=
        ha.settled.shown_eq_reference fuel out source
    _ = (run? fuel Heap.initial out source).map Ended.shown :=
        ha.settled.reference_shown_eq_fresh fuel out source

/-- A program that returns a function bound where it was made, whose frame stays alive for as long as
    the result is kept. The next program uses the same name. -/
theorem Program.shown_after_escape : ∃ h kept, After h kept ∧ kept ≠ [] ∧ h.alive 1 = true ∧
    (run? 100 h .unlimited "do(define(f, true), print(f))").map Ended.shown =
      some (⟨"true\n".toUTF8.data, none, ""⟩, .ok ⟨"Bool", "true"⟩) := by
  have hrun : run? 100 Heap.initial .unlimited "define(f, func(x, f(x)))" = some (_ : Ended) := rfl
  have hfresh : (run? 100 Heap.initial .unlimited "do(define(f, true), print(f))").map Ended.shown =
      some (⟨"true\n".toUTF8.data, none, ""⟩, .ok ⟨"Bool", "true"⟩) := by decide +kernel
  refine ⟨_, _, .run .fresh hrun, List.cons_ne_nil _ _, rfl, ?_⟩
  exact (After.shown_eq_fresh (.run .fresh hrun) 100 .unlimited _).trans hfresh

end ApplyLang
