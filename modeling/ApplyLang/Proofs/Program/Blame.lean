import ApplyLang.Proofs.Program.Process
import ApplyLang.Proofs.Source.Spans

/-!
# What a fault points at

A program that was read and then fails names places of its own text. Functions are made and called
in different places and built-in functions see no node at all, but whatever an evaluation meets is a
node of its program (`Fault.About`), and every node stands in the text (`covers_of_has`).

* `Fault.places` — the spans in a fault.
* `Program.After.blames_source` — they are the spans of nodes, and which nodes these are.
-/

namespace ApplyLang

open ApplyLang.Text (byteLength byteLength_append)

/-- The places that a fault names. -/
def Fault.places : Fault → List Span
  | parsing place _ | unbound place _ | misuse place _ _ | arity place _ _ _ | outOfRange place _ _
  | isSealed place _ | output place _ => [place]
  | notCallable outer operator _ => [outer, operator]
  | mismatch argument function _ _ => [argument, function]

/-- The places that a fault names are those of the nodes it is about. -/
theorem Fault.About.exists_node {f : Fault} {program : Node} (hf : f.About program.Has) :
    ∀ s ∈ f.places, ∃ n, program.Has n ∧ n.span = s := by
  cases f with
  | parsing => exact hf.elim
  | unbound place name | isSealed place name => simpa [places] using ⟨_, hf, rfl⟩
  | misuse place form expected =>
    obtain ⟨operator, arguments, span, hn, -, hplace⟩ := hf
    rcases hplace with rfl | ⟨n, hmem, rfl⟩
    · simpa [places] using ⟨_, hn, rfl⟩
    · simpa [places] using ⟨n, .part hn (List.mem_cons_of_mem _ hmem), rfl⟩
  | notCallable outer operator found =>
    obtain ⟨node, arguments, hn, rfl⟩ := hf
    simpa [places] using ⟨⟨_, hn, rfl⟩, ⟨node, .part hn List.mem_cons_self, rfl⟩⟩
  | arity | outOfRange | output =>
    obtain ⟨operator, arguments, call, hn, rfl⟩ := hf
    simpa [places] using ⟨_, hn, rfl⟩
  | mismatch =>
    obtain ⟨operator, arguments, call, hn, rfl, rfl⟩ := hf
    simpa [places] using ⟨_, hn, rfl⟩

theorem Span.Covers.stop_le {s : Span} {text piece : List Char} (hs : s.Covers text piece) :
    s.stop ≤ byteLength text := by
  obtain ⟨before, after, rfl, -, hstop⟩ := hs
  rw [hstop, byteLength_append, byteLength_append]
  omega

namespace Program

variable {h : Heap} {kept : List Value} {out : Sink} {source : String} {ended : Ended} {f : Fault}

/-- A program that fails has been read, and fails over its own nodes. -/
theorem After.about (ha : After h kept) (he : Ends h out source ended)
    (hf : ended.result = .error f) (hk : f.kind ≠ .parse) :
    ∃ program, parse source = .ok program ∧ f.About program.Has := by
  rcases ends_iff.mp he with ⟨e, -, rfl⟩ | ⟨program, hp, hend⟩
  · cases hf
    exact absurd rfl hk
  · exact ⟨program, hp, ha.settled.about hend hf⟩

/-- In whatever process a program fails, and with whatever sink: the fault is about nodes of the
    program, each place it names is the span of one of them and covers characters of the text, and
    a name that means nothing or cannot be written is what stands there. -/
theorem After.blames_source (ha : After h kept) (he : Ends h out source ended)
    (hf : ended.result = .error f) (hk : f.kind ≠ .parse) :
    ∃ program, parse source = .ok program ∧ f.About program.Has ∧
      (∀ s ∈ f.places, (∃ n, program.Has n ∧ n.span = s) ∧ s.start < s.stop ∧
        s.stop ≤ byteLength source.toList ∧ ∃ piece, s.Covers source.toList piece) ∧
      ∀ place name, f = .unbound place name ∨ f = .isSealed place name →
        place.Covers source.toList name.toList := by
  obtain ⟨program, hp, habout⟩ := ha.about he hf hk
  refine ⟨program, hp, habout, fun s hs => ?_, fun place name hname => ?_⟩
  · obtain ⟨n, hn, rfl⟩ := habout.exists_node s hs
    obtain ⟨hpos, piece, hcovers⟩ := covers_of_has hp hn
    exact ⟨⟨n, hn, rfl⟩, hpos, hcovers.stop_le, piece, hcovers⟩
  · rcases hname with rfl | rfl
    · exact covers_name hp habout
    · exact covers_name hp habout

/-- A function that is called by another one, far from the name in its body that means nothing. -/
theorem blames_source_of_body :
    let source := "do(define(é, func(ü)), define(g, func(k, k())), g(é))"
    After Heap.initial [] ∧ ∃ ended, Ends Heap.initial .unlimited source ended ∧
      ended.result = .error (.unbound ⟨19, 21⟩ "ü") ∧
      (⟨19, 21⟩ : Span).Covers source.toList "ü".toList := by
  obtain ⟨ended, hrun, hresult⟩ : ∃ ended, run? 100 Heap.initial .unlimited
      "do(define(é, func(ü)), define(g, func(k, k())), g(é))" = some ended ∧
      ended.result = .error (.unbound ⟨19, 21⟩ "ü") :=
    ⟨_, rfl, rfl⟩
  obtain ⟨program, -, -, -, hname⟩ :=
    After.blames_source .fresh ⟨100, hrun⟩ hresult (by decide)
  exact ⟨.fresh, ended, ⟨100, hrun⟩, hresult, hname _ _ (.inl rfl)⟩

end Program

end ApplyLang
