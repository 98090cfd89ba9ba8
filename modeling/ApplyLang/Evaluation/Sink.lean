import ApplyLang.Text.Bytes

/-!
# Output

Where a program prints to. A sink may have room for a limited number of bytes; it takes bytes one by
one as they come, and once it is full every further byte is refused.

* `Sink.write` — offers bytes to a sink.
-/

namespace ApplyLang

/-- The bytes taken so far, the room that is left if it is limited, and what a full sink says. -/
structure Sink where
  taken : Array UInt8
  room : Option Nat
  refusal : String
  deriving DecidableEq, Repr

namespace Sink

/-- A sink that takes everything. -/
def unlimited : Sink := ⟨#[], none, ""⟩

/-- A sink for a number of bytes. -/
def limited (room : Nat) (refusal : String) : Sink := ⟨#[], some room, refusal⟩

/-- Offers bytes; says whether all of them were taken. -/
def write (s : Sink) (bytes : List UInt8) : Sink × Bool :=
  match s.room with
  | none => ({ s with taken := s.taken ++ bytes }, true)
  | some room =>
    ({ s with taken := s.taken ++ bytes.take room, room := some (room - bytes.length) },
      bytes.length ≤ room)

/-- The text taken after the first bytes. -/
def textFrom (s : Sink) (start : Nat) : String :=
  String.ofList (Text.decode (s.taken.toList.drop start))

/-- The text taken. -/
def text (s : Sink) : String :=
  s.textFrom 0

/-- What is taken is a beginning of what is offered, and all of it unless the sink refuses. -/
theorem toList_taken_write (s : Sink) (bytes : List UInt8) :
    ∃ n, (s.write bytes).1.taken.toList = s.taken.toList ++ bytes.take n ∧
      ((s.write bytes).2 = true → bytes.length ≤ n) := by
  unfold write
  cases s.room with
  | none => exact ⟨bytes.length, by simp⟩
  | some room => exact ⟨room, by simp⟩

end Sink

end ApplyLang
