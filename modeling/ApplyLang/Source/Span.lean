/-!
# Spans

A span is a range of byte positions of a source text, from `start` up to but not including `stop`.

* `Span.join` — the smallest span that covers two spans; `Span.join_eq` — of two spans in order it
  reaches from the start of the one to the end of the other.
-/

namespace ApplyLang

/-- A range of byte positions (`Range`). -/
structure Span where
  start : Nat
  stop : Nat
  deriving DecidableEq, Repr

namespace Span

/-- The smallest span that covers both (`Range::join`). -/
def join (a b : Span) : Span :=
  ⟨min a.start b.start, max a.stop b.stop⟩

/-- Written form, as in `3..7`. -/
def text (s : Span) : String :=
  toString s.start ++ ".." ++ toString s.stop

theorem join_eq {a b : Span} (hstart : a.start ≤ b.start) (hstop : a.stop ≤ b.stop) :
    a.join b = ⟨a.start, b.stop⟩ := by
  rw [join, Nat.min_eq_left hstart, Nat.max_eq_right hstop]

end Span

end ApplyLang
