import ApplyLang.Fault

/-!
# Notices

What a report has to say about a fault: a title, the place that it is about, and labels for
stretches of the source.

Places are counted in characters. The places of a fault are byte positions and are taken over as
they are, so after characters of more than one byte a report points further right than the fault.

* `Fault.notice` — the notice of each fault.
-/

namespace ApplyLang

namespace Report

/-- A stretch of the source with something to say about it. -/
structure Label where
  start : Nat
  stop : Nat
  message : String
  deriving DecidableEq, Repr

namespace Label

/-- A label for a span. -/
def ofSpan (s : Span) (message : String) : Label :=
  ⟨s.start, s.stop, message⟩

/-- The last character of the stretch; its start if it is empty. -/
def last (l : Label) : Nat :=
  max (l.stop - 1) l.start

/-- Whether the stretch has this character. -/
def covers (l : Label) (place : Nat) : Bool :=
  l.start ≤ place && place < l.stop

end Label

/-- What a report says. -/
structure Notice where
  title : String
  location : Nat
  labels : List Label
  deriving DecidableEq, Repr

/-- Corner brackets around the main message. -/
def bracketed (message : String) : String :=
  "「" ++ message ++ "」"

/-- A notice about one span. -/
def Notice.single (title : String) (s : Span) (message : String) : Notice :=
  ⟨title, s.start, [.ofSpan s (bracketed message)]⟩

/-- A notice about a call and a part of it. -/
def Notice.double (title : String) (call : Span) (message : String) (part : Span)
    (remark : String) : Notice :=
  ⟨title, call.start, [.ofSpan call (bracketed message), .ofSpan part remark]⟩

end Report

open Report in
/-- The notice of a fault. -/
def Fault.notice : Fault → Notice
  | parsing s message => .single "atom.read.tape_err" s message
  | unbound s name => .single "atom.eval.lookup_err" s ("no frame binds " ++ ticked name)
  | misuse s form expected =>
    .single "atom.eval.form_err" s (ticked form ++ " expects " ++ expected)
  | notCallable outer operator found =>
    .double "atom.eval.proc_err" outer "can only apply arguments to functions" operator
      ("expected type Func but this is type " ++ found)
  | arity s name expected found =>
    .single "atom.eval.arity_err" s (arityText name expected found)
  | mismatch argument function found valid =>
    .double "atom.eval.pat_err" function "argument type is invalid" argument
      ("expected one of " ++ alternatives valid ++ " but this is type " ++ found)
  | outOfRange s index length => .single "atom.eval.index_err" s (indexText index length)
  | isSealed s name => .single "atom.eval.sealed_err" s (ticked name ++ " is a global binding")
  | output s message => .single "atom.eval.output_err" s message

end ApplyLang
