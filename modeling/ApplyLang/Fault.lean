import ApplyLang.Source.Span

/-!
# Faults

Everything a program can go wrong with, with the places in the source that it is about.

* `Fault` — the causes.
* `Fault.kind` — their coarse classification.
* `Fault.message` — what is said about a fault in one line.
-/

namespace ApplyLang

/-- Why a program failed (`AtomError`). -/
inductive Fault
  /-- The text is not a program. -/
  | parsing (place : Span) (message : String)
  /-- No frame in reach binds the name. -/
  | unbound (place : Span) (name : String)
  /-- A form is written with the wrong parts. -/
  | misuse (place : Span) (form : String) (expected : String)
  /-- The operator of an application is not a function. -/
  | notCallable (outer operator : Span) (found : String)
  /-- A function is applied to the wrong number of arguments. -/
  | arity (place : Span) (name : String) (expected found : Nat)
  /-- A built-in function is applied to a value of the wrong type. -/
  | mismatch (argument function : Span) (found : String) (valid : List String)
  /-- No item has this index. -/
  | outOfRange (place : Span) (index : String) (length : Nat)
  /-- The name belongs to a sealed frame. -/
  | isSealed (place : Span) (name : String)
  /-- The output could not be written. -/
  | output (place : Span) (message : String)
  deriving DecidableEq, Repr

namespace Fault

/-- Coarse classification of faults (`ErrorKind`). -/
inductive Kind
  | parse
  | form
  | unbound
  | type
  deriving DecidableEq, Repr

/-- Written form of a kind. -/
def Kind.text : Kind → String
  | parse => "Parse"
  | form => "Syntax"
  | unbound => "Unbound"
  | type => "Type"

/-- Kind of a fault: whatever goes wrong while values are applied is a fault of types. -/
def kind : Fault → Kind
  | parsing .. => .parse
  | misuse .. => .form
  | .unbound .. => .unbound
  | _ => .type

/-- A name as it stands in a message. -/
def ticked (name : String) : String :=
  "`" ++ name ++ "`"

/-- Types in a message, between brackets. -/
def alternatives (types : List String) : String :=
  "(" ++ ", ".intercalate types ++ ")"

/-- The arity rule that was broken. -/
def arityText (name : String) (expected found : Nat) : String :=
  ticked name ++ " takes " ++ toString expected ++ " argument(s) but got " ++ toString found

/-- The index that was out of range. -/
def indexText (index : String) (length : Nat) : String :=
  "index " ++ index ++ " is out of range for length " ++ toString length

/-- What is wrong, without saying in which phase. -/
def detail : Fault → String
  | parsing s message => message ++ " at " ++ s.text
  | .unbound _ name => "unbound reference " ++ ticked name
  | misuse _ form expected => "bad use of " ++ ticked form ++ ": expected " ++ expected
  | notCallable _ _ found => "cannot apply a value of type " ++ found
  | arity _ name expected found => arityText name expected found
  | mismatch _ _ found valid =>
    "expected one of " ++ alternatives valid ++ " but got " ++ found
  | outOfRange _ index length => indexText index length
  | isSealed _ name => ticked name ++ " is a global and cannot be set"
  | output _ message => "could not write output: " ++ message

/-- What is said about a fault in one line. -/
def message (f : Fault) : String :=
  match f with
  | parsing .. => "parsing failed: " ++ f.detail
  | _ => "interpreting failed: " ++ f.detail

end Fault

end ApplyLang
