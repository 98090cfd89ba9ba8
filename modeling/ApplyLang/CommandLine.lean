import ApplyLang.Evaluation.Program
import ApplyLang.Report.Render

/-!
# The command line

A program is given as an argument, or as the name of a file with the flag `-f`. It is run, and with
the flag `-p` its value is printed too. Faults are reported on the error output.

* `Options.ofArguments?` — what the arguments ask for.
* `script` — the program, from the argument or from the file.
* `conclusion` — what is written when the program has ended, and the exit code.
* `execute?` — all of it.
-/

namespace ApplyLang.CommandLine

/-- What the arguments ask for. -/
structure Options where
  /-- The argument is the name of a file. -/
  file : Bool
  /-- The value of the program is to be printed. -/
  printResult : Bool
  /-- The argument that is not a flag. -/
  contents : Option String
  deriving DecidableEq, Repr

namespace Options

/-- Nothing asked for yet. -/
def initial : Options := ⟨false, false, none⟩

/-- Sets the flag of a file name, which may be given once. -/
def setFile (o : Options) : Option Options :=
  if o.file then none else some { o with file := true }

/-- Sets the flag to print the value, which may be given once. -/
def setPrintResult (o : Options) : Option Options :=
  if o.printResult then none else some { o with printResult := true }

/-- Takes an argument that is not a flag, which may be given once. -/
def setContents (o : Options) (text : String) : Option Options :=
  if o.contents.isSome then none else some { o with contents := some text }

/-- The letters after a single dash. -/
def addLetters (o : Options) : List Char → Option Options
  | [] => some o
  | 'f' :: rest => o.setFile.bind fun o => o.addLetters rest
  | 'p' :: rest => o.setPrintResult.bind fun o => o.addLetters rest
  | _ :: _ => none

/-- A flag or the program. A dash alone is not a flag. -/
def add (o : Options) (argument : String) : Option Options :=
  match argument.toList with
  | '-' :: '-' :: name =>
    if name = "file".toList then o.setFile
    else if name = "print-result".toList then o.setPrintResult
    else none
  | '-' :: c :: letters => o.addLetters (c :: letters)
  | _ => o.setContents argument

/-- Reads arguments in order. After two dashes there are no more flags. -/
def addAll (o : Options) : List String → Option Options
  | [] => some o
  | argument :: rest =>
    if argument = "--" then rest.foldlM setContents o
    else (o.add argument).bind fun o => o.addAll rest

/-- What the arguments ask for, if they make sense and name a program. -/
def ofArguments? (arguments : List String) : Option Options :=
  (initial.addAll arguments).bind fun o => if o.contents.isSome then some o else none

end Options

/-- What reading a file gives. -/
inductive Reading
  | bytes (content : ByteArray)
  | missing
  | failed (reason : String)

/-- A file as text, or why it cannot be read. -/
def Reading.text : Reading → Except String String
  | bytes content =>
    match String.fromUTF8? content with
    | some text => .ok text
    | none => .error "stream did not contain valid UTF-8"
  | missing => .error "No such file or directory (os error 2)"
  | failed reason => .error reason

/-- How an invocation ends: its exit code, and what it writes. What it writes to the error output is
    not fixed where the invocation makes no sense or its report cannot be drawn. -/
structure Outcome where
  code : Nat
  output : List UInt8
  errors : Option String

/-- The arguments make no sense. -/
def usageOutcome : Outcome := ⟨2, [], none⟩

/-- The program, or why its file cannot be read. -/
def script (o : Options) (reading : String → Reading) : Except Outcome String :=
  let contents := o.contents.getD ""
  if o.file then
    match (reading contents).text with
    | .ok text => .ok text
    | .error reason =>
      let message := "Failed to read the input file '" ++ contents ++ "': " ++ reason ++ "\n"
      .error ⟨1, [], some message⟩
  else .ok contents

/-- What an invocation writes after the program has ended. -/
def conclusion (o : Options) (source : String) (h : Heap) (result : Except Fault Value) : Outcome :=
  match result with
  | .ok v => ⟨0, if o.printResult then Builtin.lineOf h v else [], some ""⟩
  | .error f =>
    match f.report? source with
    | some report => ⟨1, [], some report⟩
    | none => ⟨101, [], none⟩

/-- Runs an invocation. -/
def execute? (fuel : Nat) (arguments : List String) (reading : String → Reading) :
    Option Outcome :=
  match Options.ofArguments? arguments with
  | none => some usageOutcome
  | some o =>
    match script o reading with
    | .error outcome => some outcome
    | .ok source =>
      (Program.run? fuel .initial .unlimited source).map fun ended =>
        let last := conclusion o source ended.heap ended.result
        { last with output := ended.out.taken.toList ++ last.output }

end ApplyLang.CommandLine
