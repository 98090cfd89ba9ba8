import ApplyLang.CommandLine

/-!
# The program

Runs the command line: reads the file if there is one, writes what the program prints as it goes,
and ends with the exit code.
-/

namespace ApplyLang.Main

open CommandLine

/-- What is said when the arguments make no sense. -/
def usage : String :=
  "Usage: [-f | --file] [-p | --print-result] [--] <CONTENTS>\n"

/-- Reads a file. -/
def readFile (name : String) : IO Reading := do
  try
    return .bytes (← IO.FS.readBinFile name)
  catch
    | .noFileOrDirectory .. => return .missing
    | e => return .failed e.toString

/-- Writes bytes to the output. -/
def writeBytes (bytes : Array UInt8) : IO Unit := do
  let out ← IO.getStdout
  out.write ⟨bytes⟩
  out.flush

/-- Runs a machine to its end and writes what it prints on the way. -/
partial def drive (m : Machine) : IO Machine := do
  let m := m.run 4096
  writeBytes m.out.taken
  let m := { m with out := .unlimited }
  if m.result?.isSome then return m else drive m

/-- Writes the last of an invocation. -/
def close (outcome : Outcome) : IO UInt32 := do
  writeBytes outcome.output.toArray
  match outcome.errors with
  | some text => (← IO.getStderr).putStr text
  | none => if outcome.code = 2 then (← IO.getStderr).putStr usage
  return UInt32.ofNat outcome.code

/-- Runs an invocation whose arguments make sense. -/
def invoke (o : Options) : IO UInt32 := do
  let reading ← if o.file then readFile (o.contents.getD "") else pure .missing
  match script o (fun _ => reading) with
  | .error outcome => close outcome
  | .ok source =>
    match Program.start .initial .unlimited source with
    | .error f => close (conclusion o source .initial (.error f))
    | .ok m =>
      let m ← drive m
      match m.result? with
      | some result => close (conclusion o source m.heap result)
      | none => return 1

end ApplyLang.Main

/-- Runs the command line. -/
def main (arguments : List String) : IO UInt32 :=
  match ApplyLang.CommandLine.Options.ofArguments? arguments with
  | some o => ApplyLang.Main.invoke o
  | none => ApplyLang.Main.close ApplyLang.CommandLine.usageOutcome
