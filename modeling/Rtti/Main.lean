import Rtti.CommandLine

/-!
# The program

The thin layer between the command line and the system: files are read,
lines are read and written.  Processes are not opened.
-/

open Rtti CommandLine

/-- The contents of a file, if it can be read. -/
def readFile? (path : String) : IO (Option (List UInt8)) := do
  try
    return some (← IO.FS.readBinFile path).toList
  catch _ => return none

/-- The files that a request needs, and no process. -/
def readEnvironment (arguments : Arguments) : IO Environment := do
  let settingsPath := arguments.settings.getD Settings.fileName
  let settings ← readFile? settingsPath
  let target ←
    if (processText? arguments.target).isSome then pure none else readFile? arguments.target
  return {
    files := fun path =>
      if path = settingsPath then settings
      else if path = arguments.target then target
      else none
    processes := fun number => .error (.readFault s!"PID {number}" 0 "not opened") }

/-- A breakdown is reported with the number of the scan. -/
def reports : Reports := fun number complaint =>
  s!"task {number} panicked with message \"{complaint}\""

/-- Answers lines of input until it ends. -/
partial def answerInput (session : Session) (input output : IO.FS.Stream) : IO Unit := do
  let line ← input.getLine
  unless line.isEmpty do
    let (lines, session) := answer reports session line
    for line in lines do output.putStrLn line
    output.flush
    answerInput session input output

def main (arguments : List String) : IO UInt32 := do
  match Request.ofArguments arguments with
  | .mistake =>
    IO.eprint helpText
    return 2
  | .version =>
    IO.print versionText
    return 0
  | .help =>
    IO.print helpText
    return 0
  | .scan arguments =>
    match openSession .own (← readEnvironment arguments) arguments with
    | .error failure =>
      IO.eprintln s!"Error: {failure.message}"
      return failure.status.toUInt32
    | .ok session =>
      answerInput session (← IO.getStdin) (← IO.getStdout)
      return 0
