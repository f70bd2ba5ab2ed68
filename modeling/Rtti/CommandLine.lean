import Rtti.CommandLine.Arguments
import Rtti.DecoratedName
import Rtti.Memory.Minidump
import Rtti.Memory.Process
import Rtti.Memory.SnapshotText
import Rtti.Session
import Rtti.Settings.File

/-!
# The command line

The program opens a session on the target that its arguments name, and then
answers each line of its input, the address of an object, with the lines
that present the object's class, or with the error of the scan.

`CommandLine.run` is the whole program as a function of its arguments and its input, of
the files and processes that it meets (`Environment`) and of the parts that do not belong
to it: the readers of the formats and the undecorator (`Libraries`).
-/

namespace Rtti.CommandLine

/-! ## What the program is given -/

/-- What the program meets outside. -/
structure Environment where
  /-- The contents of the file with a path, if it can be read. -/
  files : String → Option (List UInt8)
  /-- The process with a number, if it can be opened. -/
  processes : Nat → Except ScanError Process

/-- How it is reported that a scan broke down, for the number of the scan and its
complaint. -/
abbrev Reports := Nat → String → String

/-- The parts that the program uses. -/
structure Libraries where
  /-- The reader of command lines. -/
  request : List String → Request
  /-- The reader of settings files. -/
  settings? : String → Option Settings
  /-- The form of stored snapshots. -/
  codec : Snapshot.Codec
  /-- The reader of minidumps. -/
  dump : List UInt8 → Except DumpFault Minidump
  undecorate : Msvc.Undecorator

/-- The undecorator of the program; it never breaks down. -/
def undecorator : Msvc.Undecorator := fun name => .ok (DecoratedName.undecorate name)

/-- The parts that are defined here. -/
def Libraries.own : Libraries :=
  ⟨Request.ofArguments, Settings.parse?, .json, Minidump.parse, undecorator⟩

/-- Why no session can be opened. -/
inductive StartFailure where
  | settings (error : SettingsError)
  | scan (error : ScanError)
  | dump (fault : DumpFault)
  /-- A text does not spell the number of a process. -/
  | invalidProcess (text : String)
  deriving Repr, DecidableEq

namespace StartFailure

/-- The failure in words. -/
def message : StartFailure → String
  | settings error => error.message
  | scan error => error.message
  | dump .malformed => "the minidump is malformed"
  | dump .unusable => "the minidump cannot be used"
  | invalidProcess text => s!"invalid process id '{text}'"

/-- The exit status of the failure. -/
def status : StartFailure → Nat
  | dump .unusable => 101
  | _ => 1

end StartFailure

/-! ## Opening a session -/

section Opening

variable (libraries : Libraries) (environment : Environment)

/-- The settings in the file that the arguments name, or in the one of the working
directory. -/
def readSettings (arguments : Arguments) : Except SettingsError Settings :=
  match arguments.settings with
  | some path => Settings.load path (environment.files path) libraries.settings?
  | none => Settings.loadWorking (environment.files Settings.fileName) libraries.settings?

/-- The settings under which the program runs. -/
def loadSettings (arguments : Arguments) : Except StartFailure Settings := do
  let settings ← (readSettings libraries environment arguments).mapError .settings
  settings.check.mapError .settings
  return settings

/-- What spells the number of the process, if a target is one. -/
def processText? (target : String) : Option String :=
  if "pid:".toList.isPrefixOf target.toList then some (String.ofList (target.toList.drop 4))
  else none

/-- Whether a target is a minidump, by the ending of its name. -/
def isMinidump (target : String) : Bool :=
  [".dmp", ".mdmp"].any (Text.endsIn (Text.lower target))

/-- The process whose number a text spells, as a target with the pointer width that is
set. -/
def openProcess (settings : Settings) (text : String) : Except StartFailure Target := do
  match Process.number? text with
  | none => .error (.invalidProcess text)
  | some number =>
    let width ← settings.target.width.mapError .settings
    let process ← (environment.processes number).mapError .scan
    return process.target width

/-- The target in a file with the given name and contents. -/
def openFile (name : String) (contents : Option (List UInt8)) : Except StartFailure Target :=
  match contents with
  | none => .error (.scan .unreadableFile)
  | some bytes =>
    if isMinidump name then do
      let dump ← (libraries.dump bytes).mapError .dump
      return (dump.snapshot (Minidump.fileName? name)).target
    else
      match Utf8.decode? bytes with
      | none => .error (.scan .unreadableFile)
      | some text => do
        let snapshot ← (Snapshot.ofJson text libraries.codec).mapError .scan
        return snapshot.target

/-- The target with a name. -/
def openTarget (settings : Settings) (name : String) : Except StartFailure Target :=
  match processText? name with
  | some text => openProcess environment settings text
  | none => openFile libraries name (environment.files name)

/-- A session on the target, for the ABI in the arguments or the one that is detected. -/
def startSession (arguments : Arguments) (limits : Limits) (target : Target) :
    Except StartFailure Session :=
  match arguments.abi with
  | some abi => (Session.start target (.ofAbi abi) libraries.undecorate limits).mapError .scan
  | none => (Session.detect target libraries.undecorate limits).mapError .scan

/-- The style in the arguments, or the one that is set. -/
def chooseStyle (arguments : Arguments) (settings : Settings) : Except StartFailure Style :=
  match arguments.style with
  | some style => .ok style
  | none => settings.output.toStyle.mapError .settings

/-- The session that the arguments ask for. -/
def openSession (arguments : Arguments) : Except StartFailure Session := do
  let settings ← loadSettings libraries environment arguments
  let target ← openTarget libraries environment settings arguments.target
  let session ← startSession libraries arguments settings.scanner.limits target
  let style ← chooseStyle arguments settings
  return session.withStyle style

end Opening

/-! ## Answering -/

/-- The text of a line of input, without line ends. -/
def lineText (line : String) : String :=
  String.ofList (Text.trimEnd (fun c => c = '\r' || c = '\n') line.toList)

/-- The lines that show what a scan has reported, with the words in which a breakdown is
reported. -/
def resultLines (report : String → String) (session : Session) :
    Except ScanError Outcome → List String
  | .ok (.completed hierarchy) => session.present hierarchy
  | .ok .superseded => []
  | .error (.scanBrokeDown complaint) => [(ScanError.scanBrokeDown (report complaint)).message]
  | .error error => [error.message]

/-- The lines that answer a line of input, and the session after it.  An
empty line is passed over. -/
def answer (reports : Reports) (session : Session) (line : String) : List String × Session :=
  let text := lineText line
  if text.isEmpty then ([], session)
  else
    let (result, session) := session.scan text
    (resultLines (reports session.generation) session result, session)

/-- The lines that answer lines of input one after another. -/
def answers (reports : Reports) (session : Session) : List String → List String
  | [] => []
  | line :: rest =>
    let (answer, session) := answer reports session line
    answer ++ answers reports session rest

/-- The text that shows the version of the program. -/
def versionText : String := "rtti-scanner 0.1.0\n"

/-- The text that shows how the program is used. -/
def helpText : String :=
  "Usage: rtti-scanner [--abi ABI] [--config FILE] [--style STYLE] TARGET\n"

/-- The exit status and the output of the program. -/
def run (libraries : Libraries) (environment : Environment) (reports : Reports)
    (arguments : List String) (input : String) : Nat × String :=
  match libraries.request arguments with
  | .mistake => (2, "")
  | .version => (0, versionText)
  | .help => (0, helpText)
  | .scan arguments =>
    match openSession libraries environment arguments with
    | .error failure => (failure.status, "")
    | .ok session =>
      let lines := (Text.splitLinesOnto [] input.toList).map String.ofList
      (0, String.join ((answers reports session lines).map (· ++ "\n")))

end Rtti.CommandLine
