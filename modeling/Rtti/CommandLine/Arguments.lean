import Rtti.Hierarchy

/-!
# Arguments of the command line

One target and up to three options, each with a value after a blank or an
equals sign.  Arguments are read from left to right, and the first that
settles the matter does so: a request for the version or for help, or a
mistake.
-/

namespace Rtti.CommandLine

/-- What the command line asks for. -/
structure Arguments where
  /-- What to scan: a snapshot, a minidump or a process. -/
  target : String
  /-- The ABI of the target, if it is not to be detected. -/
  abi : Option Abi := none
  /-- The settings file, if it is not the one in the working directory. -/
  settings : Option String := none
  /-- The style, if it is not the one in the settings. -/
  style : Option Style := none
  deriving Repr, DecidableEq

/-- What becomes of a command line. -/
inductive Request where
  | scan (arguments : Arguments)
  | version
  | help
  /-- It cannot be understood. -/
  | mistake
  deriving Repr, DecidableEq

/-- Arguments read in part. -/
structure Draft where
  target : Option String := none
  abi : Option Abi := none
  settings : Option String := none
  style : Option Style := none

namespace Draft

/-- Takes an argument as the target, of which there is one. -/
def addTarget (draft : Draft) (text : String) : Option Draft :=
  match draft.target with
  | none => some { draft with target := some text }
  | some _ => none

/-- Sets an option to the value that a text spells.  No option may be set
twice. -/
def setOption (draft : Draft) (option text : String) : Option Draft :=
  match option with
  | "--abi" =>
    match draft.abi, Abi.parse text with
    | none, .ok abi => some { draft with abi := some abi }
    | _, _ => none
  | "--config" =>
    if draft.settings.isSome ∨ text.isEmpty then none
    else some { draft with settings := some text }
  | "--style" =>
    match draft.style, Style.parse text with
    | none, .ok style => some { draft with style := some style }
    | _, _ => none
  | _ => none

/-- The request of complete arguments. -/
def finish (draft : Draft) : Request :=
  match draft.target with
  | some target => .scan { draft with target }
  | none => .mistake

end Draft

/-- Whether an argument looks like an option. -/
def isOption (text : String) : Bool :=
  match text.toList with
  | '-' :: _ :: _ => true
  | _ => false

/-- An argument with its parts before and after the first equals sign. -/
def splitEquals (text : String) : String × Option String :=
  match text.toList.span (· ≠ '=') with
  | (option, _ :: value) => (String.ofList option, some (String.ofList value))
  | (option, []) => (String.ofList option, none)

/-- Takes all arguments as targets. -/
def readTargets (draft : Draft) : List String → Request
  | [] => draft.finish
  | text :: rest =>
    match draft.addTarget text with
    | some draft => readTargets draft rest
    | none => .mistake

/-- Reads arguments after those of `draft`. -/
def readFrom (draft : Draft) : List String → Request
  | [] => draft.finish
  | text :: rest =>
    if !isOption text then
      match draft.addTarget text with
      | some draft => readFrom draft rest
      | none => .mistake
    else match text.toList with
      | '-' :: '-' :: _ =>
        if text = "--" then readTargets draft rest
        else if text = "--version" then .version
        else if text = "--help" then .help
        else
          match splitEquals text with
          | (option, some value) =>
            match draft.setOption option value with
            | some draft => readFrom draft rest
            | none => .mistake
          | (option, none) =>
            match rest with
            | value :: rest =>
              if isOption value then .mistake
              else match draft.setOption option value with
                | some draft => readFrom draft rest
                | none => .mistake
            | [] => .mistake
      | '-' :: 'V' :: _ => .version
      | '-' :: 'h' :: _ => .help
      | _ => .mistake

/-- The request of a command line. -/
def Request.ofArguments (arguments : List String) : Request :=
  readFrom {} arguments

end Rtti.CommandLine
