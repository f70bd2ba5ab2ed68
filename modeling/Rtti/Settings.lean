import Rtti.Address.Spelling
import Rtti.Hierarchy
import Rtti.Limits

/-!
# Settings

What a user can set: the limits of a scan, the pointer width of targets that
do not tell it, the style of presentation and the logging.
-/

namespace Rtti

/-- The settings of the scanner. -/
structure ScannerSettings where
  maxNameLength : Nat := 60
  maxMsvcBases : Nat := 24
  maxItaniumBases : Nat := 64
  maxNodes : Nat := 4096
  deriving Repr, DecidableEq

/-- The settings of the target. -/
structure TargetSettings where
  /-- The number of bytes of a pointer. -/
  pointerWidth : Nat := 8
  deriving Repr, DecidableEq

/-- The settings of the output. -/
structure OutputSettings where
  style : String := "auto"
  deriving Repr, DecidableEq

/-- The settings of the logging. -/
structure LoggingSettings where
  level : String := "info"
  /-- Whether log lines name the part of the program that wrote them. -/
  showTarget : Bool := false
  deriving Repr, DecidableEq

/-- All settings. -/
structure Settings where
  scanner : ScannerSettings := {}
  target : TargetSettings := {}
  output : OutputSettings := {}
  logging : LoggingSettings := {}
  deriving Repr, DecidableEq

/-- Why settings cannot be used. -/
inductive SettingsError where
  /-- The file is no readable text. -/
  | unreadable
  /-- The text is not a TOML document of settings. -/
  | malformed
  /-- There is no such file. -/
  | fileNotFound (path : String)
  /-- A value is out of its range. -/
  | invalid (reason : String)
  deriving Repr, DecidableEq

namespace SettingsError

/-- The error in words. -/
def message : SettingsError → String
  | unreadable => "IO error"
  | malformed => "TOML parsing error"
  | fileNotFound path => s!"Configuration file not found: {path}"
  | invalid reason => s!"Invalid configuration: {reason}"

end SettingsError

/-- The limits of a scan under the settings; names are read as UTF-8. -/
def ScannerSettings.limits (scanner : ScannerSettings) : Limits where
  nameUnits := scanner.maxNameLength
  encoding := .utf8
  msvcBases := scanner.maxMsvcBases
  itaniumBases := scanner.maxItaniumBases
  nodes := scanner.maxNodes

/-- The pointer width that is set. -/
def TargetSettings.width (target : TargetSettings) : Except SettingsError PointerWidth :=
  (PointerWidth.ofBytes target.pointerWidth).mapError fun error => .invalid error.message

/-- The style that is set. -/
def OutputSettings.toStyle (output : OutputSettings) : Except SettingsError Style :=
  (Style.parse output.style).mapError .invalid

/-- The log filter that is set: the level in lower case. -/
def LoggingSettings.filter (logging : LoggingSettings) : String :=
  Text.lower logging.level

/-! ## Ranges -/

/-- The largest name length that may be set. -/
def ScannerSettings.longestName : Nat := 4096

/-- Checks the limits of a scan. -/
def ScannerSettings.check (scanner : ScannerSettings) : Except SettingsError Unit := do
  if scanner.maxNameLength = 0 ∨ longestName < scanner.maxNameLength then
    .error (.invalid s!"max_name_len must be between 1 and {longestName}")
  else if scanner.maxMsvcBases = 0 ∨ 24 < scanner.maxMsvcBases then
    .error (.invalid "max_msvc_bases must be between 1 and 24")
  else if scanner.maxItaniumBases = 0 then
    .error (.invalid "max_itanium_bases must be at least 1")
  else if scanner.maxNodes = 0 then
    .error (.invalid "max_nodes must be at least 1")
  else .ok ()

/-- The log levels. -/
def LoggingSettings.levels : List String := ["trace", "debug", "info", "warn", "error"]

/-- Checks the log level. -/
def LoggingSettings.check (logging : LoggingSettings) : Except SettingsError Unit :=
  if logging.filter ∈ levels then .ok ()
  else
    let quoted := levels.map fun level => "\"" ++ level ++ "\""
    .error (.invalid ("Invalid log level: " ++ logging.level ++ ". Must be one of: [" ++
      String.intercalate ", " quoted ++ "]"))

/-- Checks that every value is in its range; the first that is not is
reported, in the order of the sections. -/
def Settings.check (settings : Settings) : Except SettingsError Unit := do
  settings.scanner.check
  discard settings.target.width
  discard settings.output.toStyle
  settings.logging.check

end Rtti
