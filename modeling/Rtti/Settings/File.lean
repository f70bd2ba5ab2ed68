import Rtti.Settings
import Rtti.Toml

/-!
# The settings file

Settings are stored as a TOML document with one table for each section.  In
reading, what is missing has its default and what is unknown is ignored.
-/

namespace Rtti

open Toml (Item Fields)

/-- The name of the settings file in the working directory. -/
def Settings.fileName : String := "rtti-scanner.toml"

/-! ## Reading -/

/-- What stands for the fields of a section: the named fields of a table, or
the items of an array in the order of the fields. -/
def sectionFields (names : List String) : Item → Option Fields
  | .table _ fields => some fields
  | .date => some []
  | .array items => some (names.zip items)
  | .tables elements => some (names.zip (elements.reverse.map (.table .header)))
  | _ => none

/-- The value of a field, or its default if the field is missing. -/
def fieldOr {α : Type} (fields : Fields) (name : String) (read : Item → Option α) (default : α) :
    Option α :=
  match fields.lookup name with
  | none => some default
  | some item => read item

/-- An unsigned number below `bound`. -/
def numberBelow (bound : Nat) : Item → Option Nat
  | .integer n => if 0 ≤ n ∧ n < bound then some n.toNat else none
  | _ => none

/-- A number of 32 bits. -/
def number32 : Item → Option Nat := numberBelow 0x100000000

/-- A number of 64 bits. -/
def number64 : Item → Option Nat := numberBelow 0x10000000000000000

/-- A text. -/
def textItem : Item → Option String
  | .text content => some content
  | _ => none

/-- A truth value. -/
def booleanItem : Item → Option Bool
  | .boolean value => some value
  | _ => none

/-- The scanner settings of a section. -/
def ScannerSettings.ofItem? (item : Item) : Option ScannerSettings := do
  let fields ← sectionFields
    ["max_name_len", "max_msvc_bases", "max_itanium_bases", "max_nodes"] item
  let default : ScannerSettings := {}
  return {
    maxNameLength := ← fieldOr fields "max_name_len" number64 default.maxNameLength
    maxMsvcBases := ← fieldOr fields "max_msvc_bases" number32 default.maxMsvcBases
    maxItaniumBases := ← fieldOr fields "max_itanium_bases" number32 default.maxItaniumBases
    maxNodes := ← fieldOr fields "max_nodes" number64 default.maxNodes }

/-- The target settings of a section. -/
def TargetSettings.ofItem? (item : Item) : Option TargetSettings := do
  let fields ← sectionFields ["pointer_width"] item
  let default : TargetSettings := {}
  return { pointerWidth := ← fieldOr fields "pointer_width" number64 default.pointerWidth }

/-- The output settings of a section. -/
def OutputSettings.ofItem? (item : Item) : Option OutputSettings := do
  let fields ← sectionFields ["style"] item
  let default : OutputSettings := {}
  return { style := ← fieldOr fields "style" textItem default.style }

/-- The logging settings of a section. -/
def LoggingSettings.ofItem? (item : Item) : Option LoggingSettings := do
  let fields ← sectionFields ["level", "show_target"] item
  let default : LoggingSettings := {}
  return {
    level := ← fieldOr fields "level" textItem default.level
    showTarget := ← fieldOr fields "show_target" booleanItem default.showTarget }

/-- The settings of a document. -/
def Settings.ofFields? (fields : Fields) : Option Settings := do
  return {
    scanner := ← fieldOr fields "scanner" ScannerSettings.ofItem? {}
    target := ← fieldOr fields "target" TargetSettings.ofItem? {}
    output := ← fieldOr fields "output" OutputSettings.ofItem? {}
    logging := ← fieldOr fields "logging" LoggingSettings.ofItem? {} }

/-- The settings in a text. -/
def Settings.parse? (text : String) : Option Settings :=
  Toml.parse? text >>= ofFields?

/-- The settings in a file with the given contents, if there is such a
file. -/
def Settings.load (path : String) (contents : Option (List UInt8))
    (parse? : String → Option Settings := Settings.parse?) : Except SettingsError Settings :=
  match contents with
  | none => .error (.fileNotFound path)
  | some bytes =>
    match Utf8.decode? bytes with
    | none => .error .unreadable
    | some text =>
      match parse? text with
      | none => .error .malformed
      | some settings => .ok settings

/-- The settings in a file, or the defaults if they cannot be loaded. -/
def Settings.loadOrDefault (path : String) (contents : Option (List UInt8)) : Settings :=
  match load path contents with
  | .ok settings => settings
  | .error _ => {}

/-- The settings in the settings file of the working directory; without such
a file they are the defaults. -/
def Settings.loadWorking (contents : Option (List UInt8))
    (parse? : String → Option Settings := Settings.parse?) : Except SettingsError Settings :=
  match contents with
  | none => .ok {}
  | some bytes => load fileName (some bytes) parse?

/-! ## Writing -/

/-- A section with its lines. -/
def renderSection (name : String) (fields : List (String × String)) : String :=
  "[" ++ name ++ "]\n" ++ String.join (fields.map fun field => field.1 ++ " = " ++ field.2 ++ "\n")

/-- The settings as the contents of a settings file. -/
def Settings.render (settings : Settings) : String :=
  String.intercalate "\n" [
    renderSection "scanner" [
      ("max_name_len", toString settings.scanner.maxNameLength),
      ("max_msvc_bases", toString settings.scanner.maxMsvcBases),
      ("max_itanium_bases", toString settings.scanner.maxItaniumBases),
      ("max_nodes", toString settings.scanner.maxNodes)],
    renderSection "target" [("pointer_width", toString settings.target.pointerWidth)],
    renderSection "output" [("style", Toml.Quoted.encode settings.output.style)],
    renderSection "logging" [
      ("level", Toml.Quoted.encode settings.logging.level),
      ("show_target", if settings.logging.showTarget then "true" else "false")]]

end Rtti
