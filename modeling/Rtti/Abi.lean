import Rtti.ScanError
import Rtti.Text.Blank

/-!
# ABIs and platforms

The two C++ ABIs whose type information is understood, the platform that a
target runs on, and how the platform is told from the name of the target's
executable.
-/

namespace Rtti

/-- A C++ ABI. -/
inductive Abi where
  | msvc
  | itanium
  deriving Repr, DecidableEq

namespace Abi

/-- The name for display. -/
def name : Abi → String
  | msvc => "MSVC"
  | itanium => "Itanium"

/-- The ABI that a text names, in any letter case: by its own name, or by a
compiler that follows it. -/
def parse (text : String) : Except ScanError Abi :=
  match Text.lower text with
  | "msvc" => .ok msvc
  | "itanium" | "gcc" | "clang" => .ok itanium
  | _ => .error (.unsupportedPlatform text)

end Abi

/-- The platform that a target runs on. -/
inductive Platform where
  | windows
  | linux
  deriving Repr, DecidableEq

namespace Platform

/-- The ABI of programs on the platform. -/
def abi : Platform → Abi
  | windows => .msvc
  | linux => .itanium

/-- The platform whose programs follow the ABI. -/
def ofAbi : Abi → Platform
  | .msvc => windows
  | .itanium => linux

/-- The name endings of Windows images and of memory dumps, which are taken
on Windows. -/
def windowsEndings : List String := [".exe", ".dll", ".dmp", ".mdmp"]

/-- The platform of an executable with the given name, by the ending of the
name in any letter case. -/
def ofImageName (imageName : String) : Except ScanError Platform :=
  let name := Text.trim imageName
  if name.isEmpty then .error (.unsupportedPlatform "empty process image name")
  else if windowsEndings.any (Text.endsIn (Text.lower name)) then .ok windows
  else .ok linux

end Platform

end Rtti
