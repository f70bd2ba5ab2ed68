import Rtti.Hierarchy
import Rtti.Json

/-!
# Hierarchies as JSON records

The reading of inheritance maps and class hierarchies from JSON text.
-/

namespace Rtti

/-- The map that a JSON value holds: an object of child lists by parent
under the key `edges`.  Of two lists with one parent the later stands. -/
def InheritanceMap.ofJson? (j : Json) : Option InheritanceMap := do
  match ← j.fields? ["edges"] with
  | [edges] =>
    let entries ← (← edges).entries? (Json.list? Json.text?)
    return ⟨.ofList entries⟩
  | _ => none

/-- The hierarchy that a JSON value holds. -/
def ClassHierarchy.ofJson? (j : Json) : Option ClassHierarchy := do
  match ← j.fields? ["abi", "root", "names", "map"] with
  | [abi, root, names, map] =>
    let abi ← (← abi).choice? [("msvc", .msvc), ("itanium", .itanium)]
    let root ← (← root).text?
    let names ← (← names).list? Json.text?
    let map ← InheritanceMap.ofJson? (← map)
    return ⟨abi, root, names, map⟩
  | _ => none

/-- The hierarchy that a text holds. -/
def ClassHierarchy.ofJson (text : String) : Except ScanError ClassHierarchy :=
  match Json.parse? text >>= ClassHierarchy.ofJson? with
  | some h => .ok h
  | none => .error .malformedJson

end Rtti
