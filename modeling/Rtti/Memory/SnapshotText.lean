import Rtti.Address.Spelling
import Rtti.Json
import Rtti.Memory.Snapshot
import Rtti.Text.HexBytes

/-!
# Snapshots as text

A snapshot is stored as a JSON record with the image name, the pointer width
and the regions, each with its base address and its bytes in hexadecimal.
`Snapshot.Record` is the record, `Snapshot.record` and
`Snapshot.Record.snapshot` lead to it and back, and `Snapshot.toJson` and
`Snapshot.ofJson` do so on text.

How bytes and records are spelled is told by a `Snapshot.Codec`, of which
`Snapshot.Codec.json` is the usual one.
-/

namespace Rtti.Snapshot

/-- A region as stored. -/
structure RegionRecord where
  base : String
  bytes : String
  deriving Repr, DecidableEq

/-- A snapshot as stored. -/
structure Record where
  imageName : String
  pointerWidth : Nat := 8
  regions : List RegionRecord := []
  deriving Repr, DecidableEq

/-! ## Record and JSON -/

/-- The record as a JSON value. -/
def Record.json (r : Record) : Json :=
  .object [
    (some "image_name", .string (some r.imageName)),
    (some "pointer_width", .number (toString r.pointerWidth)),
    (some "regions", .array (r.regions.map fun region =>
      .object [(some "base", .string (some region.base)),
        (some "bytes", .string (some region.bytes))]))]

/-- The region record that a JSON value holds. -/
def RegionRecord.ofJson? (j : Json) : Option RegionRecord := do
  match ← j.fields? ["base", "bytes"] with
  | [base, bytes] => return ⟨← (← base).text?, ← (← bytes).text?⟩
  | _ => none

/-- The record that a JSON value holds.  The image name is required. -/
def Record.ofJson? (j : Json) : Option Record := do
  match ← j.fields? ["image_name", "pointer_width", "regions"] with
  | [name, width, regions] =>
    let name ← (← name).text?
    let width ← (width.map Json.word?).getD (some 8)
    let regions ← (regions.map (Json.list? RegionRecord.ofJson?)).getD (some [])
    return ⟨name, width, regions⟩
  | _ => none

/-! ## Spelling -/

/-- How bytes and records are spelled as text. -/
structure Codec where
  encodeBytes : List UInt8 → String
  decodeBytes : String → Except HexFault (List UInt8)
  print : Record → String
  parse? : String → Option Record

/-- Records are spelled in JSON, and bytes in hexadecimal. -/
def Codec.json : Codec :=
  ⟨HexBytes.encode, HexBytes.decode, fun r => r.json.render,
    fun text => Json.parse? text >>= Record.ofJson?⟩

/-! ## Record and snapshot -/

/-- The stored form of a snapshot; a missing image name is stored as the
empty text. -/
def record (s : Snapshot) (codec : Codec := .json) : Record where
  imageName := s.imageName.getD ""
  pointerWidth := s.width.bytes
  regions := s.regions.entries.map fun (base, bytes) =>
    ⟨base.hex .upper 0, codec.encodeBytes bytes⟩

/-- The base address and the bytes of a stored region. -/
def RegionRecord.region (r : RegionRecord) (width : PointerWidth) (codec : Codec := .json) :
    Except ScanError (Address × List UInt8) := do
  let base ← Address.parse r.base width
  let bytes ← (codec.decodeBytes r.bytes).mapError .malformedHex
  return (base, bytes)

/-- The snapshot that is stored; the first fault in the order of the record
is reported, the pointer width before the regions. -/
def Record.snapshot (r : Record) (codec : Codec := .json) : Except ScanError Snapshot := do
  let width ← PointerWidth.ofBytes r.pointerWidth
  let regions ← r.regions.mapM (·.region width codec)
  return ⟨width, some r.imageName, .ofList regions⟩

/-! ## Snapshot and text -/

/-- The snapshot as text. -/
def toJson (s : Snapshot) (codec : Codec := .json) : String :=
  codec.print (s.record codec)

/-- The snapshot that a text holds. -/
def ofJson (text : String) (codec : Codec := .json) : Except ScanError Snapshot :=
  match codec.parse? text with
  | some r => r.snapshot codec
  | none => .error .malformedJson

end Rtti.Snapshot
