import Rtti.Memory.Snapshot
import Rtti.Proofs.Itanium.Expansion
import Rtti.Proofs.Memory.Reckoning
import Rtti.Proofs.Msvc.Places

/-!
# Decoding in exact numbers

The decoders of both ABIs, reckoned in exact numbers: each address is the exact sum
or difference of an address and an offset, an index is multiplied exactly, and the
window of a name has a size that is given as a number.

The decoders do what these reckonings do, so none of their numbers wraps, and they
report every number that 64 bits do not hold but one (`reckons_decoders`).  That is the
size of the window of a name, the product of the limit for names and of the size of a
code unit.  A scan breaks down over it.
-/

namespace Rtti

open Inspection

/-- Names are read from windows of the given size. -/
def NamesReckoned (brittle : Prop) (target : Target) (limits : Limits) (nameSize : Nat) : Prop :=
  ∀ address, (text address limits.nameUnits limits.encoding).Reckons brittle target
    (Reckoning.text address nameSize limits.encoding)

/-! ## Itanium -/

namespace Itanium

/-! Each of these is the function of the same name, with exact numbers. -/

namespace Exact

def identify (width : PointerWidth) (limits : Limits) (typeInfo : Address) :
    Reckoning ClassKind := do
  let vtable ← Inspection.pointer width typeInfo
  if !vtable.isPlausible width then
    Inspection.fail (.unknownStructure (.noTypeInfoVtable (typeInfo.display width)))
  else
    let slot ← Reckoning.address (vtable.val - 4 * width.bytes)
    let nameAt ← Inspection.pointer width slot
    let mangled ← Reckoning.text nameAt (typeInfoClassUnits * limits.encoding.unitSize)
      limits.encoding
    let name := withoutLength mangled
    match ClassKind.ofTypeInfoClass? name with
    | some kind => return kind
    | none => Inspection.fail (.unknownStructure (.unknownTypeInfoClass name))

def nameOf (width : PointerWidth) (limits : Limits) (nameSize : Nat) (typeInfo : Address) :
    Reckoning String := do
  let slot ← Reckoning.address (typeInfo.val + width.bytes)
  let nameAt ← Inspection.pointer width slot
  let mangled ← Reckoning.text nameAt nameSize limits.encoding
  return withoutLength mangled

def readBases (width : PointerWidth) (records : Address) :
    (count index : Nat) → Reckoning (List BaseRecord)
  | 0, _ => return []
  | count + 1, index => do
    let distance ← Reckoning.word (2 * width.bytes * index)
    let record ← Reckoning.address (records.val + distance)
    let typeInfo ← Inspection.pointer width record
    let flagsAt ← Reckoning.address (record.val + width.bytes)
    let offsetFlags ← Inspection.long width flagsAt
    let rest ← readBases width records count (index + 1)
    return ⟨typeInfo, offsetFlags⟩ :: rest

def expand (width : PointerWidth) (limits : Limits) (nameSize : Nat) (typeInfo : Address) :
    Reckoning ClassNode := do
  let kind ← identify width limits typeInfo
  let name ← nameOf width limits nameSize typeInfo
  let body ← Reckoning.address (typeInfo.val + 2 * width.bytes)
  match kind with
  | .leaf => return ⟨name, kind, 0, []⟩
  | .singleBase =>
    let base ← Inspection.pointer width body
    return ⟨name, kind, 0, [⟨base, 2⟩]⟩
  | .manyBases =>
    let flags ← Inspection.word32 body
    let countAt ← Reckoning.address (body.val + 4)
    let count ← Inspection.word32 countAt
    if limits.itaniumBases < count then
      Inspection.fail (.corruptHierarchy "base_count" count)
    else
      let records ← Reckoning.address (body.val + 8)
      let bases ← readBases width records count 0
      return ⟨name, kind, flags, bases⟩

def namedBases (width : PointerWidth) (limits : Limits) (nameSize : Nat) (typeInfo : Address) :
    Reckoning (List (String × Address)) := do
  let node ← expand width limits nameSize typeInfo
  let names ← node.bases.mapM fun base => nameOf width limits nameSize base.typeInfo
  return names.zip (node.bases.map (·.typeInfo))

def finish (width : PointerWidth) (limits : Limits) (nameSize : Nat) (budget : Nat)
    (walk : Walk) : Reckoning Walk :=
  match walk.stack.dropWhile (· ∈ walk.visited) with
  | [] => return walk
  | name :: stack =>
    match budget with
    | 0 => Inspection.fail (.corruptHierarchy "node_count" (walk.expanded.length + 1))
    | budget + 1 => do
      match walk.located.get? name with
      | none => Inspection.fail (.unknownStructure (.unlocated name))
      | some typeInfo =>
        let bases ← namedBases width limits nameSize typeInfo
        finish width limits nameSize budget (walk.extend name typeInfo bases stack)

def decode (width : PointerWidth) (limits : Limits) (nameSize : Nat) (typeInfo : Address) :
    Reckoning ClassHierarchy := do
  let root ← nameOf width limits nameSize typeInfo
  if root.isEmpty then
    Inspection.fail (.unknownStructure (.unnamedTypeInfo (typeInfo.display width)))
  else
    let walk ← finish width limits nameSize limits.nodes (Walk.start root typeInfo)
    return ⟨.itanium, root, walk.visited.reverse, walk.map⟩

end Exact

variable {brittle : Prop} {target : Target} {width : PointerWidth} {limits : Limits}
  {nameSize : Nat} {typeInfo records : Address}

theorem reckons_identify : (identify width limits typeInfo).Reckons brittle target
    (Exact.identify width limits typeInfo) := by
  unfold identify Exact.identify
  refine (reckons_lift _).bind fun vtable _ => ?_
  split
  · exact reckons_lift _
  · refine reckons_sub.bind fun slot _ => ?_
    refine (reckons_lift _).bind fun nameAt _ => ?_
    have hsize : typeInfoClassUnits * limits.encoding.unitSize < 0x10000000000000000 := by
      cases limits.encoding <;> decide
    refine (reckons_text (.inl hsize)).bind fun mangled _ => ?_
    dsimp only
    cases ClassKind.ofTypeInfoClass? (withoutLength mangled) with
    | none => exact reckons_lift _
    | some kind => exact reckons_done kind

theorem reckons_nameOf (hnames : NamesReckoned brittle target limits nameSize) :
    (nameOf width limits typeInfo).Reckons brittle target
      (Exact.nameOf width limits nameSize typeInfo) := by
  unfold nameOf Exact.nameOf
  refine reckons_add.bind fun slot _ => ?_
  refine (reckons_lift _).bind fun nameAt _ => ?_
  exact (hnames nameAt).bind fun mangled _ => reckons_done _

theorem reckons_readBases {count index : Nat} (hfew : index + count < 0x100000000) :
    (readBases width records count index).Reckons brittle target
      (Exact.readBases width records count index) := by
  induction count generalizing index with
  | zero => exact reckons_done []
  | succ count ih =>
    unfold readBases Exact.readBases
    have hdistance : 2 * width.bytes * index < 0x10000000000000000 := by
      cases width <;> simp only [PointerWidth.bytes] <;> omega
    refine reckons_word_bind hdistance (reckons_add.bind fun record _ => ?_)
    refine (reckons_lift _).bind fun typeInfo _ => ?_
    refine reckons_add.bind fun flagsAt _ => ?_
    refine (reckons_lift _).bind fun offsetFlags _ => ?_
    exact (ih (by omega)).bind fun rest _ => reckons_done _

theorem reckons_expand (hnames : NamesReckoned brittle target limits nameSize) :
    (expand width limits typeInfo).Reckons brittle target
      (Exact.expand width limits nameSize typeInfo) := by
  unfold expand Exact.expand
  refine reckons_identify.bind fun kind _ => ?_
  refine (reckons_nameOf hnames).bind fun name _ => ?_
  refine reckons_add.bind fun body _ => ?_
  cases kind with
  | leaf => exact reckons_done _
  | singleBase => exact (reckons_lift _).bind fun base _ => reckons_done _
  | manyBases =>
    refine (reckons_lift _).bind fun flags _ => ?_
    refine reckons_add.bind fun countAt _ => ?_
    refine reckons_word32_bind fun count hcount => ?_
    split
    · exact reckons_lift _
    · refine reckons_add.bind fun records _ => ?_
      exact (reckons_readBases (by omega)).bind fun bases _ => reckons_done _

theorem reckons_namedBases (hnames : NamesReckoned brittle target limits nameSize) :
    (namedBases width limits typeInfo).Reckons brittle target
      (Exact.namedBases width limits nameSize typeInfo) := by
  unfold namedBases Exact.namedBases
  refine (reckons_expand hnames).bind fun node _ => ?_
  exact (reckons_mapM fun base _ => reckons_nameOf hnames).bind fun names _ => reckons_done _

theorem reckons_finish (hnames : NamesReckoned brittle target limits nameSize) {budget : Nat}
    {walk : Walk} : (walk.finish width limits budget).Reckons brittle target
      (Exact.finish width limits nameSize budget walk) := by
  induction budget generalizing walk with
  | zero =>
    cases hnext : walk.stack.dropWhile (· ∈ walk.visited) with
    | nil =>
      rw [Walk.finish_of_done hnext, Exact.finish, hnext]
      exact reckons_done walk
    | cons name stack =>
      rw [Walk.finish_full hnext, Exact.finish, hnext]
      exact reckons_lift _
  | succ budget ih =>
    cases hnext : walk.stack.dropWhile (· ∈ walk.visited) with
    | nil =>
      rw [Walk.finish_of_done hnext, Exact.finish, hnext]
      exact reckons_done walk
    | cons name stack =>
      rw [Exact.finish, hnext]
      cases hfound : walk.located.get? name with
      | none =>
        rw [Walk.finish_unlocated hnext hfound]
        simp only [hfound]
        exact reckons_lift _
      | some typeInfo =>
        rw [Walk.finish_succ hnext hfound]
        simp only [hfound]
        exact (reckons_namedBases hnames).bind fun bases _ => ih

theorem reckons_decode (hnames : NamesReckoned brittle target limits nameSize) :
    (decode width limits typeInfo).Reckons brittle target
      (Exact.decode width limits nameSize typeInfo) := by
  unfold decode Exact.decode
  refine (reckons_nameOf hnames).bind fun root _ => ?_
  split
  · exact reckons_lift _
  · exact (reckons_finish hnames).bind fun walk _ => reckons_done _

end Itanium

/-! ## MSVC -/

namespace Msvc

/-! The functions of the same names, with exact numbers.  A link counts from the origin of
the links. -/

namespace Exact

def readLinks (width : PointerWidth) (locator : Address) : Reckoning Links := do
  match width with
  | .bits32 => return .absolute
  | .bits64 =>
    let selfAt ← Reckoning.address (locator.val + 0x14)
    let self ← Inspection.word32 selfAt
    if self = 0 then Inspection.fail (.unknownStructure .noImageBase)
    else
      let imageBase ← Reckoning.address (locator.val - self)
      return .relative imageBase

def readBaseArray (width : PointerWidth) (limits : Limits) (locator : Address) :
    Reckoning BaseArray := do
  let links ← readLinks width locator
  let hierarchyAt ← Reckoning.address (locator.val + 0x10)
  let hierarchyLink ← Inspection.word32 hierarchyAt
  if hierarchyLink = 0 then Inspection.fail (.unknownStructure .noHierarchyDescriptor)
  else
    let hierarchy ← Reckoning.address (links.origin + hierarchyLink)
    let countAt ← Reckoning.address (hierarchy.val + 0x08)
    let count ← Inspection.word32 countAt
    if count = 0 ∨ limits.msvcBases < count then
      Inspection.fail (.corruptHierarchy "base_count" count)
    else
      let arrayAt ← Reckoning.address (hierarchy.val + 0x0C)
      let arrayLink ← Inspection.word32 arrayAt
      if arrayLink = 0 then Inspection.fail (.unknownStructure .noBaseClassArray)
      else
        let start ← Reckoning.address (links.origin + arrayLink)
        return ⟨links, start, count⟩

def readDescriptor (width : PointerWidth) (limits : Limits) (nameSize : Nat)
    (undecorate : Undecorator) (array : BaseArray) (index : Nat) :
    Reckoning (Option Descriptor) := do
  let distance ← Reckoning.word (4 * index)
  let entryAt ← Reckoning.address (array.start.val + distance)
  let baseLink ← Inspection.word32 entryAt
  if baseLink = 0 then return none
  else
    let base ← Reckoning.address (array.links.origin + baseLink)
    let typeLink ← Inspection.word32 base
    if typeLink = 0 then return none
    else
      let type ← Reckoning.address (array.links.origin + typeLink)
      let nameAt ← Reckoning.address (type.val + nameOffset width)
      let raw ← Reckoning.text nameAt nameSize limits.encoding
      if raw.isEmpty then return none
      else
        let name ← displayName undecorate raw
        let containedAt ← Reckoning.address (base.val + 0x04)
        let contained ← (liftM (Inspection.word? containedAt 4) : Reckoning (Option Nat))
        return some ⟨name, contained.getD 0⟩

def readDescriptors (width : PointerWidth) (limits : Limits) (nameSize : Nat)
    (undecorate : Undecorator) (array : BaseArray) :
    (count index : Nat) → Reckoning (List Descriptor)
  | 0, _ => return []
  | count + 1, index => do
    match ← readDescriptor width limits nameSize undecorate array index with
    | none => return []
    | some descriptor =>
      let rest ← readDescriptors width limits nameSize undecorate array count (index + 1)
      return descriptor :: rest

def decode (width : PointerWidth) (limits : Limits) (nameSize : Nat) (undecorate : Undecorator)
    (locator : Address) : Reckoning ClassHierarchy := do
  let array ← readBaseArray width limits locator
  let descriptors ← readDescriptors width limits nameSize undecorate array array.count 0
  hierarchy descriptors

end Exact

variable {brittle : Prop} {target : Target} {width : PointerWidth} {limits : Limits}
  {nameSize : Nat} {undecorate : Undecorator} {locator : Address} {links : Links}
  {array : BaseArray}

theorem reckons_resolve {link : Nat} (hlink : link < 0x100000000) :
    (liftM (links.resolve link) : Inspection Address).Reckons brittle target
      (Reckoning.address (links.origin + link)) := by
  cases links with
  | relative imageBase => exact reckons_add
  | absolute =>
    have haddress : Address.ofInt? (Links.absolute.origin + link) = some (.ofNat link) := by
      rw [Address.ofInt?_eq_some_iff, Address.val_ofNat (by omega)]
      exact (Int.zero_add _).symm
    refine ⟨rfl, ?_⟩
    rw [run_lift rfl, Reckoning.run_address, haddress]
    exact .value _

theorem reckons_readLinks : (readLinks width locator).Reckons brittle target
    (Exact.readLinks width locator) := by
  unfold readLinks Exact.readLinks
  split
  · exact reckons_done _
  · refine reckons_add.bind fun selfAt _ => ?_
    refine (reckons_lift _).bind fun self _ => ?_
    split
    · exact reckons_lift _
    · exact reckons_sub.bind fun imageBase _ => reckons_done _

theorem reckons_readBaseArray : (readBaseArray width limits locator).Reckons brittle target
    (Exact.readBaseArray width limits locator) := by
  unfold readBaseArray Exact.readBaseArray
  refine reckons_readLinks.bind fun links _ => ?_
  refine reckons_add.bind fun hierarchyAt _ => ?_
  refine reckons_word32_bind fun hierarchyLink hhierarchyLink => ?_
  split
  · exact reckons_lift _
  · refine (reckons_resolve hhierarchyLink).bind fun hierarchy _ => ?_
    refine reckons_add.bind fun countAt _ => ?_
    refine (reckons_lift _).bind fun count _ => ?_
    split
    · exact reckons_lift _
    · refine reckons_add.bind fun arrayAt _ => ?_
      refine reckons_word32_bind fun arrayLink harrayLink => ?_
      split
      · exact reckons_lift _
      · exact (reckons_resolve harrayLink).bind fun start _ => reckons_done _

theorem reckons_readDescriptor (hnames : NamesReckoned brittle target limits nameSize) {index : Nat}
    (hindex : index < 0x100000000) :
    (readDescriptor width limits undecorate array index).Reckons brittle target
      (Exact.readDescriptor width limits nameSize undecorate array index) := by
  unfold readDescriptor Exact.readDescriptor
  refine reckons_word_bind (by omega) (reckons_add.bind fun entryAt _ => ?_)
  refine reckons_word32_bind fun baseLink hbaseLink => ?_
  split
  · exact reckons_done _
  · refine (reckons_resolve hbaseLink).bind fun base _ => ?_
    refine reckons_word32_bind fun typeLink htypeLink => ?_
    split
    · exact reckons_done _
    · refine (reckons_resolve htypeLink).bind fun type _ => ?_
      refine reckons_add.bind fun nameAt _ => ?_
      refine (hnames nameAt).bind fun raw _ => ?_
      split
      · exact reckons_done _
      · refine (reckons_lift _).bind fun name _ => ?_
        refine reckons_add.bind fun containedAt _ => ?_
        exact (reckons_lift _).bind fun contained _ => reckons_done _

theorem reckons_readDescriptors (hnames : NamesReckoned brittle target limits nameSize)
    {count index : Nat} (hfew : index + count ≤ 0x100000000) :
    (readDescriptors width limits undecorate array count index).Reckons brittle target
      (Exact.readDescriptors width limits nameSize undecorate array count index) := by
  induction count generalizing index with
  | zero => exact reckons_done []
  | succ count ih =>
    unfold readDescriptors Exact.readDescriptors
    refine (reckons_readDescriptor hnames (by omega)).bind fun descriptor _ => ?_
    cases descriptor with
    | none => exact reckons_done []
    | some descriptor => exact (ih (by omega)).bind fun rest _ => reckons_done _

theorem reckons_decode (hnames : NamesReckoned brittle target limits nameSize) :
    (decode target.width limits undecorate locator).Reckons brittle target
      (Exact.decode target.width limits nameSize undecorate locator) := by
  unfold decode Exact.decode
  refine reckons_readBaseArray.bind fun array harray => ?_
  obtain ⟨hierarchy, hfound⟩ := confined_readBaseArray.post_of_run array harray
  have hfew : array.count < 0x100000000 := hfound.holdsCount.1
  refine (reckons_readDescriptors hnames (by omega)).bind fun descriptors _ => ?_
  exact reckons_lift _

end Msvc

/-! ## Both decoders -/

/-- The decoders compute in exact numbers, and if 64 bits hold the size of the window of
a name, they report where these are no 64-bit numbers.  Otherwise a name is not read, and
the scan breaks down without a report. -/
theorem reckons_decoders (target : Target) (limits : Limits) (undecorate : Msvc.Undecorator)
    (locator typeInfo : Address) :
    let nameSize := limits.nameUnits * limits.encoding.unitSize
    let name (address : Address) := text address limits.nameUnits limits.encoding
    let msvc := Msvc.decode target.width limits undecorate locator
    let itanium := Itanium.decode target.width limits typeInfo
    let msvcExact := Msvc.Exact.decode target.width limits nameSize undecorate locator
    let itaniumExact := Itanium.Exact.decode target.width limits nameSize typeInfo
    (∀ address, (name address).Reckons False target
      (Reckoning.text address nameSize limits.encoding) ↔ nameSize < 0x10000000000000000) ∧
    (nameSize < 0x10000000000000000 →
      msvc.Reckons False target msvcExact ∧ itanium.Reckons False target itaniumExact) ∧
    (0x10000000000000000 ≤ nameSize →
      (∀ address, (name address).reads target = [] ∧
        (name address).run target = .error (.scanBrokeDown multiplyOverflow)) ∧
      msvc.Reckons True target msvcExact ∧ itanium.Reckons True target itaniumExact) := by
  intro nameSize name msvc itanium msvcExact itaniumExact
  refine ⟨fun _ => reckons_text_iff, fun hfits => ?_, fun hlarge => ⟨fun address => ?_, ?_⟩⟩
  · have hnames : NamesReckoned False target limits nameSize := fun _ => reckons_text (.inl hfits)
    exact ⟨Msvc.reckons_decode hnames, Itanium.reckons_decode hnames⟩
  · have hname : name address = .fail (.scanBrokeDown multiplyOverflow) := text_eq_fail hlarge
    rw [hname]
    exact ⟨rfl, rfl⟩
  · have hnames : NamesReckoned True target limits nameSize := fun _ => reckons_text (.inr trivial)
    exact ⟨Msvc.reckons_decode hnames, Itanium.reckons_decode hnames⟩

/-- A locator below the base of its image, and a `type_info` at the end of the address
space, are reported before anything is read behind them.  A `type_info` whose name may
have `2 ^ 63 + 1` units of two bytes breaks the scan down after the pointer to the name. -/
theorem reckons_decoders_edges :
    let snapshot := ((⟨.bits64, none, .empty⟩ : Snapshot).addRegion (.ofNat 0x1014)
      (Word.toBytes 4 0x2000)).addRegion (.ofNat 0x3008) (Word.toBytes 8 0x4000)
    let target := snapshot.target
    let locator := Address.ofNat 0x1000
    let typeInfo := Address.ofNat 0xFFFFFFFFFFFFFFF8
    let msvc := Msvc.Exact.decode .bits64 {} 60 .ok locator
    let itanium := Itanium.Exact.decode .bits64 {} 60 typeInfo
    let vast : Limits := { nameUnits := 0x8000000000000001, encoding := .utf16 }
    let vastSize := vast.nameUnits * vast.encoding.unitSize
    let vastExact := Itanium.Exact.decode .bits64 vast vastSize (.ofNat 0x3000)
    ((Msvc.decode .bits64 {} .ok locator).Reckons False target msvc ∧
      msvc.run.run target = .ok none ∧ msvc.run.reads target = [⟨.ofNat 0x1014, 4, false⟩]) ∧
    ((Itanium.decode .bits64 {} typeInfo).Reckons False target itanium ∧
      itanium.run.run target = .ok none ∧ itanium.run.reads target = []) ∧
    ¬(text (.ofNat 0x4000) vast.nameUnits vast.encoding).Reckons False target
      (Reckoning.text (.ofNat 0x4000) vastSize vast.encoding) ∧
    ((Itanium.decode .bits64 vast (.ofNat 0x3000)).Reckons True target vastExact ∧
      vastExact.run.run target = .ok none ∧
      (Itanium.decode .bits64 vast (.ofNat 0x3000)).run target =
        .error (.scanBrokeDown multiplyOverflow) ∧
      (Itanium.decode .bits64 vast (.ofNat 0x3000)).reads target =
        [⟨.ofNat 0x3008, 8, false⟩]) := by
  intro snapshot target locator typeInfo msvc itanium vast vastSize vastExact
  obtain ⟨-, hfits, -⟩ := reckons_decoders target {} .ok locator typeInfo
  obtain ⟨hmsvc, hitanium⟩ := hfits (by decide)
  obtain ⟨hexact, -, hlarge⟩ := reckons_decoders target vast .ok locator (.ofNat 0x3000)
  obtain ⟨-, -, hvast⟩ := hlarge (by decide)
  refine ⟨⟨hmsvc, by decide +kernel, by decide +kernel⟩,
    ⟨hitanium, by decide +kernel, by decide +kernel⟩, fun hreckons => ?_,
    hvast, by decide +kernel, by decide +kernel, by decide +kernel⟩
  exact absurd ((hexact (.ofNat 0x4000)).1 hreckons) (by decide)

end Rtti
