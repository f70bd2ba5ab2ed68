import Mathlib.Logic.Function.Basic
import Rtti.Proofs.Address.Integers
import Rtti.Proofs.Itanium.Expansion
import Rtti.Proofs.Memory.Content

/-!
# Class graphs in memory

The head of a `type_info` is a pointer to the vtable of its own class and a
pointer to the name of the class that it describes.  `run_identify_eq_ok_iff` and
`run_nameOf_eq_ok_iff` say of every memory whether a kind and a name are read from
it.

A `ClassGraph` is a graph of classes with the names of the classes and with
the form in which each class describes its bases.  `ClassGraph.HoldsTypeInfo`
says that a memory holds the `type_info` of a class of the graph.

The reads of the decoder are then determined: `run_identify`, `run_nameOf`,
`run_expand` and `run_namedBases` give the class back.  The one thing that can
go wrong is at the top of the address space.  The address that follows the
fixed part of a `type_info` is computed even where nothing is read from it, so
a class without bases must end below the highest address
(`ClassGraph.EndsBelowTop`).
-/

namespace Rtti

namespace Itanium

variable {ι : Type}

/-! ## Mangled names -/

/-- Digits in front of a name are its length. -/
theorem withoutLength_of_digits {digits : List Char} {name : String}
    (hdigits : ∀ d ∈ digits, d.isDigit) (hhead : ∀ head ∈ name.toList.head?, ¬head.isDigit) :
    withoutLength (String.ofList digits ++ name) = name := by
  rw [withoutLength, String.toList_append, String.toList_ofList,
    List.dropWhile_append_of_pos hdigits]
  cases hname : name.toList with
  | nil => rw [← String.toList_inj, String.toList_ofList, hname]; rfl
  | cons head tail =>
    rw [hname] at hhead
    rw [List.dropWhile_cons_of_neg (by simpa using hhead), ← hname, String.ofList_toList]

/-- Every mangled name is a name with its length in front. -/
theorem exists_digits_withoutLength (mangled : String) :
    ∃ digits : List Char, (∀ d ∈ digits, d.isDigit) ∧
      mangled = String.ofList digits ++ withoutLength mangled ∧
      ∀ head ∈ (withoutLength mangled).toList.head?, ¬head.isDigit := by
  refine ⟨mangled.toList.takeWhile Char.isDigit, fun d hd => List.mem_takeWhile_imp hd, ?_, ?_⟩
  · rw [withoutLength, ← String.ofList_append, List.takeWhile_append_dropWhile,
      String.ofList_toList]
  · intro head hhead
    rw [withoutLength, String.toList_ofList] at hhead
    have hdropped := List.head?_dropWhile_not Char.isDigit mangled.toList
    simp only [Option.mem_def] at hhead
    simpa [hhead] using hdropped

/-- The memory holds a mangled name in a window of `units` code units: before the first
zero unit stands the name, after the decimal digits of its length. -/
def HoldsMangled (target : Target) (encoding : TextEncoding) (position units : Nat)
    (name : String) : Prop :=
  ∃ window, window.length = units * encoding.unitSize ∧
    window.length < 0x10000000000000000 ∧ target.Holds position window ∧
    ∃ digits : List Char, (∀ d ∈ digits, d.isDigit) ∧
      (∀ head ∈ name.toList.head?, ¬head.isDigit) ∧
      encoding.IsTextOf (String.ofList digits ++ name)
        ((encoding.codeUnits window).takeWhile (· ≠ 0))

/-- A mangled name is held exactly where a text is read that is the name without its
length. -/
theorem holdsMangled_iff {target : Target} {encoding : TextEncoding} {address : Address}
    {units : Nat} {name : String} : HoldsMangled target encoding address.val units name ↔
      ∃ mangled, (Inspection.text address units encoding).run target = .ok mangled ∧
        withoutLength mangled = name := by
  simp only [Inspection.run_text_eq_ok_iff]
  constructor
  · rintro ⟨window, hlength, hsize, hholds, digits, hdigits, hhead, htext⟩
    have hread := Target.read_of_holds hholds
    rw [hlength] at hread hsize
    exact ⟨_, ⟨hsize, window, hread, htext⟩, withoutLength_of_digits hdigits hhead⟩
  · rintro ⟨mangled, ⟨hsize, window, hread, htext⟩, rfl⟩
    obtain ⟨hanswer, hlength⟩ := Target.read_eq_ok_iff.1 hread
    obtain ⟨digits, hdigits, hsplit, hhead⟩ := exists_digits_withoutLength mangled
    rw [← hlength] at hanswer hsize
    refine ⟨window, hlength, hsize, ⟨address, rfl, hanswer⟩, digits, hdigits, hhead, ?_⟩
    rwa [← hsplit]

/-! ## The head of a `type_info` -/

/-- A plausible address has room for the words before it. -/
theorem four_pointers_le {width : PointerWidth} {vtable : Address}
    (huser : vtable.isPlausible width) : 4 * width.bytes ≤ vtable.val := by
  have hlow : 0x10000 ≤ vtable.val := by
    simp only [Address.isPlausible, PointerWidth.lowestUser, Bool.and_eq_true] at huser
    exact of_decide_eq_true huser.1.2
  cases width <;> simp only [PointerWidth.bytes] <;> omega

section

variable {target : Target} {width : PointerWidth} {limits : Limits} {typeInfo : Address}
  {name : String}

/-- A kind is found exactly where a plausible vtable leads to the mangled name of a class
of this kind. -/
theorem run_identify_eq_ok_iff {kind : ClassKind} :
    (identify width limits typeInfo).run target = .ok kind ↔
      ∃ vtable nameAt : Address, vtable.isPlausible width ∧
        target.HoldsWord typeInfo.val width.bytes vtable.val ∧
        target.HoldsWord (vtable.val - 4 * width.bytes) width.bytes nameAt.val ∧
        ∃ mangled, (Inspection.text nameAt 64 limits.encoding).run target = .ok mangled ∧
          ClassKind.ofTypeInfoClass? (withoutLength mangled) = some kind := by
  constructor
  · intro hrun
    obtain ⟨vtable, hvtable, hrun⟩ := Inspection.exists_of_run_bind_eq_ok hrun
    split at hrun
    · contradiction
    next huser =>
    obtain ⟨slot, hslot, hrun⟩ := Inspection.exists_of_run_bind_eq_ok hrun
    obtain ⟨nameAt, hnameAt, hrun⟩ := Inspection.exists_of_run_bind_eq_ok hrun
    obtain ⟨mangled, hmangled, hrun⟩ := Inspection.exists_of_run_bind_eq_ok hrun
    rw [Inspection.run_lift rfl, Address.sub_eq_ok_iff] at hslot
    rw [Inspection.run_pointer_eq_ok_iff] at hvtable hnameAt
    refine ⟨vtable, nameAt, by simpa using huser, hvtable, ?_, mangled, hmangled, ?_⟩
    · rwa [hslot, Nat.add_sub_cancel]
    · cases hkind : ClassKind.ofTypeInfoClass? (withoutLength mangled) with
      | none =>
        simp only [hkind] at hrun
        contradiction
      | some found =>
        simp only [hkind] at hrun
        exact congrArg some (Except.ok.inj hrun)
  · rintro ⟨vtable, nameAt, huser, hvtable, hnameAt, mangled, hmangled, hkind⟩
    obtain ⟨slot, hslot⟩ := hnameAt.exists_address
    rw [← hslot] at hnameAt
    have hsub : vtable.sub (4 * width.bytes) = .ok slot := by
      have hroom := four_pointers_le huser
      rw [Address.sub_eq_ok_iff]
      omega
    rw [identify, Inspection.run_bind_of_ok (Inspection.run_pointer hvtable), huser]
    simp only [Bool.not_true, Bool.false_eq_true, if_false]
    rw [Inspection.run_bind_of_ok (Inspection.run_lift hsub),
      Inspection.run_bind_of_ok (Inspection.run_pointer hnameAt), typeInfoClassUnits,
      Inspection.run_bind_of_ok hmangled, hkind]
    rfl

theorem run_nameOf_eq_ok_iff :
    (nameOf width limits typeInfo).run target = .ok name ↔
      ∃ nameAt : Address,
        target.HoldsWord (typeInfo.val + width.bytes) width.bytes nameAt.val ∧
        HoldsMangled target limits.encoding nameAt.val limits.nameUnits name := by
  simp only [holdsMangled_iff]
  constructor
  · intro hrun
    obtain ⟨slot, hslot, hrun⟩ := Inspection.exists_of_run_add_bind_eq_ok hrun
    obtain ⟨nameAt, hnameAt, hrun⟩ := Inspection.exists_of_run_bind_eq_ok hrun
    obtain ⟨mangled, hmangled, hrun⟩ := Inspection.exists_of_run_bind_eq_ok hrun
    rw [Inspection.run_pointer_eq_ok_iff, hslot] at hnameAt
    exact ⟨nameAt, hnameAt, mangled, hmangled, Except.ok.inj hrun⟩
  · rintro ⟨nameAt, hpointer, mangled, hmangled, rfl⟩
    rw [nameOf, Inspection.run_pointer_add_bind hpointer, Inspection.run_bind_of_ok hmangled]
    rfl

end

/-! ## Graphs -/

/-- How the `type_info` of a class describes the bases. -/
inductive Shape (ι : Type) where
  /-- There is no base. -/
  | leaf
  /-- There is one public non-virtual base. -/
  | single (base : ι)
  /-- There is a record for each base, of the base and of a word of its offset
  and its flags. -/
  | many (flags : Nat) (records : List (ι × Nat))

namespace Shape

def bases : Shape ι → List ι
  | leaf => []
  | single base => [base]
  | many _ records => records.map Prod.fst

def kind : Shape ι → ClassKind
  | leaf => .leaf
  | single _ => .singleBase
  | many .. => .manyBases

def flags : Shape ι → Nat
  | many flags _ => flags
  | _ => 0

/-- The mangled name of the class of the `type_info`. -/
def typeInfoClass : Shape ι → String
  | leaf => "N10__cxxabiv117__class_type_infoE"
  | single _ => "N10__cxxabiv120__si_class_type_infoE"
  | many .. => "N10__cxxabiv121__vmi_class_type_infoE"

/-- The records of the bases, with the place of each `type_info`. -/
def records (width : PointerWidth) (place : ι → Address) : Shape ι → List BaseRecord
  | leaf => []
  | single base => [⟨place base, 2⟩]
  | many _ records => records.map fun r => ⟨place r.1, Word.toSigned width.bytes r.2⟩

theorem map_typeInfo_records (width : PointerWidth) (place : ι → Address) (shape : Shape ι) :
    (shape.records width place).map (·.typeInfo) = shape.bases.map place := by
  cases shape <;> simp [records, bases]

theorem ofTypeInfoClass?_typeInfoClass (shape : Shape ι) :
    ClassKind.ofTypeInfoClass? shape.typeInfoClass = some shape.kind := by
  cases shape <;> rfl

end Shape

/-- A graph of classes with distinct names. -/
structure ClassGraph (ι : Type) where
  name : ι → String
  shape : ι → Shape ι
  name_injective : Function.Injective name
  name_ne_empty (c : ι) : name c ≠ ""
  /-- A null character would end the name early. -/
  null_not_mem (c : ι) : '\x00' ∉ (name c).toList
  /-- A digit at the head would be taken for part of the length. -/
  head_not_digit (c : ι) : ∀ head ∈ (name c).toList.head?, ¬ head.isDigit

namespace ClassGraph

/-- The direct bases of a class, in declared order. -/
def bases (g : ClassGraph ι) (c : ι) : List ι := (g.shape c).bases

/-! ## Memory -/

/-- The part of a `type_info` that follows its two pointers. -/
def HoldsBases (target : Target) (width : PointerWidth) (place : ι → Address) (body : Nat) :
    Shape ι → Prop
  | .leaf => True
  | .single base => target.HoldsWord body width.bytes (place base).val
  | .many flags records =>
    target.HoldsWord body 4 flags ∧ target.HoldsWord (body + 4) 4 records.length ∧
      ∀ (i : Nat) (_ : i < records.length),
        target.HoldsWord (body + 8 + 2 * width.bytes * i) width.bytes (place records[i].1).val ∧
        target.HoldsWord (body + 8 + 2 * width.bytes * i + width.bytes) width.bytes records[i].2

instance {target : Target} {width : PointerWidth} {place : ι → Address} {body : Nat}
    : (shape : Shape ι) → Decidable (HoldsBases target width place body shape)
  | .leaf => .isTrue trivial
  | .single _ => inferInstanceAs (Decidable (target.HoldsWord ..))
  | .many _ records => inferInstanceAs (Decidable (target.HoldsWord .. ∧
      target.HoldsWord .. ∧ ∀ (i : Nat) (_ : i < records.length),
        target.HoldsWord .. ∧ target.HoldsWord ..))

/-- The memory holds the `type_info` of a class. -/
structure HoldsTypeInfo (g : ClassGraph ι) (target : Target) (width : PointerWidth) (units : Nat)
    (place : ι → Address) (c : ι) : Prop where
  /-- Four pointers before the vtable is the mangled name of its class. -/
  vtable : ∃ vtable nameAt : Address, vtable.isPlausible width ∧
    target.HoldsWord (place c).val width.bytes vtable.val ∧
    target.HoldsWord (vtable.val - 4 * width.bytes) width.bytes nameAt.val ∧
    target.HoldsText nameAt.val 64 (g.shape c).typeInfoClass
  /-- The mangled name is the name after decimal digits. -/
  name : ∃ (nameAt : Address) (digits : List Char), (∀ d ∈ digits, d.isDigit) ∧
    target.HoldsWord ((place c).val + width.bytes) width.bytes nameAt.val ∧
    target.HoldsText nameAt.val units (String.ofList digits ++ g.name c)
  bases : HoldsBases target width place ((place c).val + 2 * width.bytes) (g.shape c)

/-- The address after the `type_info` of a class without bases is an
address. -/
def EndsBelowTop (g : ClassGraph ι) (width : PointerWidth) (place : ι → Address) (c : ι) : Prop :=
  match g.shape c with
  | .leaf => (place c).val + 2 * width.bytes < 0x10000000000000000
  | .many _ [] => (place c).val + 2 * width.bytes + 8 < 0x10000000000000000
  | _ => True

instance (g : ClassGraph ι) (width : PointerWidth) (place : ι → Address) (c : ι) :
    Decidable (g.EndsBelowTop width place c) :=
  match h : g.shape c with
  | .leaf => decidable_of_iff ((place c).val + 2 * width.bytes < 0x10000000000000000)
    (by simp [EndsBelowTop, h])
  | .single _ => .isTrue (by simp [EndsBelowTop, h])
  | .many _ [] => decidable_of_iff ((place c).val + 2 * width.bytes + 8 < 0x10000000000000000)
    (by simp [EndsBelowTop, h])
  | .many _ (_ :: _) => .isTrue (by simp [EndsBelowTop, h])

/-! ## Reads of a held `type_info` -/

variable {target : Target} {width : PointerWidth} {limits : Limits} {g : ClassGraph ι}
  {place : ι → Address} {c : ι}

theorem withoutLength_mangled {digits : List Char} (hdigits : ∀ d ∈ digits, d.isDigit) :
    withoutLength (String.ofList digits ++ g.name c) = g.name c :=
  withoutLength_of_digits hdigits (g.head_not_digit c)

theorem null_not_mem_mangled {digits : List Char} (hdigits : ∀ d ∈ digits, d.isDigit) :
    '\x00' ∉ (String.ofList digits ++ g.name c).toList := by
  rw [String.toList_append, String.toList_ofList, List.mem_append]
  rintro (hmem | hmem)
  · exact absurd (hdigits _ hmem) (by decide)
  · exact g.null_not_mem c hmem

theorem run_nameOf (hheld : g.HoldsTypeInfo target width limits.nameUnits place c)
    (hencoding : limits.encoding = .utf8) (hunits : limits.nameUnits < 0x10000000000000000) :
    (nameOf width limits (place c)).run target = .ok (g.name c) := by
  obtain ⟨nameAt, digits, hdigits, hpointer, htext⟩ := hheld.name
  refine run_nameOf_eq_ok_iff.2
    ⟨nameAt, hpointer, holdsMangled_iff.2 ⟨String.ofList digits ++ g.name c, ?_, ?_⟩⟩
  · rw [hencoding]
    exact Inspection.run_text htext (null_not_mem_mangled hdigits) hunits
  · exact withoutLength_mangled hdigits

theorem withoutLength_typeInfoClass (shape : Shape ι) :
    withoutLength shape.typeInfoClass = shape.typeInfoClass := by
  cases shape <;> simp only [Shape.typeInfoClass] <;> decide +kernel

theorem null_not_mem_typeInfoClass (shape : Shape ι) :
    '\x00' ∉ shape.typeInfoClass.toList := by
  cases shape <;> simp only [Shape.typeInfoClass] <;> decide +kernel

theorem run_identify (hheld : g.HoldsTypeInfo target width limits.nameUnits place c)
    (hencoding : limits.encoding = .utf8) :
    (identify width limits (place c)).run target = .ok (g.shape c).kind := by
  obtain ⟨vtable, nameAt, huser, hpointer, hname, htext⟩ := hheld.vtable
  refine run_identify_eq_ok_iff.2
    ⟨vtable, nameAt, huser, hpointer, hname, (g.shape c).typeInfoClass, ?_, ?_⟩
  · rw [hencoding]
    exact Inspection.run_text htext (null_not_mem_typeInfoClass _) (by decide)
  · rw [withoutLength_typeInfoClass, Shape.ofTypeInfoClass?_typeInfoClass]

theorem run_readBases {start : Address} {records : List (ι × Nat)} {index : Nat}
    (hheld : ∀ (i : Nat) (_ : i < records.length),
      target.HoldsWord (start.val + 2 * width.bytes * (index + i)) width.bytes
        (place records[i].1).val ∧
      target.HoldsWord (start.val + 2 * width.bytes * (index + i) + width.bytes) width.bytes
        records[i].2) :
    (readBases width start records.length index).run target =
      .ok (records.map fun r => ⟨place r.1, Word.toSigned width.bytes r.2⟩) := by
  induction records generalizing index with
  | nil => rfl
  | cons record records ih =>
    obtain ⟨hpointer, hflags⟩ := hheld 0 (Nat.succ_pos _)
    rw [Nat.add_zero] at hpointer hflags
    obtain ⟨recordAt, hrecord⟩ := hpointer.exists_address
    rw [← hrecord] at hpointer hflags
    obtain ⟨flagsAt, hflagsAt⟩ := hflags.exists_address
    rw [← hflagsAt] at hflags
    have hrest := @ih (index + 1) fun i hi => by
      have hlater := hheld (i + 1) (Nat.succ_lt_succ hi)
      rw [show index + (i + 1) = index + 1 + i by omega] at hlater
      exact hlater
    rw [List.length_cons, readBases, Inspection.run_add_bind hrecord,
      Inspection.run_bind_of_ok (Inspection.run_pointer hpointer),
      Inspection.run_add_bind hflagsAt, Inspection.run_bind_of_ok (Inspection.run_long hflags),
      Inspection.run_bind_of_ok hrest]
    rfl

/-! ## Expansion -/

/-- The flags and the bases of a class of the given kind, described from `body`
on. -/
def readBody (width : PointerWidth) (limits : Limits) (body : Address) :
    ClassKind → Inspection (Nat × List BaseRecord)
  | .leaf => return (0, [])
  | .singleBase => do
    let base ← Inspection.pointer width body
    return (0, [⟨base, 2⟩])
  | .manyBases => do
    let flags ← Inspection.word32 body
    let countAt ← body.add 4
    let count ← Inspection.word32 countAt
    if limits.itaniumBases < count then .fail (.corruptHierarchy "base_count" count)
    else
      let records ← body.add 8
      let bases ← readBases width records count 0
      return (flags, bases)

theorem expand_eq (width : PointerWidth) (limits : Limits) (typeInfo : Address) :
    expand width limits typeInfo =
      (do
        let kind ← identify width limits typeInfo
        let name ← nameOf width limits typeInfo
        let body ← typeInfo.add (2 * width.bytes)
        let found ← readBody width limits body kind
        return ⟨name, kind, found.1, found.2⟩) := by
  unfold expand
  refine bind_congr fun kind => bind_congr fun name => bind_congr fun body => ?_
  cases kind with
  | leaf => rfl
  | singleBase => rfl
  | manyBases =>
    simp only [readBody, bind_assoc]
    refine bind_congr fun flags => bind_congr fun countAt => bind_congr fun count => ?_
    by_cases hmany : limits.itaniumBases < count
    · rw [if_pos hmany, if_pos hmany]
      rfl
    · rw [if_neg hmany, if_neg hmany]
      simp only [bind_assoc, pure_bind]

/-- The bases are read if the records, even if there are none, begin at an
address. -/
theorem run_readBody {body : Address} {shape : Shape ι}
    (hheld : HoldsBases target width place body.val shape)
    (hfew : shape.bases.length ≤ limits.itaniumBases)
    (hroom : ∀ flags, shape = .many flags [] → body.val + 8 < 0x10000000000000000) :
    (readBody width limits body shape.kind).run target =
      .ok (shape.flags, shape.records width place) := by
  cases shape with
  | leaf => rfl
  | single base =>
    rw [HoldsBases] at hheld
    rw [Shape.kind, readBody, Inspection.run_bind_of_ok (Inspection.run_pointer hheld)]
    rfl
  | many flags records =>
    obtain ⟨hflags, hcount, hrecords⟩ := hheld
    have hfits : ¬ limits.itaniumBases < records.length := by
      rw [Shape.bases, List.length_map] at hfew
      omega
    have hstart : ∃ start : Address, start.val = body.val + 8 := by
      cases records with
      | nil => exact ⟨⟨body.val + 8, hroom flags rfl⟩, rfl⟩
      | cons record records => exact (hrecords 0 (Nat.succ_pos _)).1.exists_address
    obtain ⟨start, hstartAt⟩ := hstart
    have hread : (readBases width start records.length 0).run target =
        .ok (records.map fun r => ⟨place r.1, Word.toSigned width.bytes r.2⟩) := by
      apply run_readBases
      intro i hi
      rw [hstartAt, Nat.zero_add]
      exact hrecords i hi
    rw [Shape.kind, readBody, Inspection.run_bind_of_ok (Inspection.run_word32 hflags),
      Inspection.run_word32_add_bind hcount, if_neg hfits, Inspection.run_add_bind hstartAt,
      Inspection.run_bind_of_ok hread]
    rfl

/-- Records that begin beyond the last address are not found, even if there are
none. -/
theorem run_readBody_of_top {body : Address} {flags : Nat}
    (hheld : HoldsBases target width place body.val (.many flags []))
    (htop : 0x10000000000000000 ≤ body.val + 8) :
    (readBody width limits body .manyBases).run target =
      .error (.unknownStructure (.overflow body 8)) := by
  obtain ⟨hflags, hcount, -⟩ := hheld
  rw [readBody, Inspection.run_bind_of_ok (Inspection.run_word32 hflags),
    Inspection.run_word32_add_bind hcount, if_neg (by simp),
    Inspection.run_bind_of_error (Inspection.run_lift (Address.add_eq_error htop))]

/-- A class that does not end at the top of the address space is expanded to
what the memory holds. -/
theorem run_expand (hheld : g.HoldsTypeInfo target width limits.nameUnits place c)
    (hbelow : g.EndsBelowTop width place c) (hbases : (g.bases c).length ≤ limits.itaniumBases)
    (hencoding : limits.encoding = .utf8) (hunits : limits.nameUnits < 0x10000000000000000) :
    (expand width limits (place c)).run target =
      .ok ⟨g.name c, (g.shape c).kind, (g.shape c).flags, (g.shape c).records width place⟩ := by
  have hheldBases := hheld.bases
  obtain ⟨body, hbody⟩ : ∃ body : Address, body.val = (place c).val + 2 * width.bytes := by
    rw [EndsBelowTop] at hbelow
    cases hshape : g.shape c with
    | leaf =>
      simp only [hshape] at hbelow
      exact ⟨⟨_, hbelow⟩, rfl⟩
    | single base =>
      rw [hshape, HoldsBases] at hheldBases
      exact hheldBases.exists_address
    | many flags records =>
      rw [hshape, HoldsBases] at hheldBases
      exact hheldBases.1.exists_address
  rw [← hbody] at hheldBases
  have hroom : ∀ flags, g.shape c = .many flags [] → body.val + 8 < 0x10000000000000000 := by
    intro flags hshape
    rw [EndsBelowTop] at hbelow
    simp only [hshape] at hbelow
    omega
  rw [expand_eq, Inspection.run_bind_of_ok (run_identify hheld hencoding),
    Inspection.run_bind_of_ok (run_nameOf hheld hencoding hunits), Inspection.run_add_bind hbody,
    Inspection.run_bind_of_ok (run_readBody hheldBases hbases hroom)]
  rfl

/-- A class without bases that ends at the top of the address space is not
expanded. -/
theorem run_expand_of_top (hheld : g.HoldsTypeInfo target width limits.nameUnits place c)
    (htop : ¬ g.EndsBelowTop width place c) (hencoding : limits.encoding = .utf8)
    (hunits : limits.nameUnits < 0x10000000000000000) :
    ∃ address offset, (expand width limits (place c)).run target =
      .error (.unknownStructure (.overflow address offset)) := by
  have hheldBases := hheld.bases
  rw [expand_eq, Inspection.run_bind_of_ok (run_identify hheld hencoding),
    Inspection.run_bind_of_ok (run_nameOf hheld hencoding hunits)]
  rw [EndsBelowTop] at htop
  cases hshape : g.shape c with
  | leaf =>
    simp only [hshape] at htop
    have hsum : (liftM ((place c).add (2 * width.bytes)) : Inspection Address).run target =
        .error (.unknownStructure (.overflow (place c) (2 * width.bytes))) :=
      Inspection.run_lift (Address.add_eq_error (Nat.le_of_not_lt htop))
    exact ⟨place c, 2 * width.bytes, Inspection.run_bind_of_error hsum⟩
  | single base => simp [hshape] at htop
  | many flags records =>
    cases records with
    | cons record records => simp [hshape] at htop
    | nil =>
      simp only [hshape] at htop
      rw [hshape] at hheldBases
      obtain ⟨body, hbody⟩ := hheldBases.1.exists_address
      rw [← hbody] at hheldBases htop
      refine ⟨body, 8, ?_⟩
      rw [Inspection.run_add_bind hbody, Shape.kind,
        Inspection.run_bind_of_error (run_readBody_of_top hheldBases (Nat.le_of_not_lt htop))]

end ClassGraph

end Itanium

end Rtti
