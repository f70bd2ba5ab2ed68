import Mathlib.Algebra.Ring.Int.Defs
import Rtti.Memory.Snapshot
import Rtti.Proofs.Itanium.Layout

/-!
# Base records in memory

A class with many bases lists them as records of a pointer and of a signed word,
which holds the offset of the base above eight bits of flags.  `DeclaredBase` is a
base as the class declares it, and `DeclaredBase.shape` is what its memory holds.
`HasManyBases` is what the memory of such a class holds before the records, and
`hasManyBases_iff` says that it is all that the decoder looks at there.

`run_expand_of_declared` says that the bases are read back from it, whatever the
signs of their offsets are, on targets of both widths; that a class with more bases
than are allowed is refused by their number, before a record is read; and that the
address of the records is computed even if there are none.
-/

namespace Rtti.Itanium

/-! ## Declared bases -/

/-- A base as a class declares it. -/
structure DeclaredBase where
  typeInfo : Address
  /-- The signed distance to the base, or for a virtual base to the slot of the vtable
  that holds it. -/
  offset : Int
  flags : UInt8
  deriving Repr, DecidableEq

namespace DeclaredBase

/-- The second word of the record, as a signed number. -/
def offsetFlags (base : DeclaredBase) : Int := base.offset * 256 + base.flags.toNat

/-- What is to be read from the record. -/
def record (base : DeclaredBase) : BaseRecord := ⟨base.typeInfo, base.offsetFlags⟩

/-- A record has room for the base: a pointer for its place, and for its offset the
bits of a signed word that are left above the flags. -/
def Fits (base : DeclaredBase) (width : PointerWidth) : Prop :=
  base.typeInfo.val ≤ width.maxValue ∧ -2 ^ (8 * width.bytes - 9) ≤ base.offset ∧
    base.offset < 2 ^ (8 * width.bytes - 9)

instance (base : DeclaredBase) (width : PointerWidth) : Decidable (base.Fits width) :=
  inferInstanceAs (Decidable (_ ∧ _))

/-- The form in which a class describes these bases: each is stored as its place and
as a two's complement word. -/
def shape (width : PointerWidth) (flags : Nat) (bases : List DeclaredBase) : Shape Address :=
  .many flags (bases.map fun base =>
    (base.typeInfo, Word.ofSigned width.bytes base.offsetFlags))

variable {base : DeclaredBase} {width : PointerWidth} {flags : Nat} {bases : List DeclaredBase}

/-! ## Parts of a record -/

theorem offset_record : base.record.offset = base.offset := by
  have hflags := base.flags.toNat_lt
  simp only [BaseRecord.offset, record, offsetFlags]
  omega

theorem isVirtual_record : base.record.isVirtual = base.flags.toNat.testBit 0 := by
  rw [BaseRecord.isVirtual, Nat.testBit_zero, decide_eq_decide]
  simp only [record, offsetFlags]
  omega

theorem isPublic_record : base.record.isPublic = base.flags.toNat.testBit 1 := by
  rw [BaseRecord.isPublic, Nat.testBit_succ, Nat.testBit_zero, decide_eq_decide]
  simp only [record, offsetFlags]
  omega

/-- The word of a record holds offset and flags, the sign included. -/
theorem toSigned_ofSigned_offsetFlags (hfits : base.Fits width) :
    Word.toSigned width.bytes (Word.ofSigned width.bytes base.offsetFlags) = base.offsetFlags := by
  obtain ⟨-, hlow, hhigh⟩ := hfits
  have hflags := base.flags.toNat_lt
  unfold offsetFlags
  cases width with
  | bits32 =>
    have hlow : -0x800000 ≤ base.offset := hlow
    have hhigh : base.offset < 0x800000 := hhigh
    apply Word.toSigned_ofSigned <;> simp only [PointerWidth.bytes, Word.count_four] <;> omega
  | bits64 =>
    have hlow : -0x80000000000000 ≤ base.offset := hlow
    have hhigh : base.offset < 0x80000000000000 := hhigh
    apply Word.toSigned_ofSigned <;> simp only [PointerWidth.bytes, Word.count_eight] <;> omega

theorem records_shape (hfits : ∀ base ∈ bases, base.Fits width) :
    (shape width flags bases).records width id = bases.map record := by
  rw [shape, Shape.records, List.map_map]
  refine List.map_congr_left fun base hbase => ?_
  simp only [Function.comp_apply, toSigned_ofSigned_offsetFlags (hfits base hbase)]
  rfl

end DeclaredBase

/-! ## Classes with many bases -/

variable {target : Target} {width : PointerWidth} {limits : Limits} {typeInfo : Address}
  {name : String} {flags count : Nat} {bases : List DeclaredBase}

/-- The memory holds the two pointers at the head of the `type_info` of a class with many
bases. -/
structure HasManyBases (target : Target) (width : PointerWidth) (limits : Limits)
    (typeInfo : Address) (name : String) : Prop where
  /-- Four pointers before the vtable is the mangled name of its class. -/
  vtable : ∃ vtable nameAt : Address, vtable.isPlausible width ∧
    target.HoldsWord typeInfo.val width.bytes vtable.val ∧
    target.HoldsWord (vtable.val - 4 * width.bytes) width.bytes nameAt.val ∧
    HoldsMangled target limits.encoding nameAt.val 64 "N10__cxxabiv121__vmi_class_type_infoE"
  /-- The second pointer leads to the mangled name of the described class. -/
  name : ∃ nameAt : Address,
    target.HoldsWord (typeInfo.val + width.bytes) width.bytes nameAt.val ∧
    HoldsMangled target limits.encoding nameAt.val limits.nameUnits name

theorem ofTypeInfoClass?_eq_some_manyBases {mangled : String} :
    ClassKind.ofTypeInfoClass? mangled = some .manyBases ↔
      mangled = "N10__cxxabiv121__vmi_class_type_infoE" := by
  unfold ClassKind.ofTypeInfoClass?
  split_ifs <;> simp_all

/-- Exactly these classes are identified as classes with many bases, under their names. -/
theorem hasManyBases_iff : HasManyBases target width limits typeInfo name ↔
    (identify width limits typeInfo).run target = .ok .manyBases ∧
      (nameOf width limits typeInfo).run target = .ok name := by
  rw [run_identify_eq_ok_iff, run_nameOf_eq_ok_iff]
  simp only [ofTypeInfoClass?_eq_some_manyBases, ← holdsMangled_iff]
  exact ⟨fun hheld => ⟨hheld.vtable, hheld.name⟩, fun ⟨hvtable, hname⟩ => ⟨hvtable, hname⟩⟩

/-- The first address after the number of the bases is no address. -/
def EndsAtTop (width : PointerWidth) (typeInfo : Address) : Prop :=
  0x10000000000000000 ≤ typeInfo.val + 2 * width.bytes + 8

/-- The kind and the name of the class are found, and its bases are read. -/
theorem run_expand_eq_of_many {body : Address}
    (hknown : HasManyBases target width limits typeInfo name)
    (hbody : body.val = typeInfo.val + 2 * width.bytes) :
    (expand width limits typeInfo).run target =
      ((ClassGraph.readBody width limits body .manyBases).run target).map fun found =>
        ⟨name, .manyBases, found.1, found.2⟩ := by
  obtain ⟨hkind, hname⟩ := hasManyBases_iff.1 hknown
  rw [ClassGraph.expand_eq, Inspection.run_bind_of_ok hkind,
    Inspection.run_bind_of_ok hname, Inspection.run_add_bind hbody, Inspection.bind_eq,
    Inspection.run_bind]
  rfl

/-- Too many bases are refused by their number, and no record is read. -/
theorem run_and_reads_readBody_of_excess (width : PointerWidth) {body countAt : Address}
    (hcountAt : countAt.val = body.val + 4) (hflags : target.HoldsWord body.val 4 flags)
    (hcount : target.HoldsWord countAt.val 4 count) (hexcess : limits.itaniumBases < count) :
    (ClassGraph.readBody width limits body .manyBases).run target =
        .error (.corruptHierarchy "base_count" count) ∧
      (ClassGraph.readBody width limits body .manyBases).reads target =
        [⟨body, 4, false⟩, ⟨countAt, 4, false⟩] := by
  have hflags := Inspection.run_word32 hflags
  have hcount := Inspection.run_word32 hcount
  constructor
  · rw [ClassGraph.readBody, Inspection.run_bind_of_ok hflags, Inspection.run_add_bind hcountAt,
      Inspection.run_bind_of_ok hcount, if_pos hexcess]
    rfl
  · rw [ClassGraph.readBody, Inspection.reads_bind_of_ok hflags,
      Inspection.reads_add_bind hcountAt, Inspection.reads_bind_of_ok hcount, if_pos hexcess,
      Inspection.word32, Inspection.word32, Inspection.reads_word, Inspection.reads_word]
    rfl

/-- The bases of a class are read back, if their records begin at an address: in
order, with their signed offsets and their flags.  The address is computed even if
there are no records.  A class with more bases than are allowed is refused by their
number, after the same reads as always up to the number. -/
theorem run_expand_of_declared (flags : Nat)
    (hknown : HasManyBases target width limits typeInfo name) :
    (∀ bases : List DeclaredBase, (∀ base ∈ bases, base.Fits width) →
      bases.length ≤ limits.itaniumBases →
      ClassGraph.HoldsBases target width id (typeInfo.val + 2 * width.bytes)
        (DeclaredBase.shape width flags bases) →
      ((bases = [] → ¬ EndsAtTop width typeInfo) →
        (expand width limits typeInfo).run target =
          .ok ⟨name, .manyBases, flags, bases.map (·.record)⟩) ∧
      (bases = [] → EndsAtTop width typeInfo →
        ∃ body : Address, body.val = typeInfo.val + 2 * width.bytes ∧
          (expand width limits typeInfo).run target =
            .error (.unknownStructure (.overflow body 8)))) ∧
    (∀ base : DeclaredBase, base.record.typeInfo = base.typeInfo ∧
      base.record.offset = base.offset ∧
      base.record.isVirtual = base.flags.toNat.testBit 0 ∧
      base.record.isPublic = base.flags.toNat.testBit 1) ∧
    ∀ count, target.HoldsWord (typeInfo.val + 2 * width.bytes) 4 flags →
      target.HoldsWord (typeInfo.val + 2 * width.bytes + 4) 4 count →
      limits.itaniumBases < count →
      (expand width limits typeInfo).run target = .error (.corruptHierarchy "base_count" count) ∧
      ∃ body countAt : Address, body.val = typeInfo.val + 2 * width.bytes ∧
        countAt.val = body.val + 4 ∧
        (expand width limits typeInfo).reads target =
          (identify width limits typeInfo).reads target ++
            (nameOf width limits typeInfo).reads target ++
            [⟨body, 4, false⟩, ⟨countAt, 4, false⟩] := by
  refine ⟨fun bases hfits hfew hheld => ?_, fun base => ?_, fun count hflags hcount hexcess => ?_⟩
  · obtain ⟨body, hbody⟩ := hheld.1.exists_address
    rw [← hbody] at hheld
    rw [run_expand_eq_of_many hknown hbody]
    constructor
    · intro hroom
      have hread : (ClassGraph.readBody width limits body .manyBases).run target =
          .ok (flags, (DeclaredBase.shape width flags bases).records width id) := by
        refine ClassGraph.run_readBody hheld ?_ ?_
        · simpa [DeclaredBase.shape, Shape.bases] using hfew
        · intro _ hshape
          have hnone : bases = [] := by simpa [DeclaredBase.shape] using (Shape.many.inj hshape).2
          have hbelow := hroom hnone
          rw [EndsAtTop] at hbelow
          omega
      rw [hread, DeclaredBase.records_shape hfits]
      rfl
    · rintro rfl htop
      rw [EndsAtTop] at htop
      rw [ClassGraph.run_readBody_of_top hheld (by omega)]
      exact ⟨body, hbody, rfl⟩
  · exact ⟨rfl, base.offset_record, base.isVirtual_record, base.isPublic_record⟩
  · obtain ⟨body, hbody⟩ := hflags.exists_address
    rw [← hbody] at hflags hcount
    obtain ⟨countAt, hcountAt⟩ := hcount.exists_address
    rw [← hcountAt] at hcount
    obtain ⟨hrun, hreads⟩ :=
      run_and_reads_readBody_of_excess width hcountAt hflags hcount hexcess
    refine ⟨by rw [run_expand_eq_of_many hknown hbody, hrun]; rfl, body, countAt, hbody,
      hcountAt, ?_⟩
    obtain ⟨hkind, hname⟩ := hasManyBases_iff.1 hknown
    rw [ClassGraph.expand_eq, Inspection.reads_bind_of_ok hkind,
      Inspection.reads_bind_of_ok hname, Inspection.reads_add_bind hbody,
      Inspection.reads_bind_of_error hrun, hreads, List.append_assoc]

/-! ## An example -/

/-- A process with the `type_info` of `Derived`, which declares these bases. -/
def derivedListing (width : PointerWidth) (typeInfoAt : Nat) (bases : List DeclaredBase) :
    Snapshot :=
  let words := List.flatMap (Word.toBytes width.bytes)
  let halves := List.flatMap (Word.toBytes 4)
  let text (units : Nat) (s : String) := (Utf8.encode s).rightpad units 0
  let records := bases.flatMap fun base =>
    [base.typeInfo.val, Word.ofSigned width.bytes base.offsetFlags]
  [ (typeInfoAt, words [0x40000 + 4 * width.bytes, 0x50000] ++ halves [5, bases.length] ++
      words records),
    (0x40000, words [0x60000]), (0x50000, text 8 "7Derived"),
    (0x60000, text 64 "N10__cxxabiv121__vmi_class_type_infoE")].foldl
    (fun s region => s.addRegion (.ofNat region.1) region.2) ⟨width, none, .empty⟩

/-- A virtual base below its class and a base above it, in a process of 32 bits; the
same two bases where one is allowed; and no bases at the end of the address space. -/
theorem run_expand_derivedListing :
    let bases : List DeclaredBase := [⟨.ofNat 0x30100, -24, 3⟩, ⟨.ofNat 0x30200, 16, 2⟩]
    let listing := (derivedListing .bits32 0x30000 bases).target
    let top := (derivedListing .bits64 0xFFFFFFFFFFFFFFE8 []).target
    (expand .bits32 { nameUnits := 8 } (.ofNat 0x30000)).run listing =
      .ok ⟨"Derived", .manyBases, 5,
        [⟨.ofNat 0x30100, -24 * 256 + 3⟩, ⟨.ofNat 0x30200, 16 * 256 + 2⟩]⟩ ∧
    (expand .bits32 { nameUnits := 8, itaniumBases := 1 } (.ofNat 0x30000)).run listing =
      .error (.corruptHierarchy "base_count" 2) ∧
    ∃ body : Address, (expand .bits64 { nameUnits := 8 } (.ofNat 0xFFFFFFFFFFFFFFE8)).run top =
      .error (.unknownStructure (.overflow body 8)) := by
  intro bases listing top
  have hknown : HasManyBases listing .bits32 { nameUnits := 8 } (.ofNat 0x30000) "Derived" :=
    hasManyBases_iff.2 ⟨by decide +kernel, by decide +kernel⟩
  have hknownFew : HasManyBases listing .bits32 { nameUnits := 8, itaniumBases := 1 }
      (.ofNat 0x30000) "Derived" :=
    hasManyBases_iff.2 ⟨by decide +kernel, by decide +kernel⟩
  have hknownTop : HasManyBases top .bits64 { nameUnits := 8 } (.ofNat 0xFFFFFFFFFFFFFFE8)
      "Derived" :=
    hasManyBases_iff.2 ⟨by decide +kernel, by decide +kernel⟩
  refine ⟨?_, ?_, ?_⟩
  · have hread := (run_expand_of_declared 5 hknown).1 bases (by decide) (by decide)
      (by decide +kernel)
    exact hread.1 fun hnone => absurd hnone (List.cons_ne_nil _ _)
  · have hexcess := (run_expand_of_declared 5 hknownFew).2.2 2 (by decide +kernel)
      (by decide +kernel) (by decide)
    exact hexcess.1
  · have htop := (run_expand_of_declared 5 hknownTop).1 [] nofun (by decide)
      (by decide +kernel)
    obtain ⟨body, -, hoverflow⟩ := htop.2 rfl (by unfold EndsAtTop; decide)
    exact ⟨body, hoverflow⟩

end Rtti.Itanium
