import Rtti.Proofs.Itanium.Expansion
import Rtti.Proofs.Memory.Places

/-!
# Where a walk reads

A walk over an Itanium class graph reads at fixed distances from the `type_info`s
to which the pointers to bases lead (`Itanium.Leads`), and at the two names to
which each of them points.  `Itanium.ReadPlace` lists these places, and
`Itanium.confined_decode` says that a walk reads at no other.

The only pointer that is checked is that from a `type_info` to the vtable of its
own class.  As long as the class of a `type_info` is not known, nothing behind the
pointer to its name is read.
-/

namespace Rtti.Itanium

open Inspection

/-! ## Places -/

/-- The distance from a `type_info` to the first of its base records. -/
def recordsOffset (width : PointerWidth) : Nat := 2 * width.bytes + 8

/-- The distance from a `type_info` to the record of a base. -/
def recordOffset (width : PointerWidth) (index : Nat) : Nat :=
  recordsOffset width + 2 * width.bytes * index

/-- The `type_info` has a base record of the given number: it is known to
describe a class with many bases, and so few that they are read. -/
def HasRecord (target : Target) (limits : Limits) (typeInfo : Address) (index : Nat) : Prop :=
  (identify target.width limits typeInfo).run target = .ok .manyBases ∧
    ∃ count ≤ limits.itaniumBases,
      target.HoldsWord (typeInfo.val + (2 * target.width.bytes + 4)) 4 count ∧ index < count

/-- The `type_info`s to which the bases of a class lead.  Pointers to bases are
not checked. -/
inductive Leads (target : Target) (limits : Limits) (root : Address) : Address → Prop where
  | root : Leads target limits root root
  | onlyBase {typeInfo base : Address} (hfrom : Leads target limits root typeInfo)
      (hkind : (identify target.width limits typeInfo).run target = .ok .singleBase)
      (hpointer : target.HoldsWord (typeInfo.val + 2 * target.width.bytes) target.width.bytes
        base.val) : Leads target limits root base
  | record {typeInfo base : Address} {index : Nat} (hfrom : Leads target limits root typeInfo)
      (hrecord : HasRecord target limits typeInfo index)
      (hpointer : target.HoldsWord (typeInfo.val + recordOffset target.width index)
        target.width.bytes base.val) : Leads target limits root base

/-- The distances from a `type_info` to its own words.  What follows the name is
looked at only when the class of the `type_info` is known. -/
inductive FieldOffset (target : Target) (limits : Limits) (typeInfo : Address) : Nat → Prop where
  | vtable : FieldOffset target limits typeInfo 0
  | name : FieldOffset target limits typeInfo target.width.bytes
  | onlyBase (hkind : (identify target.width limits typeInfo).run target = .ok .singleBase) :
      FieldOffset target limits typeInfo (2 * target.width.bytes)
  | flags (hkind : (identify target.width limits typeInfo).run target = .ok .manyBases) :
      FieldOffset target limits typeInfo (2 * target.width.bytes)
  | count (hkind : (identify target.width limits typeInfo).run target = .ok .manyBases) :
      FieldOffset target limits typeInfo (2 * target.width.bytes + 4)
  | base {index : Nat} (hrecord : HasRecord target limits typeInfo index) :
      FieldOffset target limits typeInfo (recordOffset target.width index)
  | baseFlags {index : Nat} (hrecord : HasRecord target limits typeInfo index) :
      FieldOffset target limits typeInfo (recordOffset target.width index + target.width.bytes)

/-- The place, four pointers before a plausible vtable of a `type_info`, of the
pointer to the name of that vtable's class. -/
def ClassNameSlot (target : Target) (typeInfo : Address) (slot : Nat) : Prop :=
  ∃ vtable : Address, target.HoldsWord typeInfo.val target.width.bytes vtable.val ∧
    vtable.isPlausible target.width = true ∧ vtable.val = slot + 4 * target.width.bytes

/-- Where the walk from a `type_info` may read. -/
inductive ReadPlace (target : Target) (limits : Limits) (root : Address) : Address → Prop where
  | field {typeInfo address : Address} {offset : Nat} (hfrom : Leads target limits root typeInfo)
      (hoffset : FieldOffset target limits typeInfo offset)
      (haddress : address.val = typeInfo.val + offset) : ReadPlace target limits root address
  | classNameSlot {typeInfo address : Address} (hfrom : Leads target limits root typeInfo)
      (hslot : ClassNameSlot target typeInfo address.val) : ReadPlace target limits root address
  /-- The name of the class of a `type_info`'s vtable; its pointer is not
  checked. -/
  | className {typeInfo address : Address} {slot : Nat}
      (hfrom : Leads target limits root typeInfo) (hslot : ClassNameSlot target typeInfo slot)
      (hpointer : target.HoldsWord slot target.width.bytes address.val) :
      ReadPlace target limits root address
  /-- The name of the class that a `type_info` describes; its pointer is not
  checked.  No name is read if 64 bits do not hold its size. -/
  | name {typeInfo address : Address} (hfrom : Leads target limits root typeInfo)
      (hpointer : target.HoldsWord (typeInfo.val + target.width.bytes) target.width.bytes
        address.val)
      (hsize : limits.nameUnits * limits.encoding.unitSize < 0x10000000000000000) :
      ReadPlace target limits root address

/-! ## Classes -/

variable {target : Target} {limits : Limits} {root typeInfo records : Address}

theorem confined_identify (hfrom : Leads target limits root typeInfo) :
    (identify target.width limits typeInfo).Confined target (ReadPlace target limits root)
      fun _ => True := by
  unfold identify
  apply confined_pointer_bind (.field hfrom .vtable rfl)
  intro vtable hvtable
  split
  · exact confined_fail _
  · next hsound =>
    apply confined_sub_bind
    intro slot hslot
    have hslot : ClassNameSlot target typeInfo slot.val :=
      ⟨vtable, hvtable, by simpa using hsound, hslot⟩
    apply confined_pointer_bind (.classNameSlot hfrom hslot)
    intro nameAt hnameAt
    apply confined_text_bind fun _ => .className hfrom hslot hnameAt
    intro mangled
    dsimp only
    split
    · exact confined_done trivial
    · exact confined_fail _

theorem confined_nameOf (hfrom : Leads target limits root typeInfo) :
    (nameOf target.width limits typeInfo).Confined target (ReadPlace target limits root)
      fun _ => True := by
  unfold nameOf
  apply confined_add_bind
  intro slot hslot
  apply confined_pointer_bind (.field hfrom .name hslot)
  intro nameAt hnameAt
  apply confined_text_bind (.name hfrom (hslot ▸ hnameAt))
  intro mangled
  exact confined_done trivial

/-- Each base record gives a `type_info` that its pointer leads to. -/
theorem confined_readBases (hfrom : Leads target limits root typeInfo)
    (hrecords : records.val = typeInfo.val + recordsOffset target.width) {count index : Nat}
    (hrecord : ∀ i < index + count, HasRecord target limits typeInfo i) :
    (readBases target.width records count index).Confined target (ReadPlace target limits root)
      fun bases => ∀ base ∈ bases, Leads target limits root base.typeInfo := by
  induction count generalizing index with
  | zero => exact confined_done nofun
  | succ count ih =>
    unfold readBases
    have hhas : HasRecord target limits typeInfo index := hrecord index (by omega)
    apply confined_add_bind
    intro record hplace
    have hplace : record.val = typeInfo.val + recordOffset target.width index := by
      rw [hplace, hrecords, recordOffset, Nat.add_assoc]
    apply confined_pointer_bind (.field hfrom (.base hhas) hplace)
    intro base hbase
    apply confined_add_bind
    intro flagsAt hflagsAt
    apply confined_long_bind
      (.field hfrom (.baseFlags hhas) (by rw [hflagsAt, hplace, Nat.add_assoc]))
    intro offsetFlags
    refine (ih fun i hi => hrecord i (by omega)).bind fun rest _ hrest => confined_done ?_
    exact List.forall_mem_cons.2 ⟨.record hfrom hhas (hplace ▸ hbase), hrest⟩

theorem confined_expand (hfrom : Leads target limits root typeInfo) :
    (expand target.width limits typeInfo).Confined target (ReadPlace target limits root)
      fun node => ∀ base ∈ node.bases, Leads target limits root base.typeInfo := by
  unfold expand
  refine (confined_identify hfrom).bind fun kind hkind _ => ?_
  refine (confined_nameOf hfrom).bind fun name _ _ => ?_
  apply confined_add_bind
  intro body hbody
  cases kind with
  | leaf => exact confined_done nofun
  | singleBase =>
    apply confined_pointer_bind (.field hfrom (.onlyBase hkind) hbody)
    intro base hbase
    exact confined_done (List.forall_mem_singleton.2 (.onlyBase hfrom hkind (hbody ▸ hbase)))
  | manyBases =>
    apply confined_word32_bind (.field hfrom (.flags hkind) hbody)
    intro flags _
    apply confined_add_bind
    intro countAt hcountAt
    have hcountAt : countAt.val = typeInfo.val + (2 * target.width.bytes + 4) := by
      rw [hcountAt, hbody, Nat.add_assoc]
    apply confined_word32_bind (.field hfrom (.count hkind) hcountAt)
    intro count hcount
    split
    · exact confined_fail _
    · next hfew =>
      apply confined_add_bind
      intro records hrecords
      have hrecords : records.val = typeInfo.val + recordsOffset target.width := by
        rw [hrecords, hbody, recordsOffset, Nat.add_assoc]
      have hrecord : ∀ i < 0 + count, HasRecord target limits typeInfo i := fun i hi =>
        ⟨hkind, count, by omega, hcountAt ▸ hcount, by omega⟩
      exact (confined_readBases hfrom hrecords hrecord).bind fun bases _ hbases =>
        confined_done hbases

theorem confined_namedBases (hfrom : Leads target limits root typeInfo) :
    (namedBases target.width limits typeInfo).Confined target (ReadPlace target limits root)
      fun bases => ∀ base ∈ bases, Leads target limits root base.2 := by
  unfold namedBases
  refine (confined_expand hfrom).bind fun node _ hbases => ?_
  refine (confined_mapM fun base hbase => confined_nameOf (hbases base hbase)).bind
    fun names _ _ => confined_done ?_
  intro base hbase
  obtain ⟨record, hrecord, hsame⟩ := List.mem_map.1 (List.of_mem_zip hbase).2
  exact hsame ▸ hbases record hrecord

/-! ## Walks -/

namespace Walk

variable {walk : Walk}

/-- Where the walk takes its classes to lie, their bases led. -/
def LocatedByBases (target : Target) (limits : Limits) (root : Address) (walk : Walk) : Prop :=
  ∀ name typeInfo, walk.located.get? name = some typeInfo → Leads target limits root typeInfo

theorem LocatedByBases.extend (hlocated : walk.LocatedByBases target limits root) {name : String}
    {bases : List (String × Address)} {stack : List String}
    (hbases : ∀ base ∈ bases, Leads target limits root base.2) :
    (walk.extend name typeInfo bases stack).LocatedByBases target limits root := by
  intro other found hfound
  rcases mem_or_located_of_extend hfound with hmem | hbefore
  · exact hbases _ hmem
  · exact hlocated other found hbefore

/-- A walk goes only where bases lead, by induction on the classes that it may
still expand. -/
theorem confined_finish (hlocated : walk.LocatedByBases target limits root) {budget : Nat} :
    (walk.finish target.width limits budget).Confined target (ReadPlace target limits root)
      fun _ => True := by
  induction budget generalizing walk with
  | zero =>
    cases hnext : walk.stack.dropWhile (· ∈ walk.visited) with
    | nil =>
      rw [finish_of_done hnext]
      exact confined_done trivial
    | cons name stack =>
      rw [finish_full hnext]
      exact confined_fail _
  | succ budget ih =>
    cases hnext : walk.stack.dropWhile (· ∈ walk.visited) with
    | nil =>
      rw [finish_of_done hnext]
      exact confined_done trivial
    | cons name stack =>
      cases hfound : walk.located.get? name with
      | none =>
        rw [finish_unlocated hnext hfound]
        exact confined_fail _
      | some typeInfo =>
        rw [finish_succ hnext hfound]
        refine (confined_namedBases (hlocated name typeInfo hfound)).bind fun bases _ hbases => ?_
        exact ih (hlocated.extend hbases)

end Walk

theorem confined_decode (target : Target) (limits : Limits) (root : Address) :
    (decode target.width limits root).Confined target (ReadPlace target limits root)
      fun _ => True := by
  unfold decode
  refine (confined_nameOf .root).bind fun name _ _ => ?_
  split
  · exact confined_fail _
  · have hstart : (Walk.start name root).LocatedByBases target limits root := by
      intro other found hfound
      obtain ⟨rfl, rfl⟩ := Walk.eq_of_located_start hfound
      exact .root
    exact (Walk.confined_finish hstart).bind fun walk _ _ => confined_done trivial

/-- The walk begins with the name of its root, wherever the pointer to it
leads. -/
theorem readsAt_name {nameAt : Address}
    (hsize : limits.nameUnits * limits.encoding.unitSize < 0x10000000000000000)
    (hpointer : target.HoldsWord (root.val + target.width.bytes) target.width.bytes nameAt.val) :
    (decode target.width limits root).ReadsAt target nameAt := by
  obtain ⟨slot, hslot⟩ := hpointer.exists_address
  refine ReadsAt.bind ?_ _
  refine readsAt_bind_of_ok (run_lift (Address.add_eq_ok_iff.2 hslot)) ?_
  refine readsAt_bind_of_ok (run_pointer (hslot ▸ hpointer)) ?_
  rw [text_eq hsize]
  exact readsAt_read _ _

end Rtti.Itanium
