import Rtti.Decoder
import Rtti.Memory.Snapshot
import Rtti.Proofs.Itanium.Places
import Rtti.Proofs.Msvc.Places

/-!
# Where the reads of a scan come from

A scan reads at no address of its own making: each read starts at the address
that the text spells, or at a fixed distance from a pointer that the target
holds.  `Decoder.ReadPlace` lists these places.  Four kinds of pointers are known
to be plausible before they are followed: that to the object, that to its vtable,
that to the type information, and those from a `type_info` to the vtable of its
own class.  All others are followed as they are, and a distance is added without
another look.

`Decoder.reads_decodeObject_places` says that a scan reads at these places only,
and that it does follow the pointer to the name of an Itanium class, and the link
to the hierarchy of an MSVC class, wherever they lead.
-/

namespace Rtti.Decoder

open Inspection

/-! ## Places -/

/-- The text spells the plausible address of an object, which begins with a
pointer to a plausible vtable. -/
def LeadsToVtable (target : Target) (text : String) (vtable : Address) : Prop :=
  ∃ object : Address, Address.parse text target.width = .ok object ∧
    object.isPlausible target.width = true ∧
    target.HoldsWord object.val target.width.bytes vtable.val ∧
    vtable.isPlausible target.width = true

/-- Before the vtable of the object stands a pointer to plausible type
information. -/
def LeadsToInformation (target : Target) (text : String) (information : Address) : Prop :=
  ∃ (vtable : Address) (slot : Nat), LeadsToVtable target text vtable ∧
    vtable.val = slot + target.width.bytes ∧
    target.HoldsWord slot target.width.bytes information.val ∧
    information.isPlausible target.width = true

/-- Where the scan of an object may read. -/
inductive ReadPlace (decoder : Decoder) (target : Target) (text : String) : Address → Prop where
  | object {object : Address} (hparse : Address.parse text target.width = .ok object)
      (hsound : object.isPlausible target.width = true) : ReadPlace decoder target text object
  | slot {vtable slot : Address} (hvtable : LeadsToVtable target text vtable)
      (hslot : vtable.val = slot.val + target.width.bytes) : ReadPlace decoder target text slot
  | itanium {information address : Address}
      (hinformation : LeadsToInformation target text information)
      (hbound : decoder.binding = .bound .itanium)
      (hplace : Itanium.ReadPlace target decoder.limits information address) :
      ReadPlace decoder target text address
  | msvc {information address : Address}
      (hinformation : LeadsToInformation target text information)
      (hbound : decoder.binding = .bound .msvc)
      (hplace : Msvc.ReadPlace target decoder.limits information address) :
      ReadPlace decoder target text address

/-! ## Reads at places -/

variable {decoder : Decoder} {target : Target} {undecorate : Msvc.Undecorator} {text : String}

theorem confined_decode {vtable : Address}
    (hvtable : vtable.isPlausible target.width = true → LeadsToVtable target text vtable) :
    (decoder.decode target.width undecorate vtable).Confined target
      (ReadPlace decoder target text) fun _ => True := by
  unfold decode
  split
  · exact confined_fail _
  · next abi hbound =>
    split
    · exact confined_fail _
    · next hsound =>
      have hvtable := hvtable (by simpa using hsound)
      apply confined_sub_bind
      intro slot hslot
      apply confined_pointer_bind (.slot hvtable hslot)
      intro information hinformation
      split
      · exact confined_fail _
      · next hsound =>
        have hleads : LeadsToInformation target text information :=
          ⟨vtable, slot.val, hvtable, hslot, hinformation, by simpa using hsound⟩
        cases abi with
        | msvc =>
          exact (Msvc.confined_decode target decoder.limits undecorate information).mono
            fun _ => .msvc hleads hbound
        | itanium =>
          exact (Itanium.confined_decode target decoder.limits information).mono
            fun _ => .itanium hleads hbound

theorem confined_decodeObject :
    (decoder.decodeObject target.width undecorate text).Confined target
      (ReadPlace decoder target text) fun _ => True := by
  unfold decodeObject
  apply confined_lift_bind
  intro object hparse
  split
  · exact confined_fail _
  · next hsound =>
    have hobject : object.isPlausible target.width = true := by simpa using hsound
    apply confined_pointer_bind (.object hparse hobject)
    intro vtable hvtable
    exact confined_decode fun hsound => ⟨object, hparse, hobject, hvtable, hsound⟩

/-- What a bound decoder does with plausible type information, the scan does. -/
theorem readsAt_decodeObject {information address : Address} {abi : Abi}
    (hinformation : LeadsToInformation target text information)
    (hbound : decoder.binding = .bound abi)
    (hreads : (match abi with
      | .msvc => Msvc.decode target.width decoder.limits undecorate information
      | .itanium => Itanium.decode target.width decoder.limits information).ReadsAt target
        address) :
    (decoder.decodeObject target.width undecorate text).ReadsAt target address := by
  obtain ⟨vtable, slot, ⟨object, hparse, hobject, hvtableAt, hvtable⟩, hslot, hpointer, hsound⟩ :=
    hinformation
  obtain ⟨slotAt, rfl⟩ := hpointer.exists_address
  unfold decodeObject
  refine readsAt_bind_of_ok (run_lift hparse) ?_
  simp only [hobject, Bool.not_true, Bool.false_eq_true, if_false]
  refine readsAt_bind_of_ok (run_pointer hvtableAt) ?_
  simp only [decode, hbound, hvtable, Bool.not_true, Bool.false_eq_true, if_false]
  refine readsAt_bind_of_ok (run_lift (Address.sub_eq_ok_iff.2 hslot)) ?_
  refine readsAt_bind_of_ok (run_pointer hpointer) ?_
  simp only [hsound, Bool.not_true, Bool.false_eq_true, if_false]
  exact hreads

/-- The reads of the scan of an object start where the text and the pointers in
the target lead, and only those to the object, to its vtable, to the type
information and to the vtable of a `type_info` are checked.  The scan follows the
pointer to the name of an Itanium class, unless 64 bits do not hold the size of a name,
and the link to the hierarchy of an MSVC class, wherever they lead. -/
theorem reads_decodeObject_places (decoder : Decoder) (target : Target)
    (undecorate : Msvc.Undecorator) (text : String) :
    (∀ access ∈ (decoder.decodeObject target.width undecorate text).reads target,
      ReadPlace decoder target text access.address) ∧
    ∀ information, LeadsToInformation target text information →
      (decoder.binding = .bound .itanium →
        decoder.limits.nameUnits * decoder.limits.encoding.unitSize < 0x10000000000000000 →
        ∀ nameAt : Address,
        target.HoldsWord (information.val + target.width.bytes) target.width.bytes nameAt.val →
        (decoder.decodeObject target.width undecorate text).ReadsAt target nameAt) ∧
      (decoder.binding = .bound .msvc → ∀ links hierarchy, ∀ countAt : Address,
        Msvc.HoldsLinks target information target.width links →
        Msvc.HoldsLink target links (information.val + 0x10) hierarchy →
        countAt.val = hierarchy.val + 0x08 →
        (decoder.decodeObject target.width undecorate text).ReadsAt target countAt) := by
  refine ⟨confined_decodeObject.allowed_of_mem, fun information hinformation => ⟨?_, ?_⟩⟩
  · intro hbound hsize nameAt hpointer
    exact readsAt_decodeObject hinformation hbound (Itanium.readsAt_name hsize hpointer)
  · intro hbound links hierarchy countAt hlinks hhierarchy hcountAt
    exact readsAt_decodeObject hinformation hbound
      (Msvc.readsAt_hierarchy hlinks hhierarchy hcountAt)

/-- A process of 32 bits with an object at `10000`.  In what should be its type
information the second word is too small to be a pointer, and the fifth is as
large as a word can be. -/
def strayTarget : Target :=
  let word := Word.toBytes 4
  let region (base : Nat) (words : List Nat) (s : Snapshot) :=
    s.addRegion (.ofNat base) (words.flatMap word)
  (region 0x10000 [0x20004] <| region 0x20000 [0x30000] <|
    region 0x30000 [0, 0x10, 0, 0, 0xFFFFFFFF] { width := .bits32 }).target

/-- One decoder reads in the first 64 KiB of that process, the other beyond its
32 bits. -/
theorem reads_decodeObject_stray :
    Decoder.LeadsToInformation strayTarget "10000" (.ofNat 0x30000) ∧
    ((⟨.bound .itanium, {}⟩ : Decoder).decodeObject .bits32 .ok "10000").ReadsAt strayTarget
      (.ofNat 0x10) ∧
    ((⟨.bound .msvc, {}⟩ : Decoder).decodeObject .bits32 .ok "10000").ReadsAt strayTarget
      (.ofNat 0x100000007) := by
  have hinformation : LeadsToInformation strayTarget "10000" (.ofNat 0x30000) := by
    refine ⟨.ofNat 0x20004, 0x20000, ⟨.ofNat 0x10000, ?_⟩, ?_⟩ <;> decide +kernel
  refine ⟨hinformation, ?_, ?_⟩
  · have hplaces := reads_decodeObject_places ⟨.bound .itanium, {}⟩ strayTarget .ok "10000"
    exact (hplaces.2 _ hinformation).1 rfl (by decide) (.ofNat 0x10) (by decide +kernel)
  · have hplaces := reads_decodeObject_places ⟨.bound .msvc, {}⟩ strayTarget .ok "10000"
    have hhierarchy : Msvc.HoldsLink strayTarget .absolute (0x30000 + 0x10) (.ofNat 0xFFFFFFFF) :=
      ⟨0xFFFFFFFF, by decide, by decide, by decide +kernel⟩
    exact (hplaces.2 _ hinformation).2 rfl .absolute _ (.ofNat 0x100000007) trivial hhierarchy
      (by decide)

end Rtti.Decoder
