import Rtti.Proofs.Memory.Places
import Rtti.Proofs.Msvc.Layout

/-!
# Where the way from a locator reads

All reads on the way from an object locator start at fixed distances from the
locator and from the addresses to which links lead.  `Msvc.ReadPlace` lists these
places, and `Msvc.confined_decode` says that there are no others.  A link is
followed if it is not zero; where it leads is not checked.
-/

namespace Rtti.Msvc

open Inspection

/-! ## Places -/

/-- The base class array of a locator is found at the end of two links, of which
neither is checked, and has no more entries than are read. -/
structure FoundArray (target : Target) (limits : Limits) (locator hierarchy : Address)
    (array : BaseArray) : Prop where
  holdsLinks : HoldsLinks target locator target.width array.links
  hierarchyLink : HoldsLink target array.links (locator.val + 0x10) hierarchy
  holdsCount : target.HoldsWord (hierarchy.val + 0x08) 4 array.count
  count_le : array.count ≤ limits.msvcBases
  arrayLink : HoldsLink target array.links (hierarchy.val + 0x0C) array.start

/-- Where the way from a locator may read.  No link is checked. -/
inductive ReadPlace (target : Target) (limits : Limits) (locator : Address) : Address → Prop where
  /-- The offset of the locator in a 64-bit image. -/
  | imageOffset {address : Address} (hwidth : target.width = .bits64)
      (haddress : address.val = locator.val + 0x14) : ReadPlace target limits locator address
  | hierarchyLink {address : Address} (haddress : address.val = locator.val + 0x10) :
      ReadPlace target limits locator address
  /-- The number of bases, or the link to their array. -/
  | hierarchy {links : Links} {hierarchy address : Address} {offset : Nat}
      (hlinks : HoldsLinks target locator target.width links)
      (hhierarchy : HoldsLink target links (locator.val + 0x10) hierarchy)
      (hoffset : offset ∈ [0x08, 0x0C]) (haddress : address.val = hierarchy.val + offset) :
      ReadPlace target limits locator address
  | entry {hierarchy address : Address} {array : BaseArray} {index : Nat}
      (hfound : FoundArray target limits locator hierarchy array) (hindex : index < array.count)
      (haddress : address.val = array.start.val + 4 * index) :
      ReadPlace target limits locator address
  /-- The link to the type of a base, or the number of bases contained in it. -/
  | base {hierarchy base address : Address} {array : BaseArray} {index offset : Nat}
      (hfound : FoundArray target limits locator hierarchy array) (hindex : index < array.count)
      (hbase : HoldsLink target array.links (array.start.val + 4 * index) base)
      (hoffset : offset ∈ [0x00, 0x04]) (haddress : address.val = base.val + offset) :
      ReadPlace target limits locator address
  /-- The name of a base, if 64 bits hold its size. -/
  | name {hierarchy base type address : Address} {array : BaseArray} {index : Nat}
      (hfound : FoundArray target limits locator hierarchy array) (hindex : index < array.count)
      (hbase : HoldsLink target array.links (array.start.val + 4 * index) base)
      (htype : HoldsLink target array.links base.val type)
      (haddress : address.val = type.val + nameOffset target.width)
      (hsize : limits.nameUnits * limits.encoding.unitSize < 0x10000000000000000) :
      ReadPlace target limits locator address

variable {target : Target} {limits : Limits} {locator hierarchy address : Address} {links : Links}
  {array : BaseArray} {undecorate : Undecorator}

/-! ## The way from a locator -/

theorem confined_readLinks :
    (readLinks target.width locator).Confined target (ReadPlace target limits locator)
      (HoldsLinks target locator target.width) := by
  unfold readLinks
  split
  · next hwidth => exact confined_done (by rw [hwidth]; trivial)
  · next hwidth =>
    apply confined_add_bind
    intro selfAt hselfAt
    apply confined_word32_bind (.imageOffset hwidth hselfAt)
    intro self hself
    split
    · exact confined_fail _
    · next hnonzero =>
      apply confined_sub_bind
      intro imageBase hbase
      refine confined_done ?_
      rw [hwidth]
      exact ⟨self, hnonzero, hbase.symm, hselfAt ▸ hself⟩

theorem confined_readBaseArray :
    (readBaseArray target.width limits locator).Confined target (ReadPlace target limits locator)
      fun array => ∃ hierarchy, FoundArray target limits locator hierarchy array := by
  unfold readBaseArray
  refine confined_readLinks.bind fun links _ hlinks => ?_
  apply confined_add_bind
  intro hierarchyAt hhierarchyAt
  apply confined_word32_bind (.hierarchyLink hhierarchyAt)
  intro hierarchyLink hhierarchyLink
  split
  · exact confined_fail _
  · next hnonzero =>
    apply confined_lift_bind
    intro hierarchy hresolve
    have hhierarchy := holdsLink_of_resolve hnonzero (hhierarchyAt ▸ hhierarchyLink) hresolve
    apply confined_add_bind
    intro countAt hcountAt
    apply confined_word32_bind (.hierarchy hlinks hhierarchy (by decide) hcountAt)
    intro count hcount
    split
    · exact confined_fail _
    · next hfew =>
      have hcount_le : count ≤ limits.msvcBases := by omega
      apply confined_add_bind
      intro arrayAt harrayAt
      apply confined_word32_bind (.hierarchy hlinks hhierarchy (by decide) harrayAt)
      intro arrayLink harrayLink
      split
      · exact confined_fail _
      · next hnonzero =>
        apply confined_lift_bind
        intro start hresolve
        have harray := holdsLink_of_resolve hnonzero (harrayAt ▸ harrayLink) hresolve
        exact confined_done
          ⟨hierarchy, hlinks, hhierarchy, hcountAt ▸ hcount, hcount_le, harray⟩

theorem confined_readDescriptor (hfound : FoundArray target limits locator hierarchy array)
    {index : Nat} (hindex : index < array.count) :
    (readDescriptor target.width limits undecorate array index).Confined target
      (ReadPlace target limits locator) fun _ => True := by
  unfold readDescriptor
  apply confined_add_bind
  intro entryAt hentryAt
  apply confined_word32_bind (.entry hfound hindex hentryAt)
  intro baseLink hbaseLink
  split
  · exact confined_done trivial
  · next hnonzero =>
    apply confined_lift_bind
    intro base hresolve
    have hbase := holdsLink_of_resolve hnonzero (hentryAt ▸ hbaseLink) hresolve
    apply confined_word32_bind (.base hfound hindex hbase List.mem_cons_self rfl)
    intro typeLink htypeLink
    split
    · exact confined_done trivial
    · next hnonzero =>
      apply confined_lift_bind
      intro type hresolve
      have htype := holdsLink_of_resolve hnonzero htypeLink hresolve
      apply confined_add_bind
      intro nameAt hnameAt
      apply confined_text_bind (.name hfound hindex hbase htype hnameAt)
      intro raw
      split
      · exact confined_done trivial
      · apply confined_lift_bind
        intro name _
        apply confined_add_bind
        intro containedAt hcontainedAt
        apply confined_word?_bind (.base hfound hindex hbase (by decide) hcontainedAt)
        intro contained
        exact confined_done trivial

theorem confined_readDescriptors (hfound : FoundArray target limits locator hierarchy array)
    {count index : Nat} (hcount : index + count ≤ array.count) :
    (readDescriptors target.width limits undecorate array count index).Confined target
      (ReadPlace target limits locator) fun _ => True := by
  induction count generalizing index with
  | zero => exact confined_done trivial
  | succ count ih =>
    unfold readDescriptors
    refine (confined_readDescriptor hfound (by omega)).bind fun descriptor _ _ => ?_
    cases descriptor with
    | none => exact confined_done trivial
    | some descriptor => exact (ih (by omega)).bind fun _ _ _ => confined_done trivial

theorem confined_decode (target : Target) (limits : Limits) (undecorate : Undecorator)
    (locator : Address) :
    (decode target.width limits undecorate locator).Confined target
      (ReadPlace target limits locator) fun _ => True := by
  unfold decode
  refine confined_readBaseArray.bind fun array _ hfound => ?_
  obtain ⟨hierarchy, hfound⟩ := hfound
  refine (confined_readDescriptors hfound (by omega)).bind fun descriptors _ _ => ?_
  exact confined_lift fun _ _ => trivial

/-- The way from a locator goes on to the hierarchy, wherever the link to it
leads. -/
theorem readsAt_hierarchy {countAt : Address}
    (hlinks : HoldsLinks target locator target.width links)
    (hhierarchy : HoldsLink target links (locator.val + 0x10) hierarchy)
    (hcountAt : countAt.val = hierarchy.val + 0x08) :
    (decode target.width limits undecorate locator).ReadsAt target countAt := by
  obtain ⟨link, hnonzero, horigin, hlink⟩ := hhierarchy
  obtain ⟨linkAt, hlinkAt⟩ := hlink.exists_address
  refine ReadsAt.bind ?_ _
  refine readsAt_bind_of_ok (run_readLinks hlinks) ?_
  refine readsAt_bind_of_ok (run_lift (Address.add_eq_ok_iff.2 hlinkAt)) ?_
  refine readsAt_bind_of_ok (run_word32 (hlinkAt ▸ hlink)) ?_
  rw [if_neg hnonzero]
  refine readsAt_bind_of_ok (run_lift (resolve_of_origin horigin)) ?_
  refine readsAt_bind_of_ok (run_lift (Address.add_eq_ok_iff.2 hcountAt)) ?_
  exact readsAt_read _ _

end Rtti.Msvc
