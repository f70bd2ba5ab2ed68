import Rtti.Proofs.Memory.Content
import Rtti.Proofs.Msvc.Tree

/-!
# Object locators in memory

`ClassTree.HoldsLocator` says that a memory holds a complete object locator
with all that it leads to: the hierarchy descriptor, the base class array in
pre-order, the base class descriptors and the type descriptors of a tree of
classes.  Both forms of links are covered.  What the reader finds at each step
follows, one lemma for each part of the way.
-/

namespace Rtti.Msvc

/-! ## Links -/

/-- Where links count from. -/
def Links.origin : Links → Nat
  | relative imageBase => imageBase.val
  | absolute => 0

/-- The memory holds a link to an address. -/
def HoldsLink (target : Target) (links : Links) (position : Nat) (address : Address) : Prop :=
  ∃ link, link ≠ 0 ∧ links.origin + link = address.val ∧ target.HoldsWord position 4 link

/-- The links of the image with the locator are meant in this way.  In a 64-bit
target the locator holds its own offset in the image, which is not zero. -/
def HoldsLinks (target : Target) (locator : Address) : PointerWidth → Links → Prop
  | .bits64, .relative imageBase =>
    ∃ self, self ≠ 0 ∧ imageBase.val + self = locator.val ∧
      target.HoldsWord (locator.val + 0x14) 4 self
  | .bits32, .absolute => True
  | _, _ => False

variable {target : Target} {width : PointerWidth} {limits : Limits} {undecorate : Undecorator}
  {links : Links} {position : Nat} {locator address : Address}

theorem resolve_of_origin {link : Nat} (horigin : links.origin + link = address.val) :
    links.resolve link = .ok address := by
  cases links with
  | relative imageBase => exact Address.add_eq_ok_iff.2 horigin.symm
  | absolute =>
    have hlink : link = address.val := by
      rw [← horigin]
      exact (Nat.zero_add link).symm
    have hlt := address.val_lt
    rw [Links.resolve, hlink]
    exact congrArg Except.ok (Address.ext (Address.val_ofNat hlt))

theorem holdsLink_of_resolve {link : Nat} (hlink : link ≠ 0)
    (hholds : target.HoldsWord position 4 link) (hresolve : links.resolve link = .ok address) :
    HoldsLink target links position address := by
  refine ⟨link, hlink, ?_, hholds⟩
  cases links with
  | relative imageBase => exact (Address.add_eq_ok_iff.1 hresolve).symm
  | absolute =>
    obtain rfl := Except.ok.inj hresolve
    have hlt : link < 0x100000000 := hholds.1
    rw [Address.val_ofNat (by omega)]
    exact Nat.zero_add link

theorem run_readLinks (hlinks : HoldsLinks target locator width links) :
    (readLinks width locator).run target = .ok links := by
  match width, links, hlinks with
  | .bits32, .absolute, _ => rfl
  | .bits64, .relative imageBase, ⟨self, hself, hbase, hword⟩ =>
    have hsub : locator.sub self = .ok imageBase := Address.sub_eq_ok_iff.2 hbase.symm
    rw [readLinks, Inspection.run_word32_add_bind hword, if_neg hself,
      Inspection.run_bind_of_ok (Inspection.run_lift hsub)]
    rfl

/-! ## Names -/

/-- The displayed name of a class. -/
def shown (undecorate : Undecorator) (raw : String) : String :=
  if Text.endsIn raw "@@" then (undecorate ("?" ++ raw)).toOption.getD "" else raw

theorem displayName_eq_ok {raw : String}
    (hworks : Text.endsIn raw "@@" → (undecorate ("?" ++ raw)).isOk) :
    displayName undecorate raw = .ok (shown undecorate raw) := by
  unfold displayName shown
  by_cases hends : Text.endsIn raw "@@"
  · have hworks := hworks hends
    rw [if_pos hends, if_pos hends]
    cases hname : undecorate ("?" ++ raw) with
    | ok name => rfl
    | error complaint =>
      rw [hname] at hworks
      contradiction
  · rw [if_neg hends, if_neg hends]

/-! ## Entries -/

/-- The type descriptor of a class holds its raw name, behind two pointers and the four
characters that tell the kind of the type. -/
def HoldsName (target : Target) (type : Address) (units : Nat) (raw : String) :
    PointerWidth → Prop
  | .bits64 => target.HoldsText (type.val + 0x14) units raw
  | .bits32 => target.HoldsText (type.val + 0x0C) units raw

/-- The name is where the decoder reads it. -/
theorem holdsText_of_holdsName {type : Address} {units : Nat} {raw : String}
    (hname : HoldsName target type units raw width) :
    target.HoldsText (type.val + nameOffset width) units raw := by
  cases width with
  | bits32 => exact hname
  | bits64 => exact hname

/-- The memory holds an entry of a base class array, given with its raw name
and its number of contained bases. -/
def HoldsEntry (target : Target) (width : PointerWidth) (units : Nat) (links : Links)
    (position : Nat) (entry : String × Nat) : Prop :=
  ∃ base type : Address, HoldsLink target links position base ∧
    HoldsLink target links base.val type ∧
    HoldsName target type units entry.1 width ∧
    target.HoldsWord (base.val + 4) 4 entry.2

/-- A name that can be stored and shown. -/
structure Nameable (undecorate : Undecorator) (raw : String) : Prop where
  ne_empty : raw ≠ ""
  null_not_mem : '\x00' ∉ raw.toList
  /-- The undecorator does not break down. -/
  undecorated : Text.endsIn raw "@@" → (undecorate ("?" ++ raw)).isOk

def descriptor (undecorate : Undecorator) (entry : String × Nat) : Descriptor :=
  ⟨shown undecorate entry.1, entry.2⟩

theorem run_readDescriptor {array : BaseArray} {index : Nat} {entry : String × Nat}
    (hheld : HoldsEntry target width limits.nameUnits array.links
      (array.start.val + 4 * index) entry)
    (hname : Nameable undecorate entry.1) (hencoding : limits.encoding = .utf8)
    (hunits : limits.nameUnits < 0x10000000000000000) :
    (readDescriptor width limits undecorate array index).run target =
      .ok (some (descriptor undecorate entry)) := by
  obtain ⟨base, type, ⟨baseLink, hbaseLink, hbase, hbaseWord⟩,
    ⟨typeLink, htypeLink, htype, htypeWord⟩, htext, hcontained⟩ := hheld
  have hnamed : entry.1.isEmpty = false := by
    simpa [String.isEmpty_iff] using hname.ne_empty
  rw [readDescriptor, Inspection.run_word32_add_bind hbaseWord, if_neg hbaseLink,
    Inspection.run_bind_of_ok (Inspection.run_lift (resolve_of_origin hbase)),
    Inspection.run_bind_of_ok (Inspection.run_word32 htypeWord), if_neg htypeLink,
    Inspection.run_bind_of_ok (Inspection.run_lift (resolve_of_origin htype)), hencoding,
    Inspection.run_text_add_bind (holdsText_of_holdsName htext) hname.null_not_mem hunits, hnamed,
    if_neg Bool.false_ne_true,
    Inspection.run_bind_of_ok (Inspection.run_lift (displayName_eq_ok hname.undecorated)),
    Inspection.run_word?_add_bind hcontained]
  rfl

theorem run_readDescriptors {array : BaseArray} {entries : List (String × Nat)} {index : Nat}
    (hheld : ∀ (i : Nat) (_ : i < entries.length), HoldsEntry target width limits.nameUnits
      array.links (array.start.val + 4 * (index + i)) entries[i])
    (hnames : ∀ entry ∈ entries, Nameable undecorate entry.1)
    (hencoding : limits.encoding = .utf8) (hunits : limits.nameUnits < 0x10000000000000000) :
    (readDescriptors width limits undecorate array entries.length index).run target =
      .ok (entries.map (descriptor undecorate)) := by
  induction entries generalizing index with
  | nil => rfl
  | cons entry entries ih =>
    obtain ⟨hname, hnames⟩ := List.forall_mem_cons.1 hnames
    have hfirst : (readDescriptor width limits undecorate array index).run target =
        .ok (some (descriptor undecorate entry)) :=
      run_readDescriptor (hheld 0 (Nat.succ_pos _)) hname hencoding hunits
    have hlater : ∀ (i : Nat) (_ : i < entries.length), HoldsEntry target width limits.nameUnits
        array.links (array.start.val + 4 * (index + 1 + i)) entries[i] := by
      intro i hi
      have := hheld (i + 1) (Nat.succ_lt_succ hi)
      rw [show index + (i + 1) = index + 1 + i by omega] at this
      exact this
    rw [List.length_cons, readDescriptors, Inspection.run_bind_of_ok hfirst]
    simp only
    rw [Inspection.run_bind_of_ok (ih hlater hnames)]
    rfl

/-! ## Locators -/

/-- The memory holds the locator of an object and what it leads to. -/
structure ClassTree.HoldsLocator (tree : ClassTree) (target : Target) (width : PointerWidth)
    (units : Nat) (links : Links) (hierarchy array locator : Address) : Prop where
  image : HoldsLinks target locator width links
  hierarchyLink : HoldsLink target links (locator.val + 0x10) hierarchy
  count : target.HoldsWord (hierarchy.val + 0x08) 4 tree.preorder.length
  arrayLink : HoldsLink target links (hierarchy.val + 0x0C) array
  /-- The classes are listed in pre-order with their numbers of descendants. -/
  entry (i : Nat) (_ : i < tree.preorder.length) :
    HoldsEntry target width units links (array.val + 4 * i) tree.preorder[i]

theorem run_readBaseArray {tree : ClassTree} {units : Nat} {hierarchy array : Address}
    (hheld : tree.HoldsLocator target width units links hierarchy array locator)
    (hsome : tree.preorder.length ≠ 0) (hfew : tree.preorder.length ≤ limits.msvcBases) :
    (readBaseArray width limits locator).run target =
      .ok ⟨links, array, tree.preorder.length⟩ := by
  obtain ⟨hierarchyLink, hhierarchyLink, hhierarchy, hhierarchyWord⟩ := hheld.hierarchyLink
  obtain ⟨arrayLink, harrayLink, harray, harrayWord⟩ := hheld.arrayLink
  have hvalid : ¬ (tree.preorder.length = 0 ∨ limits.msvcBases < tree.preorder.length) := by
    omega
  rw [readBaseArray, Inspection.run_bind_of_ok (run_readLinks hheld.image),
    Inspection.run_word32_add_bind hhierarchyWord, if_neg hhierarchyLink,
    Inspection.run_bind_of_ok (Inspection.run_lift (resolve_of_origin hhierarchy)),
    Inspection.run_word32_add_bind hheld.count, if_neg hvalid,
    Inspection.run_word32_add_bind harrayWord, if_neg harrayLink,
    Inspection.run_bind_of_ok (Inspection.run_lift (resolve_of_origin harray))]
  rfl

end Rtti.Msvc
