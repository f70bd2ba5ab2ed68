import Rtti.Memory.Snapshot
import Rtti.Proofs.Decoder.Reads
import Rtti.Proofs.Memory.Extension

/-!
# Decoding with more memory

Capturing more memory keeps what is decoded.  A decoder that finds a hierarchy
on a target finds one on every extension of the target, with the same root and
the same names, and with the same map unless a number of contained bases could
not be read (`Decoder.run_decode_of_extendedBy`).

The numbers of contained bases are the only optional reads.  A decoder that
makes none of them, or whose optional reads all succeed, ends in the same way
on the extension.  In a base class array they tell the parents of the entries
but not their names, so the names stay even if one of them fails.
-/

namespace Rtti

open Inspection

variable {small large : Target} {width : PointerWidth} {limits : Limits}

/-! ## Parts without optional reads -/

/-- A part of a decoder that by its rule makes required reads only. -/
theorem Inspection.carries_of_keepsTo {α : Type} {rule : Rule} {breaks : String → Prop}
    {post : List Access → α → Prop} {x : Inspection α} (hextended : small.ExtendedBy large)
    (hx : x.KeepsTo rule breaks post [])
    (hrequired : ∀ before access, rule before access → access.isOptional = false) :
    x.Carries small large Eq x := by
  intro value hrun
  refine ⟨value, run_eq_of_extendedBy hextended (fun access haccess hoptional => ?_) hrun, rfl⟩
  obtain ⟨before, hrule⟩ := hx.exists_rule_of_mem_reads haccess
  rw [hrequired before access hrule] at hoptional
  contradiction

/-! ## Base class arrays -/

namespace Msvc

variable {undecorate : Undecorator} {array : BaseArray} {locator : Address}

theorem carries_readBaseArray (hextended : small.ExtendedBy large) :
    (readBaseArray width limits locator).Carries small large Eq
      (readBaseArray width limits locator) :=
  have hkeeps : (readBaseArray width limits locator).KeepsTo _ (fun _ => True) _ [] :=
    keepsTo_readBaseArray (Nat.zero_add _) (Nat.le_refl _)
  carries_of_keepsTo hextended hkeeps fun _ _ => isOptional_of_rule_linkReads

/-- The name of an entry does not depend on its number of contained bases. -/
theorem carries_readDescriptor (hextended : small.ExtendedBy large) (index : Nat) :
    (readDescriptor width limits undecorate array index).Carries small large
      (fun descriptor other => descriptor.map (·.name) = other.map (·.name))
      (readDescriptor width limits undecorate array index) := by
  unfold readDescriptor
  apply carries_lift_bind
  intro entryAt
  apply carries_word32_bind hextended
  intro baseLink
  split
  · exact carries_done rfl
  · apply carries_lift_bind
    intro base
    apply carries_word32_bind hextended
    intro typeLink
    split
    · exact carries_done rfl
    · apply carries_lift_bind
      intro type
      apply carries_lift_bind
      intro nameAt
      apply carries_text_bind hextended
      intro raw
      split
      · exact carries_done rfl
      · apply carries_lift_bind
        intro name
        apply carries_lift_bind
        intro containedAt
        apply carries_word?_bind
        intro contained other
        exact carries_done rfl

theorem carries_readDescriptors (hextended : small.ExtendedBy large) (count index : Nat) :
    (readDescriptors width limits undecorate array count index).Carries small large
      (fun descriptors others => descriptors.map (·.name) = others.map (·.name))
      (readDescriptors width limits undecorate array count index) := by
  induction count generalizing index with
  | zero => exact carries_done rfl
  | succ count ih =>
    unfold readDescriptors
    refine (carries_readDescriptor hextended index).bind fun descriptor other hname => ?_
    cases descriptor with
    | none =>
      obtain rfl : other = none := Option.map_eq_none_iff.1 hname.symm
      exact carries_done rfl
    | some descriptor =>
      obtain ⟨other, rfl, hsame⟩ := Option.map_eq_some_iff.1 hname.symm
      refine (ih (index + 1)).bind fun rest others hrest => carries_done ?_
      rw [List.map_cons, List.map_cons, hsame, hrest]

/-- The root and the names of a hierarchy are those of the entries. -/
theorem hierarchy_of_map_name_eq {descriptors others : List Descriptor}
    {h : ClassHierarchy} (hnames : descriptors.map (·.name) = others.map (·.name))
    (hdecoded : hierarchy descriptors = .ok h) :
    ∃ h', hierarchy others = .ok h' ∧ h.root = h'.root ∧ h.names = h'.names := by
  match descriptors, others, hnames with
  | [], _, _ => contradiction
  | first :: rest, first' :: rest', hnames =>
    obtain rfl := Except.ok.inj hdecoded
    rw [List.map_cons, List.map_cons, List.cons.injEq] at hnames
    refine ⟨_, rfl, hnames.1, ?_⟩
    show first.name :: rest.map (·.name) = first'.name :: rest'.map (·.name)
    rw [hnames.1, hnames.2]

theorem carries_decode (hextended : small.ExtendedBy large) :
    (decode width limits undecorate locator).Carries small large
      (fun h h' => h.root = h'.root ∧ h.names = h'.names)
      (decode width limits undecorate locator) := by
  unfold decode
  refine (carries_readBaseArray hextended).bind fun array _ harray => ?_
  subst harray
  refine (carries_readDescriptors hextended _ _).bind fun descriptors others hnames => ?_
  intro h hrun
  rw [run_lift rfl] at hrun ⊢
  exact hierarchy_of_map_name_eq hnames hrun

end Msvc

/-! ## Whole decodings -/

namespace Decoder

variable {decoder : Decoder} {undecorate : Msvc.Undecorator} {vtable : Address}

theorem carries_decode (hextended : small.ExtendedBy large)
    (hmsvc : decoder.binding = .bound .msvc) :
    (decoder.decode width undecorate vtable).Carries small large
      (fun h h' => h.root = h'.root ∧ h.names = h'.names)
      (decoder.decode width undecorate vtable) := by
  unfold decode
  rw [hmsvc]
  dsimp only
  split
  · exact carries_fail
  · apply carries_lift_bind
    intro slot
    apply carries_pointer_bind hextended
    intro information
    split
    · exact carries_fail
    · exact Msvc.carries_decode hextended

/-- A hierarchy that is found on a target is found on an extension, up to its
map if a number of contained bases could not be read. -/
theorem run_decode_of_extendedBy (decoder : Decoder) (undecorate : Msvc.Undecorator)
    (vtable : Address) (hextended : small.ExtendedBy large) {h : ClassHierarchy}
    (hrun : (decoder.decode small.width undecorate vtable).run small = .ok h) :
    ∃ h', (decoder.decode large.width undecorate vtable).run large = .ok h' ∧
      h'.root = h.root ∧ h'.names = h.names ∧
      (decoder.binding = .bound .itanium → h'.map = h.map) ∧
      (decoder.binding = .bound .msvc →
        (∀ before access after, (decoder.decode small.width undecorate vtable).reads small =
            before ++ access :: after → decoder.AsksContained small.width 1 before.length →
          ∃ bytes, small.read access.address access.size = .ok bytes) → h'.map = h.map) := by
  rw [← hextended.width_eq]
  have hsame (hcontained : ∀ before access after,
      (decoder.decode small.width undecorate vtable).reads small = before ++ access :: after →
        decoder.AsksContained small.width 1 before.length →
        ∃ bytes, small.read access.address access.size = .ok bytes) :
      (decoder.decode small.width undecorate vtable).run large = .ok h := by
    refine run_eq_of_extendedBy hextended (fun access haccess hoptional => ?_) hrun
    obtain ⟨before, after, hsplit⟩ := List.append_of_mem haccess
    have hrule := (keepsTo_decode vtable).rule_of_reads hsplit
    exact hcontained before access after hsplit (hrule.isOptional.1 hoptional)
  cases hbinding : decoder.binding with
  | unbound =>
    unfold decode at hrun
    rw [hbinding] at hrun
    contradiction
  | bound abi =>
    cases abi with
    | itanium =>
      -- none of the reads asks for a number of contained bases
      have hnone : ∀ position, ¬decoder.AsksContained small.width 1 position := by
        intro position hasks
        rw [AsksContained, hbinding] at hasks
        exact absurd hasks.1 (by decide)
      have hlarge := hsame fun before _ _ _ hasks => absurd hasks (hnone before.length)
      exact ⟨h, hlarge, rfl, rfl, fun _ => rfl, fun _ _ => rfl⟩
    | msvc =>
      obtain ⟨h', hlarge, hroot, hnames⟩ := carries_decode hextended hbinding h hrun
      refine ⟨h', hlarge, hroot.symm, hnames.symm, fun hother => absurd hother (by decide),
        fun _ hcontained => ?_⟩
      obtain rfl := Except.ok.inj (hlarge.symm.trans (hsame hcontained))
      rfl

/-! ## An example -/

/-- The memory of a 32-bit process with the vtable of a class with two bases,
of which the first has a base class descriptor that ends before its number of
contained bases. -/
def frayed : Snapshot :=
  let words := List.flatMap (Word.toBytes 4)
  let type (name : String) := List.replicate 12 0 ++ (Utf8.encode name).rightpad 8 0
  [ (0x20000, words [0x30000]), (0x30000, List.replicate 16 0 ++ words [0x40000]),
    (0x40000, words [0, 0, 3, 0x50000]), (0x50000, words [0x60000, 0x60010, 0x60020]),
    (0x60000, words [0x70000, 2]), (0x60010, words [0x70100]), (0x60020, words [0x70200, 0]),
    (0x70000, type "Most"), (0x70100, type "Left"), (0x70200, type "Top")].foldl
    (fun s region => s.addRegion (.ofNat region.1) region.2) ⟨.bits32, none, .empty⟩

/-- The memory with the number of contained bases. -/
def mended : Snapshot := frayed.addRegion (.ofNat 0x60014) (Word.toBytes 4 1)

/-- With the number of contained bases the base moves in the map and stays in
the list.  With a region that has nothing to do with the class nothing
changes. -/
theorem run_decode_mended :
    let decoder : Decoder := ⟨.bound .msvc, { nameUnits := 8 }⟩
    let decode (s : Snapshot) := decoder.decode s.width .ok (.ofNat 0x20004)
    let names := ["Most", "Left", "Top"]
    let parted : ClassHierarchy :=
      ⟨.msvc, "Most", names, .ofEdges [("Most", "Left"), ("Most", "Top")]⟩
    let joined : ClassHierarchy :=
      ⟨.msvc, "Most", names, .ofEdges [("Most", "Left"), ("Left", "Top")]⟩
    let crowded := mended.addRegion (.ofNat 0x80000) [1]
    (frayed.target.ExtendedBy mended.target ∧ (decode frayed).run frayed.target = .ok parted ∧
      (decode mended).run mended.target = .ok joined ∧ joined.map ≠ parted.map ∧
      ∃ h', (decode mended).run mended.target = .ok h' ∧ h'.names = parted.names) ∧
    mended.target.ExtendedBy crowded.target ∧
      ∃ h', (decode crowded).run crowded.target = .ok h' ∧ h'.names = joined.names ∧
        h'.map = joined.map := by
  intro decoder decode names parted joined crowded
  have hmended : frayed.target.ExtendedBy mended.target :=
    Snapshot.extendedBy_addRegion (by decide +kernel) (by decide +kernel)
  have hcrowded : mended.target.ExtendedBy crowded.target :=
    Snapshot.extendedBy_addRegion (by decide +kernel) (by decide +kernel)
  have hparted : (decode frayed).run frayed.target = .ok parted := by decide +kernel
  have hjoined : (decode mended).run mended.target = .ok joined := by decide +kernel
  have hread : ∀ access ∈ (decode mended).reads mended.target,
      (mended.target.read access.address access.size).toOption.isSome = true := by
    decide +kernel
  obtain ⟨found, hfound, -, hnames, -⟩ :=
    run_decode_of_extendedBy decoder .ok (.ofNat 0x20004) hmended hparted
  obtain ⟨kept, hkept, -, hlisted, -, hmap⟩ :=
    run_decode_of_extendedBy decoder .ok (.ofNat 0x20004) hcrowded hjoined
  refine ⟨⟨hmended, hparted, hjoined, by decide +kernel, found, hfound, hnames⟩, hcrowded, kept,
    hkept, hlisted, hmap rfl fun before access after hsplit _ => ?_⟩
  have hmem : access ∈ (decode mended).reads mended.target := by
    rw [show (decode mended).reads mended.target = before ++ access :: after from hsplit]
    simp
  cases hanswer : mended.target.read access.address access.size with
  | ok bytes => exact ⟨bytes, rfl⟩
  | error error =>
    have hsome := hread access hmem
    rw [hanswer] at hsome
    exact absurd hsome Bool.false_ne_true

end Decoder

end Rtti
