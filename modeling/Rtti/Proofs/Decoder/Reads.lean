import Rtti.Decoder
import Rtti.Proofs.Address.Spelling
import Rtti.Proofs.Itanium.Expansion
import Rtti.Proofs.Memory.Discipline

/-!
# The reads of a scan

`Limits.scanRule` is the rule that all reads of a scan keep to: their sizes,
their number, and which of them are optional.  There is one lemma
`keepsTo_…` for each part of a decoder; it says that the part keeps to the
rule if there is room for its reads, and how many reads it makes.
`Decoder.keepsTo_decodeObject` and `Decoder.keepsTo_decode` are about whole
scans.

The only optional reads are those of the numbers of contained bases of an
MSVC base class array (`Decoder.AsksContained`).
-/

namespace Rtti

/-! ## The rule -/

/-- The sizes of reads: those of a 32-bit word, of a pointer, of the name of a
`type_info`'s own class, and of the name of a class. -/
def Limits.ReadSize (limits : Limits) (width : PointerWidth) (size : Nat) : Prop :=
  size = 4 ∨ size = width.bytes ∨ size = 64 * limits.encoding.unitSize ∨
    size = limits.nameUnits * limits.encoding.unitSize

/-- The complaints about the size of a name with which a scan may break down. -/
def Limits.Breaks (limits : Limits) (complaint : String) : Prop :=
  0x10000000000000000 ≤ limits.nameUnits * limits.encoding.unitSize ∧
    complaint = Inspection.multiplyOverflow

/-- All complaints with which a scan may break down: about the size of a name, and
those of the undecorator. -/
def Limits.BreaksWith (limits : Limits) (undecorate : Msvc.Undecorator) (complaint : String) :
    Prop :=
  limits.Breaks complaint ∨ ∃ decorated, undecorate decorated = .error complaint

/-- A read of the word after the one that was read two reads before. -/
def Access.FollowsTypeLink (before : List Access) (access : Access) : Prop :=
  ∃ earlier typeLink name, before = earlier ++ [typeLink, name] ∧
    access.address.val = typeLink.address.val + 4 ∧ access.size = 4

/-- A scan makes fewer than `bound` reads before each read.  The optional ones
are those with the given numbers, and each follows a link to a type and the
name of the type. -/
structure Limits.scanRule (limits : Limits) (width : PointerWidth) (bound : Nat)
    (optional : Nat → Prop) (before : List Access) (access : Access) : Prop where
  size : limits.ReadSize width access.size
  few : before.length < bound
  isOptional : access.isOptional = true ↔ optional before.length
  followsTypeLink : access.isOptional = true → access.FollowsTypeLink before

namespace Limits

variable {limits : Limits} {width : PointerWidth} {bound : Nat} {optional : Nat → Prop}
  {before : List Access} {address : Address} {size : Nat}

theorem scanRule_required (hsize : limits.ReadSize width size) (hfew : before.length < bound)
    (hrequired : ¬ optional before.length) :
    limits.scanRule width bound optional before ⟨address, size, false⟩ where
  size := hsize
  few := hfew
  isOptional := by simpa using hrequired
  followsTypeLink := nofun

theorem readSize_word32 : limits.ReadSize width 4 := .inl rfl

theorem readSize_pointer : limits.ReadSize width width.bytes := .inr (.inl rfl)

theorem readSize_typeInfoClass : limits.ReadSize width
    (Itanium.typeInfoClassUnits * limits.encoding.unitSize) :=
  .inr (.inr (.inl rfl))

theorem readSize_name : limits.ReadSize width
    (limits.nameUnits * limits.encoding.unitSize) :=
  .inr (.inr (.inr rfl))

/-- The window of the name of a `type_info`'s own class is small. -/
theorem not_typeInfoClass_large :
    ¬0x10000000000000000 ≤ Itanium.typeInfoClassUnits * limits.encoding.unitSize := by
  cases limits.encoding <;> decide

end Limits

open Inspection Limits

variable {limits : Limits} {width : PointerWidth} {bound : Nat} {before : List Access}

/-! ## Itanium -/

namespace Itanium

variable {typeInfo records : Address}

/-- No read is optional. -/
abbrev rule (limits : Limits) (width : PointerWidth) (bound : Nat) : Rule :=
  limits.scanRule width bound fun _ => False

/-- The largest number of reads for a class with its bases and their names. -/
def readsPerClass (limits : Limits) : Nat := 7 + 4 * max 1 limits.itaniumBases

theorem keepsTo_identify (hroom : before.length + 3 ≤ bound) :
    (identify width limits typeInfo).KeepsTo (rule limits width bound) limits.Breaks
      (fun after _ => after.length ≤ before.length + 3) before := by
  unfold identify
  apply keepsTo_pointer_bind (scanRule_required readSize_pointer (by omega) not_false)
  intro vtable
  split
  · trivial
  · apply keepsTo_sub_bind
    intro slot
    apply keepsTo_pointer_bind
      (scanRule_required readSize_pointer (by simp; omega) not_false)
    intro nameAt
    apply keepsTo_text_bind (fun hlarge => absurd hlarge not_typeInfoClass_large)
      (scanRule_required readSize_typeInfoClass (by simp; omega) not_false)
    intro mangled
    dsimp only
    split
    · show _ ≤ _
      simp
    · trivial

theorem keepsTo_nameOf (hroom : before.length + 2 ≤ bound) :
    (nameOf width limits typeInfo).KeepsTo (rule limits width bound) limits.Breaks
      (fun after _ => after.length ≤ before.length + 2) before := by
  unfold nameOf
  apply keepsTo_add_bind
  intro slot _
  apply keepsTo_pointer_bind (scanRule_required readSize_pointer (by omega) not_false)
  intro nameAt
  apply keepsTo_text_bind (fun hlarge => ⟨hlarge, rfl⟩)
    (scanRule_required readSize_name (by simp; omega) not_false)
  intro mangled
  show _ ≤ _
  simp

/-- A base record takes two reads. -/
theorem keepsTo_readBases {count index : Nat} (hroom : before.length + 2 * count ≤ bound) :
    (readBases width records count index).KeepsTo (rule limits width bound) limits.Breaks
      (fun after bases => after.length ≤ before.length + 2 * count ∧ bases.length = count)
      before := by
  induction count generalizing before index with
  | zero => exact ⟨Nat.le_refl _, rfl⟩
  | succ count ih =>
    unfold readBases
    apply keepsTo_add_bind
    intro record _
    apply keepsTo_pointer_bind (scanRule_required readSize_pointer (by omega) not_false)
    intro typeInfo
    apply keepsTo_add_bind
    intro flagsAt _
    apply keepsTo_long_bind (scanRule_required readSize_pointer (by simp; omega) not_false)
    intro offsetFlags
    refine (ih (by simp; omega)).bind fun after rest hafter => ?_
    obtain ⟨hlength, hrest⟩ := hafter
    simp only [List.length_append, List.length_singleton] at hlength
    exact ⟨by omega, by simp [hrest]⟩

theorem keepsTo_expand (hroom : before.length + 7 + 2 * max 1 limits.itaniumBases ≤ bound) :
    (expand width limits typeInfo).KeepsTo (rule limits width bound) limits.Breaks
      (fun after node => after.length ≤ before.length + 7 + 2 * node.bases.length ∧
        node.bases.length ≤ max 1 limits.itaniumBases) before := by
  unfold expand
  refine (keepsTo_identify (by omega)).bind fun afterKind kind hkind => ?_
  refine (keepsTo_nameOf (by omega)).bind fun afterName name hname => ?_
  apply keepsTo_add_bind
  intro body _
  cases kind with
  | leaf =>
    show _ ∧ _
    simp
    omega
  | singleBase =>
    apply keepsTo_pointer_bind (scanRule_required readSize_pointer (by omega) not_false)
    intro base
    show _ ∧ _
    simp
    omega
  | manyBases =>
    apply keepsTo_word32_bind (scanRule_required readSize_word32 (by omega) not_false)
    intro flags
    apply keepsTo_add_bind
    intro countAt _
    apply keepsTo_word32_bind (scanRule_required readSize_word32 (by simp; omega) not_false)
    intro count
    split
    · trivial
    · next hfew =>
      apply keepsTo_add_bind
      intro records _
      refine (keepsTo_readBases (by simp; omega)).bind fun after bases hafter => ?_
      obtain ⟨hlength, hbases⟩ := hafter
      simp only [List.length_append, List.length_singleton] at hlength
      show _ ∧ _
      simp only [hbases]
      omega

theorem keepsTo_mapM_nameOf {bases : List BaseRecord}
    (hroom : before.length + 2 * bases.length ≤ bound) :
    (bases.mapM fun base => nameOf width limits base.typeInfo).KeepsTo
      (rule limits width bound) limits.Breaks
      (fun after _ => after.length ≤ before.length + 2 * bases.length) before := by
  induction bases generalizing before with
  | nil => exact Nat.le_refl _
  | cons base bases ih =>
    simp only [List.length_cons] at hroom ⊢
    rw [List.mapM_cons]
    refine (keepsTo_nameOf (by omega)).bind fun afterName name hname => ?_
    refine (ih (by omega)).bind fun after names hafter => ?_
    show _ ≤ _
    omega

theorem keepsTo_namedBases (hroom : before.length + readsPerClass limits ≤ bound) :
    (namedBases width limits typeInfo).KeepsTo (rule limits width bound) limits.Breaks
      (fun after _ => after.length ≤ before.length + readsPerClass limits) before := by
  unfold readsPerClass at *
  unfold namedBases
  refine (keepsTo_expand (by omega)).bind fun afterNode node hnode => ?_
  refine (keepsTo_mapM_nameOf (by omega)).bind fun after names hafter => ?_
  show _ ≤ _
  omega

/-- Each class that the walk may still expand takes its share of the reads. -/
theorem keepsTo_finish {budget : Nat} {walk : Walk}
    (hroom : before.length + budget * readsPerClass limits ≤ bound) :
    (walk.finish width limits budget).KeepsTo (rule limits width bound) limits.Breaks
      (fun _ _ => True) before := by
  induction budget generalizing before walk with
  | zero =>
    cases hnext : walk.stack.dropWhile (· ∈ walk.visited) with
    | nil =>
      rw [Walk.finish_of_done hnext]
      trivial
    | cons name stack =>
      rw [Walk.finish_full hnext]
      trivial
  | succ budget ih =>
    cases hnext : walk.stack.dropWhile (· ∈ walk.visited) with
    | nil =>
      rw [Walk.finish_of_done hnext]
      trivial
    | cons name stack =>
      cases hlocated : walk.located.get? name with
      | none =>
        rw [Walk.finish_unlocated hnext hlocated]
        trivial
      | some typeInfo =>
        rw [Nat.succ_mul] at hroom
        rw [Walk.finish_succ hnext hlocated]
        exact (keepsTo_namedBases (by omega)).bind fun after bases hafter => ih (by omega)

theorem keepsTo_decode (hroom : before.length + 2 + limits.nodes * readsPerClass limits ≤ bound) :
    (decode width limits typeInfo).KeepsTo (rule limits width bound) limits.Breaks
      (fun _ _ => True) before := by
  unfold decode
  refine (keepsTo_nameOf (by omega)).bind fun afterName root hname => ?_
  split
  · trivial
  · exact (keepsTo_finish (by omega)).bind fun _ _ _ => trivial

end Itanium

/-! ## MSVC -/

namespace Msvc

variable {undecorate : Undecorator} {locator : Address} {array : BaseArray} {first : Nat}
  {breaks : String → Prop}

/-- The number of reads that lead from a locator to its base class array. -/
def linkReads : PointerWidth → Nat
  | .bits32 => 3
  | .bits64 => 4

/-- Whether the read with this number asks for the number of contained bases
of an entry, when `first` is the number of the first read of an entry.  Each
entry takes four reads: its link, the link to its type, the name of the type,
and the number of contained bases. -/
def AsksContained (first position : Nat) : Prop :=
  first ≤ position ∧ (position - first) % 4 = 3

abbrev rule (limits : Limits) (width : PointerWidth) (bound first : Nat) : Rule :=
  limits.scanRule width bound (AsksContained first)

theorem scanRule_link {address : Address} (hfew : before.length < bound)
    (hfirst : before.length < first) : rule limits width bound first before ⟨address, 4, false⟩ :=
  scanRule_required readSize_word32 hfew fun hasks => Nat.not_lt.2 hasks.1 hfirst

/-- The first three reads of an entry are required. -/
theorem scanRule_entry {address : Address} {size index : Nat} (step : Nat)
    (hsize : limits.ReadSize width size) (hfew : before.length < bound)
    (hposition : before.length = first + 4 * index + step) (hstep : step < 3) :
    rule limits width bound first before ⟨address, size, false⟩ := by
  apply scanRule_required hsize hfew
  rintro ⟨-, hlast⟩
  omega

theorem isOwn_of_resolve_eq_error {links : Links} {link : Nat} {error : ScanError}
    (herror : links.resolve link = .error error) : error.IsOwn breaks := by
  cases links with
  | relative imageBase => exact isOwn_of_add_eq_error herror
  | absolute => contradiction

theorem keepsTo_resolve_bind {α : Type} {rule : Rule} {post : List Access → α → Prop}
    {links : Links} {link : Nat} {f : Address → Inspection α}
    (hf : ∀ address, (f address).KeepsTo rule breaks post before) :
    (liftM (links.resolve link) >>= f).KeepsTo rule breaks post before :=
  keepsTo_lift_bind (fun address _ => hf address) fun _ => isOwn_of_resolve_eq_error

/-- The undecorator breaks down with a complaint of its own. -/
theorem isOwn_of_displayName_eq_error {raw : String} {error : ScanError}
    (herror : displayName undecorate raw = .error error) :
    error.IsOwn (limits.BreaksWith undecorate) := by
  unfold displayName at herror
  split at herror
  · cases hname : undecorate ("?" ++ raw) with
    | ok name =>
      rw [hname] at herror
      contradiction
    | error complaint =>
      rw [hname] at herror
      obtain rfl := Except.error.inj herror
      exact .inr ⟨_, hname⟩
  · contradiction

theorem isOwn_of_hierarchy_eq_error {descriptors : List Descriptor} {error : ScanError}
    (herror : hierarchy descriptors = .error error) : error.IsOwn breaks := by
  cases descriptors with
  | nil =>
    obtain rfl := Except.error.inj herror
    trivial
  | cons root rest => contradiction

theorem keepsTo_readLinks (hfirst : before.length + linkReads width = first)
    (hroom : first ≤ bound) :
    (readLinks width locator).KeepsTo (rule limits width bound first) breaks
      (fun after _ => after.length + 3 = first) before := by
  unfold readLinks
  cases width with
  | bits32 => exact hfirst
  | bits64 =>
    have hlinks : linkReads .bits64 = 4 := rfl
    rw [hlinks] at hfirst
    apply keepsTo_add_bind
    intro selfAt _
    apply keepsTo_word32_bind (scanRule_link (by omega) (by omega))
    intro self
    split
    · trivial
    · apply keepsTo_sub_bind
      intro imageBase
      show _ = _
      simp
      omega

theorem keepsTo_readBaseArray (hfirst : before.length + linkReads width = first)
    (hroom : first ≤ bound) :
    (readBaseArray width limits locator).KeepsTo (rule limits width bound first) breaks
      (fun after array => after.length = first ∧ array.count ≤ limits.msvcBases) before := by
  unfold readBaseArray
  refine (keepsTo_readLinks hfirst hroom).bind fun afterLinks links hlinks => ?_
  apply keepsTo_add_bind
  intro hierarchyAt _
  apply keepsTo_word32_bind (scanRule_link (by omega) (by omega))
  intro hierarchyLink
  split
  · trivial
  · apply keepsTo_resolve_bind
    intro hierarchyStart
    apply keepsTo_add_bind
    intro countAt _
    apply keepsTo_word32_bind (scanRule_link (by simp; omega) (by simp; omega))
    intro count
    split
    · trivial
    · next hcount =>
      apply keepsTo_add_bind
      intro arrayAt _
      apply keepsTo_word32_bind (scanRule_link (by simp; omega) (by simp; omega))
      intro arrayLink
      split
      · trivial
      · apply keepsTo_resolve_bind
        intro start
        show _ ∧ _
        simp
        omega

/-- The way to the base class array is made of required reads. -/
theorem isOptional_of_rule_linkReads {access : Access}
    (hrule : rule limits width (linkReads width) (linkReads width) before access) :
    access.isOptional = false := by
  have hfew := hrule.few
  have hasks : ¬AsksContained (linkReads width) before.length := fun hasks =>
    Nat.not_lt.2 hasks.1 hfew
  simpa using mt hrule.isOptional.1 hasks

/-- An entry that does not end the array takes four reads. -/
theorem keepsTo_readDescriptor {index : Nat} (hposition : before.length = first + 4 * index)
    (hroom : before.length + 4 ≤ bound) :
    (readDescriptor width limits undecorate array index).KeepsTo
      (rule limits width bound first) (limits.BreaksWith undecorate)
      (fun after descriptor => descriptor.isSome → after.length = before.length + 4) before := by
  unfold readDescriptor
  apply keepsTo_add_bind
  intro entryAt _
  apply keepsTo_word32_bind
    (scanRule_entry 0 readSize_word32 (by omega) hposition (by omega))
  intro baseLink
  split
  · exact nofun
  · apply keepsTo_resolve_bind
    intro base
    apply keepsTo_word32_bind
      (scanRule_entry 1 readSize_word32 (by simp; omega) (by simp; omega) (by omega))
    intro typeLink
    split
    · exact nofun
    · apply keepsTo_resolve_bind
      intro type
      apply keepsTo_add_bind
      intro nameAt _
      apply keepsTo_text_bind (fun hlarge => .inl ⟨hlarge, rfl⟩)
        (scanRule_entry 2 readSize_name (by simp; omega) (by simp; omega) (by omega))
      intro raw
      split
      · exact nofun
      · refine keepsTo_lift_bind (fun name _ => ?_) fun _ => isOwn_of_displayName_eq_error
        apply keepsTo_add_bind
        intro containedAt hcontainedAt
        refine keepsTo_word?_bind ?_ rfl fun contained _ => by simp
        exact
          { size := readSize_word32
            few := by simp; omega
            isOptional := by
              have hasks : AsksContained first (before.length + 3) := ⟨by omega, by omega⟩
              simpa using hasks
            followsTypeLink := fun _ => ⟨_, _, _, List.append_assoc .., hcontainedAt, rfl⟩ }

theorem keepsTo_readDescriptors {count : Nat} (index : Nat)
    (hposition : before.length = first + 4 * index)
    (hroom : first + 4 * (index + count) ≤ bound) :
    (readDescriptors width limits undecorate array count index).KeepsTo
      (rule limits width bound first) (limits.BreaksWith undecorate) (fun _ _ => True) before := by
  induction count generalizing before index with
  | zero => trivial
  | succ count ih =>
    unfold readDescriptors
    refine (keepsTo_readDescriptor hposition (by omega)).bind fun after descriptor hafter => ?_
    cases descriptor with
    | none => trivial
    | some descriptor =>
      have hlength := hafter rfl
      exact (ih (index + 1) (by omega) (by omega)).bind fun _ _ _ => trivial

theorem keepsTo_decode (hfirst : before.length + linkReads width = first)
    (hroom : first + 4 * limits.msvcBases ≤ bound) :
    (decode width limits undecorate locator).KeepsTo (rule limits width bound first)
      (limits.BreaksWith undecorate) (fun _ _ => True) before := by
  unfold decode
  refine (keepsTo_readBaseArray hfirst (by omega)).bind fun after array hafter => ?_
  obtain ⟨hlength, hcount⟩ := hafter
  refine (keepsTo_readDescriptors 0 hlength (by omega)).bind fun _ descriptors _ => ?_
  exact keepsTo_ofExcept (fun _ _ => trivial) fun _ => isOwn_of_hierarchy_eq_error

end Msvc

/-! ## Whole scans -/

namespace Decoder

variable {decoder : Decoder} {undecorate : Msvc.Undecorator}

/-- The largest number of reads of the decoder after those that find the type
information. -/
def readsOfAbi (decoder : Decoder) (width : PointerWidth) : Nat :=
  match decoder.binding with
  | .unbound => 0
  | .bound .msvc => Msvc.linkReads width + 4 * decoder.limits.msvcBases
  | .bound .itanium => 2 + decoder.limits.nodes * Itanium.readsPerClass decoder.limits

/-- Whether the read with this number asks for a number of contained bases,
when `lead` reads find the type information. -/
def AsksContained (decoder : Decoder) (width : PointerWidth) (lead position : Nat) : Prop :=
  decoder.binding = .bound .msvc ∧ Msvc.AsksContained (lead + Msvc.linkReads width) position

/-- The rule of the scans of a decoder that finds the type information with
`lead` reads. -/
abbrev rule (decoder : Decoder) (width : PointerWidth) (lead : Nat) : Rule :=
  decoder.limits.scanRule width (lead + decoder.readsOfAbi width)
    (decoder.AsksContained width lead)

theorem scanRule_lead {address : Address} {lead : Nat} (hlead : before.length < lead) :
    decoder.rule width lead before ⟨address, width.bytes, false⟩ := by
  apply scanRule_required readSize_pointer (by omega)
  rintro ⟨-, hfirst, -⟩
  omega

/-- The vtable is followed with one more read. -/
theorem keepsTo_decode_after {vtable : Address} {lead : Nat} (hlead : before.length + 1 = lead) :
    (decoder.decode width undecorate vtable).KeepsTo (decoder.rule width lead)
      (decoder.limits.BreaksWith undecorate) (fun _ _ => True)
      before := by
  unfold decode
  cases hbinding : decoder.binding with
  | unbound => trivial
  | bound abi =>
    dsimp only
    split
    · trivial
    · apply keepsTo_sub_bind
      intro slot
      apply keepsTo_pointer_bind (scanRule_lead (by omega))
      intro information
      split
      · trivial
      · cases abi with
        | msvc =>
          have hoptional : decoder.AsksContained width lead =
              Msvc.AsksContained (lead + Msvc.linkReads width) := by
            funext position
            simp [AsksContained, hbinding]
          rw [rule, hoptional]
          apply Msvc.keepsTo_decode
          · simp; omega
          · simp [readsOfAbi, hbinding]; omega
        | itanium =>
          have hoptional : decoder.AsksContained width lead = fun _ => False := by
            funext position
            simp [AsksContained, hbinding]
          rw [rule, hoptional]
          refine (Itanium.keepsTo_decode ?_).mono fun _ => .inl
          simp [readsOfAbi, hbinding]; omega

theorem keepsTo_decode (vtable : Address) :
    (decoder.decode width undecorate vtable).KeepsTo (decoder.rule width 1)
      (decoder.limits.BreaksWith undecorate) (fun _ _ => True) [] :=
  keepsTo_decode_after rfl

theorem isOwn_of_parse_eq_error {breaks : String → Prop} {text : String} {error : ScanError}
    (herror : Address.parse text width = .error error) : error.IsOwn breaks := by
  obtain ⟨reason, rfl⟩ := Address.exists_reason_of_parse_eq_error herror
  trivial

/-- The object is followed to its vtable first. -/
theorem keepsTo_decodeObject (text : String) :
    (decoder.decodeObject width undecorate text).KeepsTo (decoder.rule width 2)
      (decoder.limits.BreaksWith undecorate) (fun _ _ => True) [] := by
  unfold decodeObject
  refine keepsTo_lift_bind (fun object _ => ?_) fun _ => isOwn_of_parse_eq_error
  split
  · trivial
  · apply keepsTo_pointer_bind (scanRule_lead (by simp))
    intro vtable
    exact keepsTo_decode_after rfl

end Decoder

end Rtti
