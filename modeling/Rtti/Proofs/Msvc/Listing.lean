import Rtti.Proofs.Decoder.Extension

/-!
# Names without numbers of contained bases

The names of a base class array can be listed without its numbers of contained
bases.  `Msvc.listing` goes through the array as a decoder does, but it takes no
more of an entry than where its base class descriptor lies and what its class is
called.

A decoder has the same root and the same names, or the same error, whatever the
numbers are and whether they can be read (`Msvc.run_listing_eq`).  It makes the
reads of the listing and between them those of the numbers.  The one condition
is that each number has an address: a base class descriptor that ends above the
address space is an error of the decoder.
-/

namespace Rtti

/-! ## Abridged inspections -/

namespace Inspection

variable {α β γ δ : Type} {target : Target} {x : Inspection α} {y : Inspection β}
  {f : α → Inspection γ} {g : β → Inspection δ} {rel : α → β → Prop} {relf : γ → δ → Prop}

/-- The second inspection ends on the target as the first does, with a related
value or with the same error, and makes its required reads only. -/
structure Abridged (target : Target) (rel : α → β → Prop) (x : Inspection α) (y : Inspection β) :
    Prop where
  value : ∀ v, x.run target = .ok v → ∃ w, y.run target = .ok w ∧ rel v w
  error : ∀ e, x.run target = .error e → y.run target = .error e
  reads : y.reads target = (x.reads target).filter fun access => !access.isOptional

theorem abridged_done {v : α} {w : β} (hrel : rel v w) : (done v).Abridged target rel (done w) where
  value := by
    rintro _ hvalue
    obtain rfl := Except.ok.inj hvalue
    exact ⟨w, rfl, hrel⟩
  error := nofun
  reads := rfl

theorem abridged_fail (error : ScanError) :
    (fail error : Inspection α).Abridged target rel (fail error : Inspection β) where
  value := nofun
  error := by
    rintro _ herror
    obtain rfl := Except.error.inj herror
    rfl
  reads := rfl

/-- An inspection without optional reads stays as it is. -/
theorem abridged_self (hrequired : ∀ access ∈ x.reads target, access.isOptional = false) :
    x.Abridged target Eq x where
  value v hvalue := ⟨v, hvalue, rfl⟩
  error _ herror := herror
  reads := by
    rw [eq_comm, List.filter_eq_self]
    simpa using hrequired

theorem Abridged.bind (hxy : x.Abridged target rel y)
    (hfg : ∀ v w, x.run target = .ok v → y.run target = .ok w → rel v w →
      (f v).Abridged target relf (g w)) : (x >>= f).Abridged target relf (y >>= g) := by
  cases hx : x.run target with
  | error e =>
    have hy := hxy.error e hx
    refine ⟨fun v hvalue => ?_, fun e' herror => ?_, ?_⟩
    · rw [run_bind_of_error hx] at hvalue
      contradiction
    · rw [run_bind_of_error hx] at herror
      obtain rfl := Except.error.inj herror
      exact run_bind_of_error hy
    · rw [reads_bind_of_error hx, reads_bind_of_error hy, hxy.reads]
  | ok v =>
    obtain ⟨w, hy, hrel⟩ := hxy.value v hx
    have hrest := hfg v w hx hy hrel
    refine ⟨fun value hvalue => ?_, fun e herror => ?_, ?_⟩
    · rw [run_bind_of_ok hx] at hvalue
      rw [run_bind_of_ok hy]
      exact hrest.value value hvalue
    · rw [run_bind_of_ok hx] at herror
      rw [run_bind_of_ok hy]
      exact hrest.error e herror
    · rw [reads_bind_of_ok hx, reads_bind_of_ok hy, hxy.reads, hrest.reads, List.filter_append]

/-- An inspection without optional reads stays when what follows it only adds
to its value. -/
theorem abridged_bind_self {f : α → Inspection γ} {rel : γ → α → Prop}
    (hrequired : ∀ access ∈ x.reads target, access.isOptional = false)
    (hf : ∀ v, x.run target = .ok v → (f v).Abridged target rel (done v)) :
    (x >>= f).Abridged target rel x := by
  have hbind : (x >>= f).Abridged target rel (x >>= done) :=
    (abridged_self hrequired).bind fun v w hv _ hsame => hsame ▸ hf v hv
  rwa [bind_eq x done, bind_done] at hbind

end Inspection

namespace Msvc

open Inspection (Abridged abridged_bind_self abridged_done abridged_fail abridged_self
  keepsTo_add_bind keepsTo_lift_bind keepsTo_text_bind keepsTo_word32_bind)

/-! ## The listing -/

/-- Where the base class descriptor of the entry with the given index lies, and
the name of the class; none if the array ends there. -/
def readNamed (width : PointerWidth) (limits : Limits) (undecorate : Undecorator)
    (array : BaseArray) (index : Nat) : Inspection (Option (Address × String)) := do
  let entryAt ← array.start.add (4 * index)
  let baseLink ← Inspection.word32 entryAt
  if baseLink = 0 then return none
  else
    let base ← array.links.resolve baseLink
    let typeLink ← Inspection.word32 base
    if typeLink = 0 then return none
    else
      let type ← array.links.resolve typeLink
      let nameAt ← type.add (nameOffset width)
      let raw ← Inspection.text nameAt limits.nameUnits limits.encoding
      if raw.isEmpty then return none
      else
        let name ← displayName undecorate raw
        return some (base, name)

/-- The names of the entries from number `index` on, at most `count` of them, up
to the first that ends the array. -/
def readNames (width : PointerWidth) (limits : Limits) (undecorate : Undecorator)
    (array : BaseArray) : (count index : Nat) → Inspection (List String)
  | 0, _ => return []
  | count + 1, index => do
    match ← readNamed width limits undecorate array index with
    | none => return []
    | some (_, name) =>
      let rest ← readNames width limits undecorate array count (index + 1)
      return name :: rest

/-- The class of the object with the given locator, with the names of its base
class array. -/
def listing (width : PointerWidth) (limits : Limits) (undecorate : Undecorator)
    (locator : Address) : Inspection (String × List String) := do
  let array ← readBaseArray width limits locator
  let names ← readNames width limits undecorate array array.count 0
  match names with
  | [] => .fail (.unknownStructure .noNamedClass)
  | root :: rest => return (root, root :: rest)

/-- The base class descriptors of the entries that have names on a target, from
number `index` on, up to the first that ends the array or the listing. -/
def namedDescriptors (target : Target) (width : PointerWidth) (limits : Limits)
    (undecorate : Undecorator) (array : BaseArray) : (count index : Nat) → List Address
  | 0, _ => []
  | count + 1, index =>
    match (readNamed width limits undecorate array index).run target with
    | .ok (some (base, _)) =>
      base :: namedDescriptors target width limits undecorate array count (index + 1)
    | _ => []

/-- The number of contained bases of each entry with a name has an address. -/
def HoldsCounts (target : Target) (width : PointerWidth) (limits : Limits)
    (undecorate : Undecorator) (locator : Address) : Prop :=
  ∀ array, (readBaseArray width limits locator).run target = .ok array →
    ∀ base ∈ namedDescriptors target width limits undecorate array array.count 0,
      base.val + 4 < 0x10000000000000000

variable {target : Target} {width : PointerWidth} {limits : Limits} {undecorate : Undecorator}
  {array : BaseArray} {locator : Address} {index count : Nat}

/-! ## One entry -/

/-- An entry is its name with the number of contained bases. -/
theorem readDescriptor_eq (width : PointerWidth) (limits : Limits) (undecorate : Undecorator)
    (array : BaseArray) (index : Nat) :
    readDescriptor width limits undecorate array index =
      (do
        match ← readNamed width limits undecorate array index with
        | none => return none
        | some (base, name) =>
          let containedAt ← base.add 0x04
          let contained ← Inspection.word? containedAt 4
          return some ⟨name, contained.getD 0⟩) := by
  unfold readDescriptor readNamed
  simp only [bind_assoc]
  refine bind_congr fun entryAt => bind_congr fun baseLink => ?_
  split
  · rfl
  · simp only [bind_assoc]
    refine bind_congr fun base => bind_congr fun typeLink => ?_
    split
    · rfl
    · simp only [bind_assoc]
      refine bind_congr fun type => bind_congr fun nameAt => bind_congr fun raw => ?_
      split
      · rfl
      · simp only [bind_assoc]
        rfl

theorem isOptional_of_mem_reads_readNamed {access : Access}
    (haccess : access ∈ (readNamed width limits undecorate array index).reads target) :
    access.isOptional = false := by
  have hkeeps : (readNamed width limits undecorate array index).KeepsTo
      (fun _ access => access.isOptional = false) (limits.BreaksWith undecorate) (fun _ _ => True)
      [] := by
    unfold readNamed
    apply keepsTo_add_bind
    intro entryAt _
    apply keepsTo_word32_bind rfl
    intro baseLink
    split
    · trivial
    · apply keepsTo_resolve_bind
      intro base
      apply keepsTo_word32_bind rfl
      intro typeLink
      split
      · trivial
      · apply keepsTo_resolve_bind
        intro type
        apply keepsTo_add_bind
        intro nameAt _
        apply keepsTo_text_bind (fun hlarge => .inl ⟨hlarge, rfl⟩) rfl
        intro raw
        split
        · trivial
        · exact keepsTo_lift_bind (fun name _ => trivial)
            fun _ => isOwn_of_displayName_eq_error
  obtain ⟨_, hrequired⟩ := hkeeps.exists_rule_of_mem_reads haccess
  exact hrequired

/-- Without the number of contained bases an entry has the same name. -/
theorem abridged_readDescriptor
    (hcounts : ∀ base name, (readNamed width limits undecorate array index).run target =
      .ok (some (base, name)) → base.val + 4 < 0x10000000000000000) :
    (readDescriptor width limits undecorate array index).Abridged target
      (fun descriptor named => descriptor.map (·.name) = named.map (·.2))
      (readNamed width limits undecorate array index) := by
  rw [readDescriptor_eq]
  refine abridged_bind_self (fun _ => isOptional_of_mem_reads_readNamed) fun named hrun => ?_
  match named with
  | none => exact abridged_done rfl
  | some (base, name) =>
    -- the number has an address, and its read is the only one
    have haddress : base.add 0x04 = .ok ⟨base.val + 4, hcounts base name hrun⟩ :=
      Address.add_eq_ok_iff.2 rfl
    dsimp only
    rw [haddress]
    exact ⟨fun _ hvalue => ⟨_, rfl, by obtain rfl := Except.ok.inj hvalue; rfl⟩, nofun, rfl⟩

/-! ## The whole array -/

theorem abridged_readDescriptors
    (hcounts : ∀ base ∈ namedDescriptors target width limits undecorate array count index,
      base.val + 4 < 0x10000000000000000) :
    (readDescriptors width limits undecorate array count index).Abridged target
      (fun descriptors names => descriptors.map (·.name) = names)
      (readNames width limits undecorate array count index) := by
  induction count generalizing index with
  | zero => exact abridged_done rfl
  | succ count ih =>
    unfold readDescriptors readNames
    unfold namedDescriptors at hcounts
    refine (abridged_readDescriptor fun base name hrun => ?_).bind
      fun descriptor named _ hrun hname => ?_
    · rw [hrun] at hcounts
      exact hcounts base List.mem_cons_self
    · cases named with
      | none =>
        obtain rfl : descriptor = none := Option.map_eq_none_iff.1 hname
        exact abridged_done rfl
      | some named =>
        obtain ⟨descriptor, rfl, hsame⟩ := Option.map_eq_some_iff.1 hname
        rw [hrun] at hcounts
        refine (ih (List.forall_mem_cons.1 hcounts).2).bind
          fun rest names _ _ hrest => abridged_done ?_
        rw [List.map_cons, hsame, hrest]

/-- The entries are given up for want of a name, or the first is the class. -/
theorem abridged_hierarchy {descriptors : List Descriptor} {names : List String}
    (hnames : descriptors.map (·.name) = names) :
    (liftM (hierarchy descriptors) : Inspection ClassHierarchy).Abridged target
      (fun h listed => (h.root, h.names) = listed)
      (match names with
        | [] => .fail (.unknownStructure .noNamedClass)
        | root :: rest => return (root, root :: rest)) := by
  subst hnames
  cases descriptors with
  | nil => exact abridged_fail _
  | cons root rest => exact abridged_done rfl

theorem abridged_decode (hcounts : HoldsCounts target width limits undecorate locator) :
    (decode width limits undecorate locator).Abridged target
      (fun h listed => (h.root, h.names) = listed)
      (listing width limits undecorate locator) := by
  unfold decode listing
  have harray : (readBaseArray width limits locator).Abridged target Eq
      (readBaseArray width limits locator) := by
    have hkeeps : (readBaseArray width limits locator).KeepsTo
        (rule limits width (linkReads width) (linkReads width)) limits.Breaks _ [] :=
      keepsTo_readBaseArray (Nat.zero_add _) (Nat.le_refl _)
    refine abridged_self fun access haccess => ?_
    obtain ⟨_, hrule⟩ := hkeeps.exists_rule_of_mem_reads haccess
    exact isOptional_of_rule_linkReads hrule
  refine harray.bind fun array _ hrun _ hsame => ?_
  subst hsame
  exact (abridged_readDescriptors (hcounts array hrun)).bind
    fun descriptors names _ _ hnames => abridged_hierarchy hnames

/-- A decoder ends as the listing does, with the same root and the same names
or with the same error.  The listing makes the same reads but for those of the
numbers of contained bases. -/
theorem run_listing_eq (hcounts : HoldsCounts target width limits undecorate locator) :
    (listing width limits undecorate locator).run target =
        ((decode width limits undecorate locator).run target).map (fun h => (h.root, h.names)) ∧
      (listing width limits undecorate locator).reads target =
        ((decode width limits undecorate locator).reads target).filter
          fun access => !access.isOptional := by
  have habridged := abridged_decode hcounts
  refine ⟨?_, habridged.reads⟩
  cases hrun : (decode width limits undecorate locator).run target with
  | error error => exact habridged.error error hrun
  | ok h =>
    obtain ⟨_, hlisting, rfl⟩ := habridged.value h hrun
    exact hlisting

/-- The names of a class with two bases are listed as they are decoded,
although the number of contained bases of the first base cannot be read. -/
theorem run_listing_frayed :
    let target := Decoder.frayed.target
    let limits : Limits := { nameUnits := 8 }
    let locator : Address := .ofNat 0x30000
    HoldsCounts target .bits32 limits .ok locator ∧
      (listing .bits32 limits .ok locator).run target =
        .ok ("Most", ["Most", "Left", "Top"]) ∧
      (listing .bits32 limits .ok locator).reads target =
        ((decode .bits32 limits .ok locator).reads target).filter
          fun access => !access.isOptional := by
  intro target limits locator
  have hcounts : HoldsCounts target .bits32 limits .ok locator := by
    intro array harray
    have hcertain : (readBaseArray .bits32 limits locator).run target =
        .ok ⟨.absolute, .ofNat 0x50000, 3⟩ := by decide +kernel
    obtain rfl := Except.ok.inj (harray.symm.trans hcertain)
    decide +kernel
  have hlisting := run_listing_eq hcounts
  refine ⟨hcounts, hlisting.1.trans ?_, hlisting.2⟩
  decide +kernel

end Msvc

end Rtti
