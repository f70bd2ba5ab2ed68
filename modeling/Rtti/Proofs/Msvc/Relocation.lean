import Rtti.DecoratedName
import Rtti.Proofs.Memory.Relocation
import Rtti.Proofs.Msvc.Decoding
import Rtti.Proofs.Msvc.Places

/-!
# Decoding in a relocated image

The links of a 64-bit image are offsets from its base, and the base is told by the
locator.  So a locator in an image that was loaded elsewhere is decoded to the same
hierarchy (`run_decode_of_movedBy`), with the same reads at the moved addresses.

The proof goes along the way from the locator, with one lemma for each of its
parts.  Each says that the part follows itself, from what was moved to what was
moved (`Inspection.Follows`).
-/

namespace Rtti.Msvc

open Inspection hiding bind_assoc

/-! ## Moved parts -/

/-- The links count from a base that is moved by `d`. -/
inductive Links.MovedBy (d : Int) : Links → Links → Prop where
  | relative {imageBase imageBase' : Address} (hmoved : imageBase.MovedBy d imageBase') :
      MovedBy d (.relative imageBase) (.relative imageBase')

/-- The second base class array is the first one, moved by `d`. -/
structure BaseArray.MovedBy (d : Int) (array array' : BaseArray) : Prop where
  links : array.links.MovedBy d array'.links
  start : array.start.MovedBy d array'.start
  count_eq : array.count = array'.count

variable {source moved : Target} {d : Int} {limits : Limits} {undecorate : Undecorator}
  {links links' : Links} {locator locator' : Address} {array array' : BaseArray}

/-- A link leads to a moved address, if it leads to one at which the way goes on. -/
theorem follows_resolve_bind {α : Type} {rel : α → α → Prop} {link : Nat}
    {f g : Address → Inspection α} (hlinks : links.MovedBy d links')
    (hreads : ∀ address, (f address).ReadsFrom source address)
    (hf : ∀ address address', address.MovedBy d address' →
      (f address).Follows source moved d rel (g address')) :
    (liftM (links.resolve link) >>= f).Follows source moved d rel
      (liftM (links'.resolve link) >>= g) := by
  cases hlinks with
  | relative hmoved =>
    exact follows_add_bind hmoved hreads fun address address' _ => hf address address'

/-! ## The way from a locator -/

theorem follows_readLinks (hmoved : source.MovedBy d moved)
    (hlocator : locator.MovedBy d locator')
    (himage : ∀ imageBase, HoldsLinks source locator .bits64 (.relative imageBase) →
      imageBase.Movable d) :
    (readLinks .bits64 locator).Follows source moved d (Links.MovedBy d)
      (readLinks .bits64 locator') := by
  unfold readLinks
  refine follows_word32_add_bind hmoved hlocator fun self hself => ?_
  split
  · exact follows_fail
  · next hnonzero =>
    refine follows_sub_bind hlocator (fun imageBase hbase => ?_) fun _ _ hbase =>
      follows_done (.relative hbase)
    exact himage imageBase ⟨self, hnonzero, hbase.symm, hself⟩

/-- The array is found at a moved address, if its first entry is read. -/
theorem follows_readBaseArray_bind {α : Type} {rel : α → α → Prop} {f g : BaseArray → Inspection α}
    (hmoved : source.MovedBy d moved) (hlocator : locator.MovedBy d locator')
    (himage : ∀ imageBase, HoldsLinks source locator .bits64 (.relative imageBase) →
      imageBase.Movable d)
    (hreads : ∀ array, array.count ≠ 0 → (f array).ReadsFrom source array.start)
    (hf : ∀ array array', array.MovedBy d array' →
      (f array).Follows source moved d rel (g array')) :
    (readBaseArray .bits64 limits locator >>= f).Follows source moved d rel
      (readBaseArray .bits64 limits locator' >>= g) := by
  unfold readBaseArray
  simp only [bind_assoc]
  refine (follows_readLinks hmoved hlocator himage).bind fun links links' hlinks => ?_
  refine follows_word32_add_bind hmoved hlocator fun hierarchyLink _ => ?_
  by_cases hzero : hierarchyLink = 0
  · rw [if_pos hzero, if_pos hzero]
    exact follows_fail
  · rw [if_neg hzero, if_neg hzero]
    simp only [bind_assoc]
    refine follows_resolve_bind hlinks (fun _ => readsFrom_add_bind fun _ => readsFrom_read)
      fun hierarchy hierarchy' hhierarchy => ?_
    refine follows_word32_add_bind hmoved hhierarchy fun count _ => ?_
    by_cases hinvalid : count = 0 ∨ limits.msvcBases < count
    · rw [if_pos hinvalid, if_pos hinvalid]
      exact follows_fail
    · rw [if_neg hinvalid, if_neg hinvalid]
      simp only [bind_assoc]
      refine follows_word32_add_bind hmoved hhierarchy fun arrayLink _ => ?_
      by_cases hzero : arrayLink = 0
      · rw [if_pos hzero, if_pos hzero]
        exact follows_fail
      · rw [if_neg hzero, if_neg hzero]
        simp only [bind_assoc]
        have hsome : count ≠ 0 := fun hcount => hinvalid (.inl hcount)
        exact follows_resolve_bind hlinks (fun start => hreads ⟨links, start, count⟩ hsome)
          fun start start' hstart => hf ⟨links, start, count⟩ ⟨links', start', count⟩
            ⟨hlinks, hstart, rfl⟩

theorem follows_readDescriptor (hmoved : source.MovedBy d moved) (harray : array.MovedBy d array')
    (index : Nat) :
    (readDescriptor .bits64 limits undecorate array index).Follows source moved d Eq
      (readDescriptor .bits64 limits undecorate array' index) := by
  unfold readDescriptor
  refine follows_word32_add_bind hmoved harray.start fun baseLink _ => ?_
  split
  · exact follows_done rfl
  · refine follows_resolve_bind harray.links (fun _ => readsFrom_read) fun base base' hbase => ?_
    refine follows_word32_bind hmoved hbase fun typeLink _ => ?_
    split
    · exact follows_done rfl
    · refine follows_resolve_bind harray.links
        (fun _ => readsFrom_add_bind fun _ => readsFrom_text_bind) fun type type' htype => ?_
      refine follows_text_add_bind hmoved htype fun raw => ?_
      split
      · exact follows_done rfl
      · refine follows_lift_bind fun name => ?_
        refine follows_word?_add_bind hmoved hbase fun contained => ?_
        exact follows_done rfl

theorem follows_readDescriptors (hmoved : source.MovedBy d moved) (harray : array.MovedBy d array')
    (count index : Nat) :
    (readDescriptors .bits64 limits undecorate array count index).Follows source moved d Eq
      (readDescriptors .bits64 limits undecorate array' count index) := by
  induction count generalizing index with
  | zero => exact follows_done rfl
  | succ count ih =>
    unfold readDescriptors
    refine (follows_readDescriptor hmoved harray index).bind fun descriptor _ hsame => ?_
    subst hsame
    cases descriptor with
    | none => exact follows_done rfl
    | some descriptor =>
      refine (ih (index + 1)).bind fun rest _ hsame => ?_
      exact follows_done (congrArg _ hsame)

/-- The entries of an array are read from its start on. -/
theorem readsFrom_readDescriptors_bind {α : Type} {f : List Descriptor → Inspection α}
    {count index : Nat} (hsome : count ≠ 0) :
    (readDescriptors .bits64 limits undecorate array count index >>= f).ReadsFrom source
      array.start := by
  obtain ⟨count, rfl⟩ := Nat.exists_eq_succ_of_ne_zero hsome
  simp only [readDescriptors, readDescriptor, bind_assoc]
  exact readsFrom_add_bind fun _ => readsFrom_read

theorem follows_decode (hmoved : source.MovedBy d moved) (hlocator : locator.MovedBy d locator')
    (himage : ∀ imageBase, HoldsLinks source locator .bits64 (.relative imageBase) →
      imageBase.Movable d) :
    (decode .bits64 limits undecorate locator).Follows source moved d Eq
      (decode .bits64 limits undecorate locator') := by
  unfold decode
  refine follows_readBaseArray_bind hmoved hlocator himage
    (fun _ hsome => readsFrom_readDescriptors_bind hsome) fun array array' harray => ?_
  rw [← harray.count_eq]
  refine (follows_readDescriptors hmoved harray array.count 0).bind fun descriptors _ hsame => ?_
  subst hsame
  exact follows_lift

/-! ## The whole way -/

variable {h : ClassHierarchy}

/-- A locator that is decoded lies between the base of its image and the place of
its own offset. -/
theorem movable_locator (hwidth : source.width = .bits64)
    (hrun : (decode .bits64 limits undecorate locator).run source = .ok h)
    (himage : ∀ imageBase, HoldsLinks source locator .bits64 (.relative imageBase) →
      imageBase.Movable d)
    (hreads : ∀ access ∈ (decode .bits64 limits undecorate locator).reads source,
      access.address.Movable d) :
    locator.Movable d := by
  obtain ⟨array, harray, -⟩ := exists_of_run_bind_eq_ok hrun
  obtain ⟨links, hlinks, -⟩ := exists_of_run_bind_eq_ok harray
  have hconfined : (readLinks source.width locator).Confined source
      (ReadPlace source limits locator) (HoldsLinks source locator source.width) :=
    confined_readLinks
  rw [hwidth] at hconfined
  have hholds := hconfined.post_of_run links hlinks
  match links, hholds with
  | .relative imageBase, hholds =>
    have hfrom : (decode .bits64 limits undecorate locator).ReadsFrom source locator := by
      simp only [decode, readBaseArray, readLinks, bind_assoc]
      exact readsFrom_add_bind fun _ => readsFrom_read
    obtain ⟨access, hmem, hbelow⟩ := hfrom h hrun
    refine (himage imageBase hholds).of_between (hreads access hmem) ?_ hbelow
    obtain ⟨self, -, hbase, -⟩ := hholds
    rw [Address.le_def]
    omega

/-- A hierarchy that is decoded in a 64-bit process is decoded from the moved locator
of the moved process, if the image and all that is read still lie in 64 bits. -/
theorem run_decode_of_movedBy (limits : Limits) (undecorate : Undecorator)
    {source moved : Target} {d : Int} {locator : Address} {h : ClassHierarchy}
    (hmoved : source.MovedBy d moved) (hwidth : source.width = .bits64)
    (hrun : (decode source.width limits undecorate locator).run source = .ok h)
    (himage : ∀ imageBase, HoldsLinks source locator source.width (.relative imageBase) →
      imageBase.Movable d)
    (hreads : ∀ access ∈ (decode source.width limits undecorate locator).reads source,
      access.address.Movable d) :
    ∃ locator', locator.MovedBy d locator' ∧
      (decode moved.width limits undecorate locator').run moved = .ok h ∧
      List.Forall₂ (Access.MovedBy d)
        ((decode source.width limits undecorate locator).reads source)
        ((decode moved.width limits undecorate locator').reads moved) := by
  rw [← hmoved.width_eq]
  rw [hwidth] at hrun himage hreads ⊢
  obtain ⟨locator', hlocator⟩ := movable_locator hwidth hrun himage hreads
  obtain ⟨h', hrun', rfl, hforall⟩ := follows_decode hmoved hlocator himage h hrun hreads
  exact ⟨locator', hlocator, hrun', hforall⟩

/-- The image of the example, loaded one gigabyte below. -/
theorem run_decode_move_buttonMemory :
    let undecorate : Undecorator := fun name => .ok (DecoratedName.undecorate name)
    let limits : Limits := { nameUnits := 12 }
    let source := (buttonMemory .bits64).target
    let moved := source.move (-0x40000000)
    let names := ["ui::Button", "ui::Box", "Base", "Base"]
    let h : ClassHierarchy := ⟨.msvc, "ui::Button", names,
      .ofEdges [("ui::Button", "ui::Box"), ("ui::Box", "Base"), ("ui::Button", "Base")]⟩
    source.MovedBy (-0x40000000) moved ∧
      (decode source.width limits undecorate (.ofNat 0x140001000)).run source = .ok h ∧
      (decode moved.width limits undecorate (.ofNat 0x100001000)).run moved = .ok h := by
  intro undecorate limits source moved names h
  have hmoved : source.MovedBy (-0x40000000) moved := Target.movedBy_move _ _
  have hrun : (decode source.width limits undecorate (.ofNat 0x140001000)).run source = .ok h := by
    decide +kernel
  have hreads : ∀ access ∈
      (decode source.width limits undecorate (.ofNat 0x140001000)).reads source,
      access.address.Movable (-0x40000000) := by
    decide +kernel
  have himage : ∀ imageBase, HoldsLinks source (.ofNat 0x140001000) source.width
      (.relative imageBase) → imageBase.Movable (-0x40000000) := by
    rintro imageBase ⟨self, -, hbase, hself⟩
    have hfew : self < 0x100000000 := hself.1
    rw [Address.val_ofNat (by decide)] at hbase
    rw [Address.movable_iff]
    omega
  obtain ⟨locator', hlocator, hrun', -⟩ :=
    run_decode_of_movedBy limits undecorate hmoved rfl hrun himage hreads
  have hsame : locator' = .ofNat 0x100001000 := by
    rw [Address.MovedBy, Address.val_ofNat (by decide)] at hlocator
    rw [Address.ext_iff, Address.val_ofNat (by decide)]
    omega
  exact ⟨hmoved, hrun, hsame ▸ hrun'⟩

end Rtti.Msvc
