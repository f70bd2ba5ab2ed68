import Rtti.Proofs.Itanium.DepthFirst
import Rtti.Proofs.Itanium.Visits
import Rtti.Proofs.Msvc.AncestorPath
import Rtti.Proofs.Msvc.Decoding

/-!
# Names of decoded classes

A class without a name would be one with every other such class, so a hierarchy
should have none (`ClassHierarchy.Named`).  `named_of_run_decode` says which
hierarchies have none: all that are found in a base class array, which ends at
an entry without a name, and those of a class graph in which all bases have
names.  There a root without a name is an error, but a base without one is not.
-/

namespace Rtti

/-- Each class of the hierarchy has a name. -/
structure ClassHierarchy.Named (h : ClassHierarchy) : Prop where
  names : ∀ name ∈ h.names, name ≠ ""
  classes : ∀ name ∈ h.map.classes, name ≠ ""

instance (h : ClassHierarchy) : Decidable h.Named :=
  decidable_of_iff ((∀ name ∈ h.names, name ≠ "") ∧ ∀ name ∈ h.map.classes, name ≠ "")
    ⟨fun named => ⟨named.1, named.2⟩, fun named => ⟨named.names, named.classes⟩⟩

variable {target : Target} {width : PointerWidth} {limits : Limits} {hierarchy : ClassHierarchy}

/-! ## Base class arrays -/

namespace Msvc

variable {undecorate : Undecorator} {array : BaseArray} {index count : Nat}

/-- The undecorator makes no empty name of another one. -/
def KeepsNames (undecorate : Undecorator) : Prop :=
  ∀ decorated, decorated ≠ "" → undecorate decorated ≠ .ok ""

theorem keepsNames_undecorate :
    KeepsNames fun decorated => .ok (DecoratedName.undecorate decorated) := by
  intro decorated hdecorated hname
  have hname := Except.ok.inj hname
  unfold DecoratedName.undecorate at hname
  split at hname
  · split at hname
    · exact hdecorated hname
    · next hrendered =>
      rw [hname] at hrendered
      contradiction
  · exact hdecorated hname

theorem displayName_ne_empty (hkeeps : KeepsNames undecorate) {raw name : String}
    (hraw : raw.isEmpty = false) (hname : displayName undecorate raw = .ok name) : name ≠ "" := by
  unfold displayName at hname
  split at hname
  · cases hundecorated : undecorate ("?" ++ raw) with
    | error complaint =>
      rw [hundecorated] at hname
      contradiction
    | ok undecorated =>
      rw [hundecorated] at hname
      obtain rfl := Except.ok.inj hname
      rintro rfl
      refine hkeeps _ (fun hempty => ?_) hundecorated
      simpa using congrArg String.toList hempty
  · obtain rfl := Except.ok.inj hname
    simpa using hraw

/-- An entry has a name. -/
theorem name_ne_empty_of_run_readDescriptor (hkeeps : KeepsNames undecorate)
    {descriptor : Descriptor}
    (hrun : (readDescriptor width limits undecorate array index).run target =
      .ok (some descriptor)) : descriptor.name ≠ "" := by
  obtain ⟨entryAt, -, hrun⟩ := Inspection.exists_of_run_bind_eq_ok hrun
  obtain ⟨baseLink, -, hrun⟩ := Inspection.exists_of_run_bind_eq_ok hrun
  split at hrun
  · cases Except.ok.inj hrun
  obtain ⟨base, -, hrun⟩ := Inspection.exists_of_run_bind_eq_ok hrun
  obtain ⟨typeLink, -, hrun⟩ := Inspection.exists_of_run_bind_eq_ok hrun
  split at hrun
  · cases Except.ok.inj hrun
  obtain ⟨type, -, hrun⟩ := Inspection.exists_of_run_bind_eq_ok hrun
  obtain ⟨nameAt, -, hrun⟩ := Inspection.exists_of_run_bind_eq_ok hrun
  obtain ⟨raw, -, hrun⟩ := Inspection.exists_of_run_bind_eq_ok hrun
  split at hrun
  · cases Except.ok.inj hrun
  next hraw =>
  obtain ⟨name, hname, hrun⟩ := Inspection.exists_of_run_bind_eq_ok hrun
  obtain ⟨containedAt, -, hrun⟩ := Inspection.exists_of_run_bind_eq_ok hrun
  obtain ⟨contained, -, hrun⟩ := Inspection.exists_of_run_bind_eq_ok hrun
  obtain rfl := Option.some.inj (Except.ok.inj hrun)
  rw [Inspection.run_lift rfl] at hname
  exact displayName_ne_empty hkeeps (by simpa using hraw) hname

theorem name_ne_empty_of_run_readDescriptors (hkeeps : KeepsNames undecorate)
    {descriptors : List Descriptor}
    (hrun : (readDescriptors width limits undecorate array count index).run target =
      .ok descriptors) : ∀ descriptor ∈ descriptors, descriptor.name ≠ "" := by
  induction count generalizing index descriptors with
  | zero =>
    obtain rfl := Except.ok.inj hrun
    simp
  | succ count ih =>
    obtain ⟨entry, hentry, hrun⟩ := Inspection.exists_of_run_bind_eq_ok hrun
    cases entry with
    | none =>
      obtain rfl := Except.ok.inj hrun
      simp
    | some descriptor =>
      obtain ⟨rest, hrest, hrun⟩ := Inspection.exists_of_run_bind_eq_ok hrun
      obtain rfl := Except.ok.inj hrun
      exact List.forall_mem_cons.2
        ⟨name_ne_empty_of_run_readDescriptor hkeeps hentry, ih hrest⟩

/-- The hierarchy of entries with names has no class without one: its parents
and children are entries. -/
theorem named_of_hierarchy {descriptors : List Descriptor}
    (hnamed : ∀ descriptor ∈ descriptors, descriptor.name ≠ "")
    (hhierarchy : Msvc.hierarchy descriptors = .ok hierarchy) : hierarchy.Named := by
  cases descriptors with
  | nil => contradiction
  | cons root rest =>
    obtain ⟨hroot, hrest⟩ := List.forall_mem_cons.1 hnamed
    obtain rfl := Except.ok.inj hhierarchy
    have hnames : ∀ name ∈ rest.map (·.name), name ≠ "" := by
      intro name hname
      obtain ⟨descriptor, hdescriptor, rfl⟩ := List.mem_map.1 hname
      exact hrest descriptor hdescriptor
    refine ⟨List.forall_mem_cons.2 ⟨hroot, hnames⟩, fun name hname => ?_⟩
    have hentries : (rest.map fun d => (d.name, d.containedBases)).map Prod.fst =
        rest.map (·.name) := by
      rw [List.map_map]
      rfl
    obtain ⟨edge, hedge, rfl | rfl⟩ := InheritanceMap.mem_classes_ofEdges.1 hname
    · rw [← hentries] at hedge
      rcases mem_of_mem_edgesFrom hedge with hpath | hentry
      · exact List.mem_singleton.1 hpath ▸ hroot
      · rw [hentries] at hentry
        exact hnames _ hentry
    · exact hnames _ (List.of_mem_zip hedge).2

theorem named_of_run (hkeeps : KeepsNames undecorate) {locator : Address}
    (hrun : (decode width limits undecorate locator).run target = .ok hierarchy) :
    hierarchy.Named := by
  obtain ⟨array, -, hrun⟩ := Inspection.exists_of_run_bind_eq_ok hrun
  obtain ⟨descriptors, hdescriptors, hrun⟩ := Inspection.exists_of_run_bind_eq_ok hrun
  rw [Inspection.run_lift rfl] at hrun
  exact named_of_hierarchy (name_ne_empty_of_run_readDescriptors hkeeps hdescriptors) hrun

end Msvc

/-! ## Class graphs -/

namespace Itanium

variable {typeInfo : Address}

theorem root_ne_empty_of_run
    (hrun : (decode width limits typeInfo).run target = .ok hierarchy) : hierarchy.root ≠ "" := by
  obtain ⟨root, final, -, hroot, -, rfl⟩ := ends_of_run_decode hrun
  simpa using hroot

/-- The edges of all classes that the walk from a `type_info` expands. -/
def foundEdges (target : Target) (width : PointerWidth) (limits : Limits) (typeInfo : Address) :
    List (String × String) :=
  (expansions target width limits typeInfo).flatMap Expansion.edges

/-- The children of the edges are the bases that were found. -/
theorem forall_foundEdges_iff :
    (∀ edge ∈ foundEdges target width limits typeInfo, edge.2 ≠ "") ↔
      ∀ expansion ∈ expansions target width limits typeInfo,
        ∀ base ∈ expansion.bases, base.1 ≠ "" := by
  simp only [foundEdges, Expansion.edges, List.forall_mem_flatMap, List.forall_mem_map]

/-- A listed class is the root or the child of an edge. -/
theorem eq_root_or_mem_foundEdges_of_run
    (hrun : (decode width limits typeInfo).run target = .ok hierarchy) {name : String}
    (hname : name ∈ hierarchy.names) :
    name = hierarchy.root ∨ ∃ parent, (parent, name) ∈ foundEdges target width limits typeInfo := by
  have hreaches := (firstVisits_of_run_decode hrun).2.mem_iff_reaches.1 hname
  rcases Relation.ReflTransGen.cases_tail hreaches with hroot | ⟨parent, -, hchild⟩
  · exact .inl hroot
  · rw [(found_of_run_decode hrun).2, InheritanceMap.mem_children_ofEdges] at hchild
    exact .inr ⟨parent, hchild⟩

/-- All classes have names exactly if the bases that were found have. -/
theorem named_iff_of_run
    (hrun : (decode width limits typeInfo).run target = .ok hierarchy) :
    hierarchy.Named ↔
      ∀ expansion ∈ expansions target width limits typeInfo,
        ∀ base ∈ expansion.bases, base.1 ≠ "" := by
  have hclasses : ∀ name, name ∈ hierarchy.map.classes ↔
      ∃ edge ∈ foundEdges target width limits typeInfo, name = edge.1 ∨ name = edge.2 := by
    rw [(found_of_run_decode hrun).2]
    exact fun _ => InheritanceMap.mem_classes_ofEdges
  rw [← forall_foundEdges_iff]
  constructor
  · intro hnamed edge hedge
    exact hnamed.classes edge.2 ((hclasses edge.2).2 ⟨edge, hedge, .inr rfl⟩)
  · intro hchildren
    have hlisted : ∀ name ∈ hierarchy.names, name ≠ "" := by
      intro name hname
      rcases eq_root_or_mem_foundEdges_of_run hrun hname with rfl | ⟨parent, hedge⟩
      · exact root_ne_empty_of_run hrun
      · exact hchildren (parent, name) hedge
    refine ⟨hlisted, fun name hname => ?_⟩
    obtain ⟨edge, hedge, rfl | rfl⟩ := (hclasses name).1 hname
    · exact hlisted edge.1 (parent_mem_names_of_run hrun hedge)
    · exact hchildren edge hedge

end Itanium

/-! ## Decoded hierarchies -/

/-- The hierarchy of a base class array has no class without a name if the
undecorator keeps names.  That of a class graph has a root with a name, and it
has no class without one exactly if all bases that were found have names. -/
theorem named_of_run_decode (target : Target) (width : PointerWidth) (limits : Limits) :
    (∀ undecorate, Msvc.KeepsNames undecorate → ∀ locator h,
      (Msvc.decode width limits undecorate locator).run target = .ok h → h.Named) ∧
    ∀ typeInfo h, (Itanium.decode width limits typeInfo).run target = .ok h →
      h.root ≠ "" ∧
      (h.Named ↔ ∀ expansion ∈ Itanium.expansions target width limits typeInfo,
        ∀ base ∈ expansion.bases, base.1 ≠ "") :=
  ⟨fun _ hkeeps _ _ hrun => Msvc.named_of_run hkeeps hrun,
    fun _ _ hrun => ⟨Itanium.root_ne_empty_of_run hrun, Itanium.named_iff_of_run hrun⟩⟩

/-! ## An example -/

/-- The memory of a process with a class and its base, whose mangled name is
`base`. -/
def derivedFrom (base : String) : Snapshot :=
  let words := List.flatMap (Word.toBytes 8)
  let text (units : Nat) (s : String) := (Utf8.encode s).rightpad units 0
  [ (0x30000, words [0x40028, 0x50000, 0x30100]), (0x30100, words [0x40020, 0x50100]),
    (0x40000, words [0x60000, 0x60100]),
    (0x50000, text 8 "7Derived"), (0x50100, text 8 base),
    (0x60000, text 64 "N10__cxxabiv117__class_type_infoE"),
    (0x60100, text 64 "N10__cxxabiv120__si_class_type_infoE")].foldl
    (fun s region => s.addRegion (.ofNat region.1) region.2) ⟨.bits64, none, .empty⟩

/-- A base whose mangled name is a number has no name, and it is found
nevertheless.  The other examples name their classes. -/
theorem not_named_derivedFrom :
    let undecorate : Msvc.Undecorator := fun decorated => .ok (DecoratedName.undecorate decorated)
    let button : ClassHierarchy :=
      ⟨.msvc, "ui::Button", ["ui::Button", "ui::Box", "Base", "Base"],
        .ofEdges [("ui::Button", "ui::Box"), ("ui::Box", "Base"), ("ui::Button", "Base")]⟩
    let derived (base : String) : ClassHierarchy :=
      ⟨.itanium, "Derived", ["Derived", base], .ofEdges [("Derived", base)]⟩
    ((Msvc.decode .bits64 { nameUnits := 12 } undecorate (.ofNat 0x140001000)).run
        (Msvc.buttonMemory .bits64).target = .ok button ∧ button.Named) ∧
    ((Itanium.decode .bits64 { nameUnits := 8 } (.ofNat 0x30000)).run
        (derivedFrom "4Base").target = .ok (derived "Base") ∧ (derived "Base").Named) ∧
    ((Itanium.decode .bits64 { nameUnits := 8 } (.ofNat 0x30000)).run
        (derivedFrom "4").target = .ok (derived "") ∧ ¬(derived "").Named) := by
  intro undecorate button derived
  have hbutton : (Msvc.decode .bits64 { nameUnits := 12 } undecorate (.ofNat 0x140001000)).run
      (Msvc.buttonMemory .bits64).target = .ok button := by decide +kernel
  have hnamed : (Itanium.decode .bits64 { nameUnits := 8 } (.ofNat 0x30000)).run
      (derivedFrom "4Base").target = .ok (derived "Base") := by decide +kernel
  have hunnamed : (Itanium.decode .bits64 { nameUnits := 8 } (.ofNat 0x30000)).run
      (derivedFrom "4").target = .ok (derived "") := by decide +kernel
  obtain ⟨hmsvc, -⟩ :=
    named_of_run_decode (Msvc.buttonMemory .bits64).target .bits64 { nameUnits := 12 }
  obtain ⟨-, hfirst⟩ := named_of_run_decode (derivedFrom "4Base").target .bits64 { nameUnits := 8 }
  obtain ⟨-, hsecond⟩ := named_of_run_decode (derivedFrom "4").target .bits64 { nameUnits := 8 }
  refine ⟨⟨hbutton, hmsvc undecorate Msvc.keepsNames_undecorate _ _ hbutton⟩,
    ⟨hnamed, (hfirst _ _ hnamed).2.2 (by decide +kernel)⟩, hunnamed, fun hall => ?_⟩
  have hbases := (hsecond _ _ hunnamed).2.1 hall
  revert hbases
  decide +kernel

end Rtti
