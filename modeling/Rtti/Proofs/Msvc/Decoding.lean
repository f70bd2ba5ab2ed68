import Rtti.DecoratedName
import Rtti.Memory.Snapshot
import Rtti.Proofs.Msvc.Layout

/-!
# Decoding a class tree from memory

A memory that holds an object locator is decoded to the tree of classes that
the locator describes.  The names are those of the classes in pre-order, and
the children of each class are its direct bases.

The reader gives the entries of the base class array (`run_readDescriptors`),
and `hierarchy_preorder` makes the hierarchy of them.
-/

namespace Rtti.Msvc

/-! ## The hierarchy of the entries -/

/-- The entry under another label. -/
def Open.relabel {ν μ : Type} (f : ν → μ) (entry : Open ν) : Open μ :=
  ⟨f entry.label, entry.remaining⟩

/-- The parents do not depend on what the labels are. -/
theorem parents_map {ν μ : Type} (f : ν → μ) (root : ν) (opened : List (Open ν))
    (entries : List (ν × Nat)) :
    parents (f root) (opened.map (Open.relabel f)) (entries.map (Prod.map f id)) =
      (parents root opened entries).map f := by
  induction entries generalizing opened with
  | nil => rfl
  | cons entry entries ih =>
    obtain ⟨label, contained⟩ := entry
    have hkept : (opened.map (Open.relabel f)).dropWhile (fun e => decide (e.remaining = 0)) =
        (opened.dropWhile fun e => decide (e.remaining = 0)).map (Open.relabel f) :=
      List.dropWhile_map ..
    rw [List.map_cons, Prod.map_apply, parents, parents]
    simp only [hkept]
    generalize opened.dropWhile (fun e => decide (e.remaining = 0)) = kept
    have hrest := ih (⟨label, contained⟩ ::
      kept.map fun e => { e with remaining := e.remaining - 1 })
    rw [List.map_cons, List.map_map] at hrest
    rw [List.map_cons, ← hrest, List.map_map]
    cases kept <;> rfl

namespace ClassTree

variable {undecorate : Undecorator} {name : String}

/-- The edges of the tree under the displayed names of its classes. -/
def shownEdges (undecorate : Undecorator) (tree : ClassTree) : List (String × String) :=
  tree.edges.map fun edge => (shown undecorate edge.1, shown undecorate edge.2)

/-- The entries of the tree give the hierarchy of the tree. -/
theorem hierarchy_preorder (tree : ClassTree) :
    hierarchy (tree.preorder.map (descriptor undecorate)) =
      .ok ⟨.msvc, shown undecorate tree.raw, tree.subtrees.map (shown undecorate ·.raw),
        .ofEdges (tree.shownEdges undecorate)⟩ := by
  have hnames : tree.subtrees.map (shown undecorate ·.raw) =
      (tree.preorder.map Prod.fst).map (shown undecorate) := by
    rw [← map_raw_subtrees, List.map_map]
    rfl
  cases tree with
  | node raw bases =>
    have hparents := parents_map (shown undecorate) raw [] (preorderAll bases)
    rw [List.map_nil, parents_preorder raw bases] at hparents
    have hchildren : (preorderAll bases).map Prod.fst = (node raw bases).edges.map Prod.snd :=
      (List.cons.inj (map_snd_edges (node raw bases))).2.symm
    have hentries : ((preorderAll bases).map (descriptor undecorate)).map
        (fun d => (d.name, d.containedBases)) =
        (preorderAll bases).map (Prod.map (shown undecorate) id) := by
      rw [List.map_map]
      rfl
    have hlabels : ((preorderAll bases).map (descriptor undecorate)).map (·.name) =
        ((preorderAll bases).map Prod.fst).map (shown undecorate) := by
      rw [List.map_map, List.map_map]
      rfl
    rw [hnames, preorder, List.map_cons, hierarchy]
    simp only [hentries, hlabels]
    rw [show (descriptor undecorate (raw, (preorderAll bases).length)).name =
      shown undecorate raw from rfl, hparents, hchildren, List.map_map, List.map_map,
      List.zip_map']
    rw [List.map_cons, List.map_cons, hchildren, List.map_map]
    rfl

theorem children_shownEdges (tree : ClassTree) (name : String) :
    (InheritanceMap.ofEdges (tree.shownEdges undecorate)).children name =
      (tree.basesNamed (shown undecorate) name).eraseDups := by
  rw [InheritanceMap.children_ofEdges, shownEdges, List.filter_map, List.map_map]
  rfl

end ClassTree

/-! ## The whole way -/

variable {target : Target} {width : PointerWidth} {limits : Limits} {undecorate : Undecorator}
  {links : Links} {hierarchyAt arrayAt locator : Address} {tree : ClassTree}

/-- A class tree that a memory holds is decoded to itself, classes of one
displayed name being one class. -/
theorem run_decode_of_holdsLocator
    (hheld : tree.HoldsLocator target width limits.nameUnits links hierarchyAt arrayAt locator)
    (hencoding : limits.encoding = .utf8) (hunits : limits.nameUnits < 0x10000000000000000)
    (hfew : tree.preorder.length ≤ limits.msvcBases)
    (hnames : ∀ sub ∈ tree.subtrees, Nameable undecorate sub.raw)
    (hconsistent : tree.Consistent (shown undecorate)) :
    ∃ hierarchy, (decode width limits undecorate locator).run target = .ok hierarchy ∧
      hierarchy.abi = .msvc ∧ hierarchy.root = shown undecorate tree.raw ∧
      hierarchy.names = tree.subtrees.map (shown undecorate ·.raw) ∧
      (∀ sub ∈ tree.subtrees, hierarchy.map.children (shown undecorate sub.raw) =
        (sub.bases.map (shown undecorate ·.raw)).eraseDups) ∧
      ∀ name, (∀ sub ∈ tree.subtrees, shown undecorate sub.raw ≠ name) →
        hierarchy.map.children name = [] := by
  have hsome : tree.preorder.length ≠ 0 := by
    cases tree with
    | node raw bases => simp [ClassTree.preorder]
  have hentryNames : ∀ entry ∈ tree.preorder, Nameable undecorate entry.1 := by
    intro entry hentry
    have hraw : entry.1 ∈ tree.subtrees.map ClassTree.raw := by
      rw [ClassTree.map_raw_subtrees]
      exact List.mem_map_of_mem hentry
    obtain ⟨sub, hsub, hsubRaw⟩ := List.mem_map.1 hraw
    rw [← hsubRaw]
    exact hnames sub hsub
  have hentries : ∀ (i : Nat) (_ : i < tree.preorder.length), HoldsEntry target width
      limits.nameUnits links (arrayAt.val + 4 * (0 + i)) tree.preorder[i] := by
    intro i hi
    rw [Nat.zero_add]
    exact hheld.entry i hi
  have harray := run_readBaseArray hheld hsome hfew
  have hdescriptors := @run_readDescriptors target width limits undecorate
    ⟨links, arrayAt, tree.preorder.length⟩ tree.preorder 0 hentries hentryNames hencoding hunits
  have hdecode : (decode width limits undecorate locator).run target =
      .ok ⟨.msvc, shown undecorate tree.raw, tree.subtrees.map (shown undecorate ·.raw),
        .ofEdges (tree.shownEdges undecorate)⟩ := by
    rw [decode, Inspection.run_bind_of_ok harray, Inspection.run_bind_of_ok hdescriptors]
    exact Inspection.run_lift (ClassTree.hierarchy_preorder tree)
  refine ⟨_, hdecode, rfl, rfl, rfl, fun sub hsub => ?_, fun name hname => ?_⟩
  · rw [ClassTree.children_shownEdges]
    exact hconsistent.eraseDups_basesNamed hsub
  · rw [ClassTree.children_shownEdges, ClassTree.basesNamed_of_forall_ne hname]
    rfl

/-! ## An example -/

/-- A class that inherits `Base` twice, once through another class. -/
def button : ClassTree :=
  .node "Button@ui@@" [.node "Box@ui@@" [.node "Base" []], .node "Base" []]

/-- Where the image of the example begins. -/
def buttonImage : PointerWidth → Nat
  | .bits64 => 0x140000000
  | .bits32 => 0x400000

/-- How the links of the example are meant. -/
def buttonLinks : PointerWidth → Links
  | .bits64 => .relative (.ofNat 0x140000000)
  | .bits32 => .absolute

/-- The memory of a process with an object of `button`. -/
def buttonMemory (width : PointerWidth) : Snapshot :=
  let link (offset : Nat) := buttonImage width + offset - (buttonLinks width).origin
  let words := List.flatMap (Word.toBytes 4)
  let base (type contained : Nat) := words [link type, contained]
  let type (name : String) :=
    List.replicate (2 * width.bytes + 4) 0 ++ (Utf8.encode name).rightpad 12 0
  [ (0x1000, List.replicate 16 0 ++ words [link 0x2000, 0x1000]),
    (0x2000, words [0, 0, 4, link 0x3000]),
    (0x3000, words [link 0x4000, link 0x4100, link 0x4200, link 0x4300]),
    (0x4000, base 0x5000 3), (0x4100, base 0x5100 1), (0x4200, base 0x5200 0),
    (0x4300, base 0x5200 0), (0x5000, type "Button@ui@@"), (0x5100, type "Box@ui@@"),
    (0x5200, type "Base")].foldl
    (fun s region => s.addRegion (.ofNat (buttonImage width + region.1)) region.2)
    ⟨width, none, .empty⟩

theorem holdsLocator_button (width : PointerWidth) :
    button.HoldsLocator (buttonMemory width).target width (Limits.nameUnits { nameUnits := 12 })
      (buttonLinks width) (.ofNat (buttonImage width + 0x2000))
      (.ofNat (buttonImage width + 0x3000)) (.ofNat (buttonImage width + 0x1000)) where
  image := by
    cases width with
    | bits32 => trivial
    | bits64 => exact ⟨0x1000, by decide, by decide, by decide +kernel⟩
  hierarchyLink := ⟨buttonImage width + 0x2000 - (buttonLinks width).origin,
    by cases width <;> decide, by cases width <;> decide, by cases width <;> decide +kernel⟩
  count := by cases width <;> decide +kernel
  arrayLink := ⟨buttonImage width + 0x3000 - (buttonLinks width).origin,
    by cases width <;> decide, by cases width <;> decide, by cases width <;> decide +kernel⟩
  entry := by
    have hentries : ∀ (i : Nat) (_ : i < button.preorder.length),
        let target := (buttonMemory width).target
        let base := Address.ofNat (buttonImage width + 0x4000 + 0x100 * i)
        let type := Address.ofNat (buttonImage width + 0x5000 + 0x100 * min i 2)
        let array := Address.ofNat (buttonImage width + 0x3000)
        let origin := (buttonLinks width).origin
        (base.val - origin ≠ 0 ∧ origin + (base.val - origin) = base.val ∧
          target.HoldsWord (array.val + 4 * i) 4 (base.val - origin)) ∧
        (type.val - origin ≠ 0 ∧ origin + (type.val - origin) = type.val ∧
          target.HoldsWord base.val 4 (type.val - origin)) ∧
        target.HoldsText (type.val + nameOffset width) 12 button.preorder[i].1 ∧
        target.HoldsWord (base.val + 4) 4 button.preorder[i].2 := by
      cases width <;> decide +kernel
    intro i hi
    obtain ⟨hbase, htype, htext, hcontained⟩ := hentries i hi
    refine ⟨_, _, ⟨_, hbase⟩, ⟨_, htype⟩, ?_, hcontained⟩
    cases width with
    | bits32 => exact htext
    | bits64 => exact htext

/-- The example is decoded in processes of both widths, the two occurrences of `Base`
being one class of the map. -/
theorem run_decode_buttonMemory :
    let undecorate : Undecorator := fun name => .ok (DecoratedName.undecorate name)
    let decoded (width : PointerWidth) (locator : Nat) :=
      (decode width { nameUnits := 12 } undecorate (.ofNat locator)).run (buttonMemory width).target
    let isButton (hierarchy : ClassHierarchy) :=
      hierarchy.names = ["ui::Button", "ui::Box", "Base", "Base"] ∧
        hierarchy.map.children "ui::Button" = ["ui::Box", "Base"]
    (∃ hierarchy, decoded .bits64 0x140001000 = .ok hierarchy ∧ isButton hierarchy) ∧
      ∃ hierarchy, decoded .bits32 0x401000 = .ok hierarchy ∧ isButton hierarchy := by
  intro undecorate decoded isButton
  have hstorable : ∀ sub ∈ button.subtrees, sub.raw ≠ "" ∧ '\x00' ∉ sub.raw.toList := by
    decide +kernel
  have hnameable : ∀ sub ∈ button.subtrees, Nameable undecorate sub.raw := fun sub hsub =>
    ⟨(hstorable sub hsub).1, (hstorable sub hsub).2, fun _ => rfl⟩
  have hconsistent : button.Consistent (shown undecorate) := by
    unfold ClassTree.Consistent
    decide +kernel
  have hshown : shown undecorate button.raw = "ui::Button" := by decide +kernel
  have hfound (width : PointerWidth) : ∃ hierarchy,
      decoded width (buttonImage width + 0x1000) = .ok hierarchy ∧ isButton hierarchy := by
    obtain ⟨hierarchy, hdecode, -, -, hnames, hchildren, -⟩ :=
      run_decode_of_holdsLocator (holdsLocator_button width) rfl (by decide) (by decide)
        hnameable hconsistent
    have hbutton := hchildren button (ClassTree.mem_subtrees.2 (.inl rfl))
    rw [hshown] at hbutton
    refine ⟨hierarchy, hdecode, ?_, ?_⟩
    · rw [hnames]
      decide +kernel
    · rw [hbutton]
      decide +kernel
  exact ⟨hfound .bits64, hfound .bits32⟩

end Rtti.Msvc
