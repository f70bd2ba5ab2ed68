import Rtti.Proofs.Graph.FirstVisits
import Rtti.Proofs.Hierarchy.Edges
import Rtti.Proofs.Itanium.DepthFirst
import Rtti.Proofs.Itanium.Layout

/-!
# Decoding a class graph from memory

A memory that holds the `type_info`s of a class graph is decoded to the graph:
the names are those of the classes that can be reached from the root, in the
order of their first visits, and the children of each are its bases.

The walk over the memory is compared with the search on the graph
(`Graph.FirstVisits`) through the recursive traversal.  `run_explore` is the
induction on the search.
-/

namespace Rtti.Itanium

open Rtti.Graph

variable {ι : Type} {target : Target} {width : PointerWidth} {limits : Limits} {g : ClassGraph ι}
  {place : ι → Address} {c root : ι} {seen todo order : List ι}

namespace ClassGraph

/-- The memory holds the graph, and a scan with these limits may read all of
each class. -/
structure Stored (g : ClassGraph ι) (target : Target) (width : PointerWidth) (limits : Limits)
    (place : ι → Address) : Prop where
  encoding : limits.encoding = .utf8
  /-- The number of bytes of a name is a 64-bit number. -/
  nameUnits : limits.nameUnits < 0x10000000000000000
  few (c : ι) : (g.bases c).length ≤ limits.itaniumBases
  typeInfo (c : ι) : g.HoldsTypeInfo target width limits.nameUnits place c

/-- A class as the walk sees it. -/
def located (g : ClassGraph ι) (place : ι → Address) (c : ι) : String × Address :=
  (g.name c, place c)

def edges (g : ClassGraph ι) (c : ι) : List (String × String) :=
  (g.bases c).map fun base => (g.name c, g.name base)

/-- What a traversal has found after visits to some classes. -/
def traversal (g : ClassGraph ι) (order : List ι) : Traversal where
  names := order.map g.name
  map := .ofEdges (order.flatMap g.edges)

/-! ## One class -/

theorem run_namedBases (hstored : g.Stored target width limits place)
    (hbelow : g.EndsBelowTop width place c) :
    (namedBases width limits (place c)).run target = .ok ((g.bases c).map (g.located place)) := by
  have hnames : (((g.shape c).records width place).mapM fun base =>
      nameOf width limits base.typeInfo).run target = .ok ((g.bases c).map g.name) := by
    have hmap : (((g.shape c).records width place).mapM fun base =>
        nameOf width limits base.typeInfo) =
        (g.bases c).mapM fun base => nameOf width limits (place base) :=
      calc ((g.shape c).records width place).mapM (nameOf width limits ∘ (·.typeInfo))
        _ = (((g.shape c).records width place).map (·.typeInfo)).mapM (nameOf width limits) :=
          List.mapM_map.symm
        _ = ((g.bases c).map place).mapM (nameOf width limits) := by
          rw [Shape.map_typeInfo_records, bases]
        _ = (g.bases c).mapM (nameOf width limits ∘ place) := List.mapM_map
    rw [hmap]
    exact Inspection.run_mapM_of_ok fun base _ =>
      run_nameOf (hstored.typeInfo base) hstored.encoding hstored.nameUnits
  rw [namedBases, Inspection.run_bind_of_ok (run_expand (hstored.typeInfo c) hbelow
      (hstored.few c) hstored.encoding hstored.nameUnits), Inspection.run_bind_of_ok hnames,
    Shape.map_typeInfo_records]
  exact congrArg Except.ok (List.zip_map' ..)

theorem run_namedBases_of_top (hstored : g.Stored target width limits place)
    (htop : ¬ g.EndsBelowTop width place c) :
    ∃ address offset, (namedBases width limits (place c)).run target =
      .error (.unknownStructure (.overflow address offset)) := by
  obtain ⟨address, offset, herror⟩ :=
    run_expand_of_top (hstored.typeInfo c) htop hstored.encoding hstored.nameUnits
  exact ⟨address, offset, Inspection.run_bind_of_error herror⟩

theorem record_traversal :
    (g.traversal seen).record (g.name c) ((g.bases c).map (g.located place)) =
      g.traversal (seen ++ [c]) := by
  simp [Traversal.record, traversal, edges, located, InheritanceMap.ofEdges, List.foldl_map]

theorem name_mem_traversal : g.name c ∈ (g.traversal seen).names ↔ c ∈ seen := by
  simp [traversal, g.name_injective.eq_iff]

/-! ## The traversal -/

theorem explore_cons_of_new {rest : List (String × Address)} (hnew : c ∉ seen)
    (hroom : seen.length < limits.nodes) :
    Traversal.explore width limits (g.traversal seen) (g.located place c :: rest) =
      (do
        let bases ← namedBases width limits (place c)
        let found ← Traversal.explore width limits ((g.traversal seen).record (g.name c) bases)
          bases
        Traversal.explore width limits found rest) :=
  Traversal.explore_cons_of_new (mt name_mem_traversal.1 hnew)
    (by rwa [traversal, List.length_map])

/-- The traversal of the memory follows the search on the graph. -/
theorem run_explore (hstored : g.Stored target width limits place)
    (hvisits : FirstVisits g.bases seen todo order) (hroom : order.length ≤ limits.nodes)
    (hbelow : ∀ c ∈ order, g.EndsBelowTop width place c) :
    (Traversal.explore width limits (g.traversal seen) (todo.map (g.located place))).run target =
      .ok (g.traversal order) := by
  induction hvisits with
  | done => rw [List.map_nil, Traversal.explore_nil]; rfl
  | skip hseen _ ih =>
    rw [List.map_cons, located, Traversal.explore_cons_of_mem (name_mem_traversal.2 hseen)]
    exact ih hroom hbelow
  | @visit seen todo below order node hnew hsearch hrest ihsearch ihrest =>
    have hlonger := hsearch.seen_prefix.trans hrest.seen_prefix
    have hlength := hlonger.length_le
    rw [List.length_append, List.length_singleton] at hlength
    have hnode := hbelow node (hlonger.subset (by simp))
    have hsearchBelow := ihsearch (hrest.seen_prefix.length_le.trans hroom)
      fun c hc => hbelow c (hrest.seen_prefix.subset hc)
    rw [List.map_cons, explore_cons_of_new hnew (by omega),
      Inspection.run_bind_of_ok (run_namedBases hstored hnode), record_traversal,
      Inspection.run_bind_of_ok hsearchBelow]
    exact ihrest hroom hbelow

/-- The traversal fails at the first class that ends at the top of the address
space. -/
theorem run_explore_of_top (hstored : g.Stored target width limits place)
    (hvisits : FirstVisits g.bases seen todo order) (hroom : order.length ≤ limits.nodes)
    (hseen : ∀ c ∈ seen, g.EndsBelowTop width place c)
    (htop : ∃ c ∈ order, ¬ g.EndsBelowTop width place c) :
    ∃ address offset,
      (Traversal.explore width limits (g.traversal seen) (todo.map (g.located place))).run target =
        .error (.unknownStructure (.overflow address offset)) := by
  induction hvisits with
  | done =>
    obtain ⟨c, hc, hctop⟩ := htop
    exact absurd (hseen c hc) hctop
  | skip hin _ ih =>
    rw [List.map_cons, located, Traversal.explore_cons_of_mem (name_mem_traversal.2 hin)]
    exact ih hroom hseen htop
  | @visit seen todo below order node hnew hsearch hrest ihsearch ihrest =>
    have hlonger := hsearch.seen_prefix.trans hrest.seen_prefix
    have hlength := hlonger.length_le
    rw [List.length_append, List.length_singleton] at hlength
    have hroomBelow := hrest.seen_prefix.length_le.trans hroom
    rw [List.map_cons, explore_cons_of_new hnew (by omega)]
    by_cases hnode : g.EndsBelowTop width place node
    · have hseen' : ∀ c ∈ seen ++ [node], g.EndsBelowTop width place c := by
        simpa [or_imp, forall_and] using ⟨hseen, hnode⟩
      rw [Inspection.run_bind_of_ok (run_namedBases hstored hnode), record_traversal]
      by_cases hinside : ∃ c ∈ below, ¬ g.EndsBelowTop width place c
      · obtain ⟨address, offset, herror⟩ := ihsearch hroomBelow hseen' hinside
        exact ⟨address, offset, Inspection.run_bind_of_error herror⟩
      · have hbelow : ∀ c ∈ below, g.EndsBelowTop width place c := by
          simpa using hinside
        rw [Inspection.run_bind_of_ok (run_explore hstored hsearch hroomBelow hbelow)]
        exact ihrest hroom hbelow htop
    · obtain ⟨address, offset, herror⟩ := run_namedBases_of_top hstored hnode
      exact ⟨address, offset, Inspection.run_bind_of_error herror⟩

/-! ## The walk -/

/-- A walk that knows only classes of the graph expands none with two bases of
one name: classes of the graph have distinct names. -/
theorem unambiguous_of_mem_expansions (hstored : g.Stored target width limits place) {budget : Nat}
    {walk : Walk} (hlocated : ∀ name typeInfo, walk.located.get? name = some typeInfo →
      ∃ c, g.located place c = (name, typeInfo)) :
    ∀ expansion ∈ walk.expansions target width limits budget, expansion.Unambiguous := by
  induction budget generalizing walk with
  | zero => simp [Walk.expansions]
  | succ budget ih =>
    intro expansion hmem
    obtain ⟨name, stack, typeInfo, bases, hget, hbases, hexpansion⟩ :=
      Walk.eq_or_mem_of_mem_expansions hmem
    obtain ⟨c, hc⟩ := hlocated name typeInfo hget
    obtain ⟨rfl, rfl⟩ := Prod.mk.inj hc
    have hfound : bases = (g.bases c).map (g.located place) := by
      by_cases hbelow : g.EndsBelowTop width place c
      · rw [run_namedBases hstored hbelow] at hbases
        exact (Except.ok.inj hbases).symm
      · obtain ⟨address, offset, herror⟩ := run_namedBases_of_top hstored hbelow
        rw [herror] at hbases
        contradiction
    rcases hexpansion with rfl | hlater
    · intro base hbase other hother hname
      simp only [hfound, List.mem_map] at hbase hother
      obtain ⟨b, -, rfl⟩ := hbase
      obtain ⟨b', -, rfl⟩ := hother
      exact congrArg place (g.name_injective hname)
    · refine ih ?_ expansion hlater
      intro other place' hother
      rcases SortedMap.mem_or_get?_of_get?_foldl_insert hother with hbase | hbefore
      · rw [hfound, List.mem_map] at hbase
        obtain ⟨b, -, hb⟩ := hbase
        exact ⟨b, hb⟩
      · exact hlocated other place' hbefore

/-- The walk from a class of the graph ends as the traversal does. -/
theorem run_decode_eq_map_explore (hstored : g.Stored target width limits place) (root : ι) :
    (decode width limits (place root)).run target =
      ((Traversal.explore width limits (g.traversal []) ([root].map (g.located place))).run
        target).map fun found => ⟨.itanium, g.name root, found.names, found.map⟩ := by
  refine run_decode_eq_explore
    (run_nameOf (hstored.typeInfo root) hstored.encoding hstored.nameUnits) ?_ ?_
  · simpa [String.isEmpty_iff] using g.name_ne_empty root
  · refine unambiguous_of_mem_expansions hstored fun name typeInfo hget => ?_
    simp only [Walk.start, SortedMap.ofList, List.foldl_cons, List.foldl_nil,
      SortedMap.get?_insert, SortedMap.get?_empty] at hget
    split at hget
    · next hname => exact ⟨root, by rw [located, hname, Option.some.inj hget]⟩
    · contradiction

/-! ## The hierarchy -/

theorem filter_edges_of_ne {name : String} (hname : g.name c ≠ name) :
    (g.edges c).filter (·.1 = name) = [] := by
  simp [edges, hname]

theorem filter_flatMap_edges_of_not_mem {name : String} (hname : name ∉ order.map g.name) :
    (order.flatMap g.edges).filter (·.1 = name) = [] := by
  induction order with
  | nil => rfl
  | cons node order ih =>
    obtain ⟨hnode, horder⟩ := List.ne_and_not_mem_of_not_mem_cons hname
    rw [List.flatMap_cons, List.filter_append, filter_edges_of_ne hnode.symm, ih horder]
    rfl

theorem filter_flatMap_edges (hnodup : order.Nodup) (hc : c ∈ order) :
    (order.flatMap g.edges).filter (·.1 = g.name c) = g.edges c := by
  induction order with
  | nil => exact absurd hc List.not_mem_nil
  | cons node order ih =>
    obtain ⟨hnode, horder⟩ := List.nodup_cons.1 hnodup
    rw [List.flatMap_cons, List.filter_append]
    rcases List.mem_cons.1 hc with rfl | hlater
    · have hself : (g.edges c).filter (·.1 = g.name c) = g.edges c := by
        simp [edges]
      have hrest : g.name c ∉ order.map g.name := by
        simpa [g.name_injective.eq_iff] using hnode
      rw [hself, filter_flatMap_edges_of_not_mem hrest, List.append_nil]
    · have hne : g.name node ≠ g.name c := by
        intro h
        exact hnode (g.name_injective h ▸ hlater)
      rw [filter_edges_of_ne hne, List.nil_append, ih horder hlater]

theorem children_traversal (hnodup : order.Nodup) (hc : c ∈ order) :
    (g.traversal order).map.children (g.name c) = ((g.bases c).map g.name).eraseDups := by
  rw [traversal, InheritanceMap.children_ofEdges, filter_flatMap_edges hnodup hc,
    edges, List.map_map]
  rfl

theorem children_traversal_of_not_mem {name : String} (hname : name ∉ order.map g.name) :
    (g.traversal order).map.children name = [] := by
  rw [traversal, InheritanceMap.children_ofEdges, filter_flatMap_edges_of_not_mem hname]
  rfl

end ClassGraph

/-- A class graph that a memory holds is decoded to itself, unless a class
without bases ends at the top of the address space: the scan then fails, as it
computes the address after the class. -/
theorem run_decode_of_stored (hstored : g.Stored target width limits place)
    (hfew : {c | Reaches g.bases root c}.encard ≤ limits.nodes) :
    ((∀ c, Reaches g.bases root c → g.EndsBelowTop width place c) →
      ∃ order hierarchy, FirstVisits g.bases [] [root] order ∧
        (decode width limits (place root)).run target = .ok hierarchy ∧
        hierarchy.abi = .itanium ∧ hierarchy.root = g.name root ∧
        hierarchy.names = order.map g.name ∧
        (∀ c, Reaches g.bases root c →
          hierarchy.map.children (g.name c) = ((g.bases c).map g.name).eraseDups) ∧
        ∀ name, (∀ c, Reaches g.bases root c → g.name c ≠ name) →
          hierarchy.map.children name = []) ∧
    ((∃ c, Reaches g.bases root c ∧ ¬ g.EndsBelowTop width place c) →
      ∃ address offset, (decode width limits (place root)).run target =
        .error (.unknownStructure (.overflow address offset))) := by
  obtain ⟨order, horder, hlength⟩ := exists_firstVisits hfew
  have hdecode := ClassGraph.run_decode_eq_map_explore hstored root
  constructor
  · intro hbelow
    rw [ClassGraph.run_explore hstored horder hlength
      fun c hc => hbelow c (horder.mem_iff_reaches.1 hc)] at hdecode
    refine ⟨order, _, horder, hdecode, rfl, rfl, rfl, fun c hc => ?_, fun name hname => ?_⟩
    · exact ClassGraph.children_traversal (horder.nodup List.nodup_nil)
        (horder.mem_iff_reaches.2 hc)
    · refine ClassGraph.children_traversal_of_not_mem fun hmem => ?_
      obtain ⟨c, hc, hcname⟩ := List.mem_map.1 hmem
      exact hname c (horder.mem_iff_reaches.1 hc) hcname
  · rintro ⟨c, hc, htop⟩
    obtain ⟨address, offset, herror⟩ := ClassGraph.run_explore_of_top hstored horder hlength
      (by simp) ⟨c, horder.mem_iff_reaches.2 hc, htop⟩
    rw [herror] at hdecode
    exact ⟨address, offset, hdecode⟩

/-! ## An example -/

/-- The classes of `diamond`. -/
def diamondClasses : ClassGraph (Fin 4) where
  name := ["Bottom", "Left", "Right", "Top"].get
  shape := [.many 0 [(1, 2), (2, 0x802)], .single 3, .many 2 [(3, 2), (0, 3)], .leaf].get
  name_injective := by decide
  name_ne_empty := by decide
  null_not_mem := by decide +kernel
  head_not_digit := by
    have hheads : ∀ c : Fin 4, ((["Bottom", "Left", "Right", "Top"].get c).toList.head?.all
        fun head => !head.isDigit) = true := by
      decide +kernel
    intro c head hhead
    simpa using (Option.all_eq_true ..).1 (hheads c) head hhead

/-- Where the `type_info`s of `diamond` lie. -/
def diamondPlace (topAt : Nat) : Fin 4 → Address :=
  [.ofNat 0x30000, .ofNat 0x30100, .ofNat 0x30200, .ofNat topAt].get

theorem stored_diamond {topAt : Nat} (htop : topAt ∈ [0x30300, 0xFFFFFFFFFFFFFFF0]) :
    diamondClasses.Stored (diamond topAt).target .bits64 { nameUnits := 8 }
      (diamondPlace topAt) := by
  have hheld : ∀ topAt ∈ [0x30300, 0xFFFFFFFFFFFFFFF0], ∀ c : Fin 4,
      let place := diamondPlace topAt
      let target := (diamond topAt).target
      let vtable := Address.ofNat ([0x40030, 0x40028, 0x40030, 0x40020].get c)
      let classAt := Address.ofNat ([0x60200, 0x60100, 0x60200, 0x60000].get c)
      let nameAt := Address.ofNat (0x50000 + 0x100 * c)
      let digits := [['6'], ['4'], ['5'], ['3']].get c
      (vtable.isPlausible .bits64 ∧ target.HoldsWord (place c).val 8 vtable.val ∧
        target.HoldsWord (vtable.val - 32) 8 classAt.val ∧
        target.HoldsText classAt.val 64 (diamondClasses.shape c).typeInfoClass) ∧
      (digits.all Char.isDigit ∧ target.HoldsWord ((place c).val + 8) 8 nameAt.val ∧
        target.HoldsText nameAt.val 8 (String.ofList digits ++ diamondClasses.name c)) ∧
      ClassGraph.HoldsBases target .bits64 place ((place c).val + 16) (diamondClasses.shape c) := by
    decide +kernel
  refine ⟨rfl, by decide, by decide, fun c => ?_⟩
  obtain ⟨hvtable, hname, hbases⟩ := hheld topAt htop c
  exact ⟨⟨_, _, hvtable⟩, ⟨_, _, List.all_eq_true.1 hname.1, hname.2⟩, hbases⟩

/-- The example is decoded to its classes, unless `Top` lies at the end of the
address space. -/
theorem run_decode_diamondClasses :
    (∃ hierarchy,
      (decode .bits64 { nameUnits := 8 } (diamondPlace 0x30300 0)).run (diamond 0x30300).target =
        .ok hierarchy ∧
      hierarchy.names = ["Bottom", "Left", "Top", "Right"] ∧
      hierarchy.map.children "Right" = ["Top", "Bottom"]) ∧
    ∃ address offset,
      (decode .bits64 { nameUnits := 8 } (diamondPlace 0xFFFFFFFFFFFFFFF0 0)).run
          (diamond 0xFFFFFFFFFFFFFFF0).target =
        .error (.unknownStructure (.overflow address offset)) := by
  have hfew : {c | Reaches diamondClasses.bases 0 c}.encard ≤ Limits.nodes { nameUnits := 8 } := by
    refine (Set.encard_le_encard (Set.subset_univ _)).trans ?_
    rw [Set.encard_univ, ENat.card_eq_coe_fintype_card, Fintype.card_fin]
    decide
  have hvisits : FirstVisits diamondClasses.bases [] [0] [0, 1, 3, 2] :=
    .visit (by decide)
      (.visit (by decide) (.visit (by decide) (.done _) (.done _))
        (.visit (by decide) (.skip (by decide) (.skip (by decide) (.done _))) (.done _)))
      (.done _)
  constructor
  · have hstored := stored_diamond (show 0x30300 ∈ [0x30300, 0xFFFFFFFFFFFFFFF0] by decide)
    have hbelow : ∀ c, diamondClasses.EndsBelowTop .bits64 (diamondPlace 0x30300) c := by
      decide +kernel
    obtain ⟨order, hierarchy, horder, hdecode, -, -, hnames, hchildren, -⟩ :=
      (run_decode_of_stored hstored hfew).1 fun c _ => hbelow c
    obtain rfl := hvisits.unique horder
    have hright := hchildren 2 (hvisits.mem_iff_reaches.1 (by decide))
    exact ⟨hierarchy, hdecode, hnames, hright⟩
  · have hstored := stored_diamond
      (show 0xFFFFFFFFFFFFFFF0 ∈ [0x30300, 0xFFFFFFFFFFFFFFF0] by decide)
    exact (run_decode_of_stored hstored hfew).2
      ⟨3, hvisits.mem_iff_reaches.1 (by decide), by decide +kernel⟩

end Rtti.Itanium
