import Rtti.Memory.Snapshot
import Rtti.Proofs.Itanium.Visits

/-!
# Origins of decoded classes

Each class of a hierarchy that is found in a class graph was expanded once, at
a place where its name is, and that place is the root's or was pointed to by a
base record of an expanded class (`comesFrom_of_run_decode`).  The children of
the class are the bases of that one expansion.

Nothing is assumed of the memory.  Several `type_info`s may share a name, and
then only the latest that was met before the class came up is expanded.

The invariant is `Walk.LocatesReached`: the table of a walk leads from each name
to a place where the name is, along base records of expanded classes.
-/

namespace Rtti.Itanium

open Inspection

variable {target : Target} {width : PointerWidth} {limits : Limits}

/-! ## One expansion -/

namespace Expansion

/-- The expansion is what the memory holds: the class has the name, and its base
records point to the bases, which have their names. -/
structure Holds (expansion : Expansion) (target : Target) (width : PointerWidth)
    (limits : Limits) : Prop where
  name : (nameOf width limits expansion.typeInfo).run target = .ok expansion.name
  node : ∃ node, (expand width limits expansion.typeInfo).run target = .ok node ∧
    node.bases.map (·.typeInfo) = expansion.bases.map Prod.snd
  bases : ∀ base ∈ expansion.bases, (nameOf width limits base.2).run target = .ok base.1

/-- The reads of the class and then of the names of its bases. -/
def reads (expansion : Expansion) (target : Target) (width : PointerWidth) (limits : Limits) :
    List Access :=
  (expand width limits expansion.typeInfo).reads target ++
    expansion.bases.flatMap fun base => (nameOf width limits base.2).reads target

variable {name : String} {typeInfo : Address} {bases : List (String × Address)}

/-- The names of the bases are read at the places that the base records point
to. -/
theorem namedBases_eq (width : PointerWidth) (limits : Limits) (typeInfo : Address) :
    namedBases width limits typeInfo =
      (do
        let node ← expand width limits typeInfo
        let places := node.bases.map (·.typeInfo)
        let names ← places.mapM (nameOf width limits)
        return names.zip places) := by
  refine bind_congr fun node => ?_
  dsimp only
  rw [List.mapM_map]
  rfl

/-- What holds of bases that were found. -/
theorem of_run_namedBases (hbases : (namedBases width limits typeInfo).run target = .ok bases) :
    (∃ node, (expand width limits typeInfo).run target = .ok node ∧
      node.bases.map (·.typeInfo) = bases.map Prod.snd) ∧
    (∀ base ∈ bases, (nameOf width limits base.2).run target = .ok base.1) ∧
    (namedBases width limits typeInfo).reads target =
      (expand width limits typeInfo).reads target ++
        bases.flatMap fun base => (nameOf width limits base.2).reads target := by
  rw [namedBases_eq] at hbases ⊢
  obtain ⟨node, hnode, hbases⟩ := exists_of_run_bind_eq_ok hbases
  obtain ⟨names, hnames, hbases⟩ := exists_of_run_bind_eq_ok hbases
  obtain rfl := Except.ok.inj hbases
  obtain ⟨hlength, hzip⟩ := of_run_mapM_eq_ok hnames
  have hplaces : (names.zip (node.bases.map (·.typeInfo))).map Prod.snd =
      node.bases.map (·.typeInfo) :=
    List.map_snd_zip (Nat.le_of_eq hlength.symm)
  have hreads : ((node.bases.map (·.typeInfo)).mapM (nameOf width limits)).reads target =
      (names.zip (node.bases.map (·.typeInfo))).flatMap fun base =>
        (nameOf width limits base.2).reads target := by
    rw [reads_mapM_of_ok hnames]
    conv_lhs => rw [← hplaces]
    rw [List.flatMap_map]
  refine ⟨⟨node, hnode, hplaces.symm⟩, hzip, ?_⟩
  rw [reads_bind_of_ok hnode, reads_bind_of_ok hnames, hreads]
  exact congrArg _ (List.append_nil _)

end Expansion

/-! ## The walk -/

/-- A base record of one of the expansions points from the first place to the
second. -/
def PointsTo (found : List Expansion) (place base : Address) : Prop :=
  ∃ expansion ∈ found, expansion.typeInfo = place ∧ base ∈ expansion.bases.map Prod.snd

namespace Walk

variable {walk final : Walk} {budget : Nat} {found all : List Expansion} {name : String}
  {stack : List String} {typeInfo start : Address} {bases : List (String × Address)}

/-- The table leads from names to places where the names are, and from a
starting place the base records of the expansions lead there too. -/
def LocatesReached (walk : Walk) (target : Target) (width : PointerWidth) (limits : Limits)
    (found : List Expansion) (start : Address) : Prop :=
  ∀ name place, walk.located.get? name = some place →
    (nameOf width limits place).run target = .ok name ∧
      Relation.ReflTransGen (PointsTo found) start place

theorem locatesReached_start {root : String}
    (hroot : (nameOf width limits typeInfo).run target = .ok root) :
    (Walk.start root typeInfo).LocatesReached target width limits found typeInfo := by
  intro name place hplace
  obtain ⟨rfl, rfl⟩ := eq_of_located_start hplace
  exact ⟨hroot, .refl⟩

/-- A new place in the table is that of a base of the expanded class. -/
theorem LocatesReached.extend (hwalk : walk.LocatesReached target width limits found start)
    (hlocated : walk.located.get? name = some typeInfo)
    (hfound : ⟨name, typeInfo, bases⟩ ∈ found)
    (hbases : ∀ base ∈ bases, (nameOf width limits base.2).run target = .ok base.1) :
    (walk.extend name typeInfo bases stack).LocatesReached target width limits found start := by
  intro other place hplace
  rcases mem_or_located_of_extend hplace with hbase | hbefore
  · have hreached := (hwalk name typeInfo hlocated).2
    exact ⟨hbases _ hbase, hreached.tail ⟨_, hfound, rfl, List.mem_map_of_mem hbase⟩⟩
  · exact hwalk other place hbefore

/-- What a walk expands is what the memory holds where base records lead. -/
theorem Ends.holds_and_reached (hends : Ends target width limits budget walk found final)
    (hwalk : walk.LocatesReached target width limits all start) (hall : ∀ e ∈ found, e ∈ all) :
    ∀ expansion ∈ found, expansion.Holds target width limits ∧
      Relation.ReflTransGen (PointsTo all) start expansion.typeInfo := by
  induction hends with
  | done => exact nofun
  | expand _ hlocated hbases _ ih =>
    obtain ⟨hself, hlater⟩ := List.forall_mem_cons.1 hall
    obtain ⟨hname, hreached⟩ := hwalk _ _ hlocated
    obtain ⟨hnode, hnames, -⟩ := Expansion.of_run_namedBases hbases
    exact List.forall_mem_cons.2 ⟨⟨⟨hname, hnode, hnames⟩, hreached⟩,
      ih (hwalk.extend hlocated hself hnames) hlater⟩

theorem Ends.length_le (hends : Ends target width limits budget walk found final) :
    found.length ≤ budget := by
  induction hends with
  | done => exact Nat.zero_le _
  | expand _ _ _ _ ih => exact Nat.succ_le_succ ih

/-- A walk reads what its expansions read, one after another. -/
theorem Ends.finish (hends : Ends target width limits budget walk found final) :
    (walk.finish width limits budget).run target = .ok final ∧
      (walk.finish width limits budget).reads target =
        found.flatMap (·.reads target width limits) := by
  induction hends with
  | done hnext =>
    rw [finish_of_done hnext]
    exact ⟨rfl, rfl⟩
  | expand hnext hlocated hbases _ ih =>
    obtain ⟨-, -, hreads⟩ := Expansion.of_run_namedBases hbases
    rw [finish_succ hnext hlocated, run_bind_of_ok hbases, reads_bind_of_ok hbases, hreads,
      List.flatMap_cons]
    exact ⟨ih.1, congrArg _ ih.2⟩

/-- The children of a class that a walk expands are the bases found then. -/
theorem Ends.children_eq (hends : Ends target width limits budget walk found final)
    (hchildren : walk.ChildrenOfVisited) :
    ∀ expansion ∈ found,
      final.map.children expansion.name = (expansion.bases.map Prod.fst).eraseDups := by
  induction hends with
  | done => exact nofun
  | expand hnext _ _ hlater ih =>
    refine List.forall_mem_cons.2 ⟨?_, ih hchildren.extend⟩
    rw [(hlater.searches hchildren.extend).children_eq _ List.mem_cons_self]
    exact children_extend_self hchildren (next_not_mem_visited hnext)

end Walk

/-! ## Whole hierarchies -/

/-- A hierarchy of the class with the given `type_info` comes from these
expansions. -/
structure ComesFrom (target : Target) (width : PointerWidth) (limits : Limits)
    (typeInfo : Address) (found : List Expansion) (hierarchy : ClassHierarchy) : Prop where
  /-- There is one expansion for each listed class, in the order of the list. -/
  names_eq : hierarchy.names = found.map (·.name)
  nodup : hierarchy.names.Nodup
  head?_eq : hierarchy.names.head? = some hierarchy.root
  length_le : hierarchy.names.length ≤ limits.nodes
  /-- The name of the root is read, and then each class is expanded once. -/
  reads_eq : (decode width limits typeInfo).reads target =
    (nameOf width limits typeInfo).reads target ++ found.flatMap (·.reads target width limits)
  holds : ∀ expansion ∈ found, expansion.Holds target width limits
  /-- Base records of the expansions lead from the root to each of them. -/
  reached : ∀ expansion ∈ found,
    Relation.ReflTransGen (PointsTo found) typeInfo expansion.typeInfo
  children_eq : ∀ expansion ∈ found,
    hierarchy.map.children expansion.name = (expansion.bases.map Prod.fst).eraseDups
  /-- The parents and the children in the map are listed. -/
  classes_subset : hierarchy.map.classes ⊆ hierarchy.names

variable {typeInfo : Address} {hierarchy : ClassHierarchy}

theorem classes_subset_of_run
    (hrun : (decode width limits typeInfo).run target = .ok hierarchy) :
    hierarchy.map.classes ⊆ hierarchy.names := by
  have hmap := (found_of_run_decode hrun).2
  intro name hname
  rw [hmap] at hname
  obtain ⟨edge, hedge, hend⟩ := InheritanceMap.mem_classes_ofEdges.1 hname
  have hparent := parent_mem_names_of_run hrun hedge
  rcases hend with rfl | rfl
  · exact hparent
  · refine (firstVisits_of_run_decode hrun).2.next_subset hparent List.not_mem_nil ?_
    rw [hmap]
    exact InheritanceMap.mem_children_ofEdges.2 hedge

theorem reads_decode_of_run
    (hrun : (decode width limits typeInfo).run target = .ok hierarchy) :
    (decode width limits typeInfo).reads target =
      (nameOf width limits typeInfo).reads target ++
        (expansions target width limits typeInfo).flatMap (·.reads target width limits) := by
  obtain ⟨root, final, hroot, hnamed, hends, rfl⟩ := ends_of_run_decode hrun
  obtain ⟨hfinish, hreads⟩ := hends.finish
  unfold decode
  rw [reads_bind_of_ok hroot, if_neg hnamed, reads_bind_of_ok hfinish, hreads]
  exact congrArg _ (List.append_nil _)

/-- A hierarchy that is found comes from the expansions of the walk, also where
several `type_info`s share a name. -/
theorem comesFrom_of_run_decode
    (hrun : (decode width limits typeInfo).run target = .ok hierarchy) :
    ComesFrom target width limits typeInfo (expansions target width limits typeInfo)
      hierarchy := by
  have hnames := (found_of_run_decode hrun).1
  have hvisits := (firstVisits_of_run_decode hrun).2
  have hclasses := classes_subset_of_run hrun
  have hreads := reads_decode_of_run hrun
  obtain ⟨root, final, hroot, -, hends, rfl⟩ := ends_of_run_decode hrun
  have horigins := hends.holds_and_reached (Walk.locatesReached_start hroot) fun _ => id
  exact {
    names_eq := hnames
    nodup := hvisits.nodup List.nodup_nil
    head?_eq := hvisits.head?_eq
    length_le := by
      rw [hnames, List.length_map]
      exact hends.length_le
    reads_eq := hreads
    holds := fun expansion hmem => (horigins expansion hmem).1
    reached := fun expansion hmem => (horigins expansion hmem).2
    children_eq := hends.children_eq (Walk.childrenOfVisited_start root typeInfo)
    classes_subset := hclasses }

/-! ## An example -/

/-- The memory of a process in which `Bottom` has two bases named `Twin` with
`type_info`s of their own.  The first has no bases, the second inherits `Top`. -/
def twins : Snapshot :=
  let words := List.flatMap (Word.toBytes 8)
  let halves := List.flatMap (Word.toBytes 4)
  let text (units : Nat) (s : String) := (Utf8.encode s).rightpad units 0
  [ (0x30000, words [0x40030, 0x50000] ++ halves [0, 2] ++ words [0x30100, 2, 0x30200, 0x802]),
    (0x30100, words [0x40020, 0x50100]), (0x30200, words [0x40028, 0x50100, 0x30300]),
    (0x30300, words [0x40020, 0x50200]), (0x40000, words [0x60000, 0x60100, 0x60200]),
    (0x50000, text 8 "6Bottom"), (0x50100, text 8 "4Twin"), (0x50200, text 8 "3Top"),
    (0x60000, text 64 "N10__cxxabiv117__class_type_infoE"),
    (0x60100, text 64 "N10__cxxabiv120__si_class_type_infoE"),
    (0x60200, text 64 "N10__cxxabiv121__vmi_class_type_infoE")].foldl
    (fun s region => s.addRegion (.ofNat region.1) region.2) ⟨.bits64, none, .empty⟩

/-- Only the second of the two `type_info`s is expanded. -/
theorem comesFrom_twins :
    let limits : Limits := { nameUnits := 8 }
    let typeInfo : Address := .ofNat 0x30000
    let found : List Expansion :=
      [⟨"Bottom", typeInfo, [("Twin", .ofNat 0x30100), ("Twin", .ofNat 0x30200)]⟩,
        ⟨"Twin", .ofNat 0x30200, [("Top", .ofNat 0x30300)]⟩, ⟨"Top", .ofNat 0x30300, []⟩]
    let hierarchy : ClassHierarchy := ⟨.itanium, "Bottom", ["Bottom", "Twin", "Top"],
      .ofEdges [("Bottom", "Twin"), ("Twin", "Top")]⟩
    (decode .bits64 limits typeInfo).run twins.target = .ok hierarchy ∧
      ComesFrom twins.target .bits64 limits typeInfo found hierarchy := by
  intro limits typeInfo found hierarchy
  have hrun : (decode .bits64 limits typeInfo).run twins.target = .ok hierarchy := by
    decide +kernel
  have hfound : expansions twins.target .bits64 limits typeInfo = found := by decide +kernel
  exact ⟨hrun, hfound ▸ comesFrom_of_run_decode hrun⟩

end Rtti.Itanium
