import Rtti.Memory.Snapshot
import Rtti.Proofs.Itanium.Traversal
import Rtti.Proofs.Memory.Run
import Rtti.Proofs.SortedMap.Filling

/-!
# Walks and recursive traversals

The walk over a class graph keeps a stack of names and a table of the places
where their `type_info`s were last met.  The recursive traversal
(`Rtti.Proofs.Itanium.Traversal`) visits each class where its own base record
points to.  Both give the same hierarchy or the same error as long as no
expanded class has two bases of one name with different `type_info`s.

The invariant is `Walk.Tracks`: the stack names the classes that the recursion
has still to visit, and for each name that is not yet expanded the table has
the place of the next visit to it.
-/

namespace Rtti.Itanium

namespace Walk

/-! ## The invariant -/

/-- What a walk has found, as a traversal. -/
def found (walk : Walk) : Traversal := ⟨walk.visited.reverse, walk.map⟩

/-- A walk is to go on with these classes, each with the place of its
`type_info`. -/
structure Tracks (walk : Walk) (pending : List (String × Address)) : Prop where
  stack : walk.stack = pending.map Prod.fst
  /-- The table has the place of the next visit to a name. -/
  located : ∀ name ∉ walk.visited, ∀ typeInfo,
    pending.lookup name = some typeInfo → walk.located.get? name = some typeInfo

variable {target : Target} {width : PointerWidth} {limits : Limits} {budget : Nat} {walk : Walk}
  {name : String} {typeInfo : Address} {bases pending rest : List (String × Address)}

theorem mem_found_names : name ∈ walk.found.names ↔ name ∈ walk.visited := by
  simp [found]

theorem length_found_names : walk.found.names.length = walk.expanded.length := by
  simp [found, visited]

theorem found_extend {stack : List String} :
    (walk.extend name typeInfo bases stack).found = walk.found.record name bases := by
  simp [found, visited, extend, Traversal.record]

theorem tracks_start (root : String) (typeInfo : Address) :
    (start root typeInfo).Tracks [(root, typeInfo)] where
  stack := rfl
  located := by
    intro name _ place hplace
    by_cases hroot : name = root
    · subst hroot
      simp only [List.lookup_cons, beq_self_eq_true, Option.some.injEq] at hplace
      simp [start, SortedMap.ofList, SortedMap.get?_insert, hplace]
    · have : (name == root) = false := by simpa using hroot
      simp [List.lookup_cons, this] at hplace

theorem lookup_dropWhile_visited (hnew : name ∉ walk.visited) :
    (pending.dropWhile fun c => c.1 ∈ walk.visited).lookup name = pending.lookup name := by
  induction pending with
  | nil => rfl
  | cons head pending ih =>
    by_cases hseen : head.1 ∈ walk.visited
    · have hother : (name == head.1) = false := by
        simpa using fun h : name = head.1 => hnew (h ▸ hseen)
      rw [List.dropWhile_cons_of_pos (by simpa using hseen), ih, List.lookup_cons, hother]
    · rw [List.dropWhile_cons_of_neg (by simpa using hseen)]

/-- The classes at the head that were expanded before are skipped by the
stack as well. -/
theorem Tracks.dropWhile_stack (htracks : walk.Tracks pending) :
    walk.stack.dropWhile (· ∈ walk.visited) =
      (pending.dropWhile fun c => c.1 ∈ walk.visited).map Prod.fst := by
  rw [htracks.stack, List.dropWhile_map]
  rfl

theorem Tracks.located_next (htracks : walk.Tracks pending)
    (hnext : (pending.dropWhile fun c => c.1 ∈ walk.visited) = (name, typeInfo) :: rest)
    (hnew : name ∉ walk.visited) : walk.located.get? name = some typeInfo := by
  refine htracks.located name hnew typeInfo ?_
  rw [← lookup_dropWhile_visited hnew, hnext, List.lookup_cons_self]

/-- After an expansion the bases are to be visited before the rest. -/
theorem Tracks.extend (htracks : walk.Tracks pending)
    (hnext : (pending.dropWhile fun c => c.1 ∈ walk.visited) = (name, typeInfo) :: rest)
    (hclear : Expansion.Unambiguous ⟨name, typeInfo, bases⟩) :
    (walk.extend name typeInfo bases (rest.map Prod.fst)).Tracks (bases ++ rest) where
  stack := by simp [Walk.extend]
  located := by
    intro other hother place hplace
    have hne : other ≠ name := by
      rintro rfl
      exact hother (by simp [visited, Walk.extend])
    have hnew : other ∉ walk.visited := by
      intro hmem
      exact hother (by simp [visited, Walk.extend] at hmem ⊢; exact .inr hmem)
    simp only [Walk.extend]
    rw [List.lookup_append] at hplace
    cases hbase : bases.lookup other with
    | some found =>
      -- the visit is to a base, and all bases of the name have its place
      rw [hbase, Option.some_or, Option.some.injEq] at hplace
      subst hplace
      obtain ⟨before, after, hsplit, -⟩ := List.lookup_eq_some_iff.1 hbase
      have hmem : (other, found) ∈ bases := by simp [hsplit]
      refine SortedMap.get?_foldl_insert_of_mem hmem fun entry hentry hkey => ?_
      exact hclear entry hentry (other, found) hmem hkey
    | none =>
      -- the visit was already to be made before the expansion
      rw [hbase, Option.none_or] at hplace
      have habsent : ∀ entry ∈ bases, entry.1 ≠ other := by
        intro entry hentry hkey
        have := List.lookup_eq_none_iff.1 hbase entry hentry
        simp [hkey] at this
      rw [SortedMap.get?_foldl_insert_of_forall_ne habsent]
      refine htracks.located other hnew place ?_
      have hskip : (other == name) = false := by simpa using hne
      rw [← lookup_dropWhile_visited hnew, hnext, List.lookup_cons, hskip]
      exact hplace

/-! ## Agreement -/

theorem explore_found_dropWhile :
    walk.found.explore width limits (pending.dropWhile fun c => c.1 ∈ walk.visited) =
      walk.found.explore width limits pending := by
  simp only [← mem_found_names]
  exact Traversal.explore_dropWhile

theorem not_mem_visited_of_dropWhile
    (hnext : (pending.dropWhile fun c => c.1 ∈ walk.visited) = (name, typeInfo) :: rest) :
    name ∉ walk.visited := by
  have := List.head?_dropWhile_not (fun c : String × Address => decide (c.1 ∈ walk.visited)) pending
  simpa [hnext] using this

theorem run_finish_eq_explore_of_done (htracks : walk.Tracks pending)
    (hnext : (pending.dropWhile fun c => c.1 ∈ walk.visited) = []) :
    ((walk.finish width limits budget).run target).map found =
      (walk.found.explore width limits pending).run target := by
  rw [← explore_found_dropWhile, hnext, Traversal.explore_nil,
    finish_of_done (by rw [htracks.dropWhile_stack, hnext]; rfl)]
  rfl

/-- A walk goes on as the recursion does with the classes that it tracks. -/
theorem run_finish_eq_explore (htracks : walk.Tracks pending)
    (hbudget : budget + walk.expanded.length = limits.nodes)
    (hclear : ∀ expansion ∈ walk.expansions target width limits budget, expansion.Unambiguous) :
    ((walk.finish width limits budget).run target).map found =
      (walk.found.explore width limits pending).run target := by
  induction budget generalizing walk pending with
  | zero =>
    match hnext : pending.dropWhile fun c => c.1 ∈ walk.visited with
    | [] => exact run_finish_eq_explore_of_done htracks hnext
    | (name, typeInfo) :: rest =>
      have hnew := not_mem_visited_of_dropWhile hnext
      have hfull : limits.nodes ≤ walk.found.names.length := by
        rw [length_found_names]
        omega
      rw [← explore_found_dropWhile, hnext,
        finish_full (by rw [htracks.dropWhile_stack, hnext]; rfl),
        Traversal.explore_cons_of_full (by rwa [mem_found_names]) hfull, length_found_names]
      rfl
  | succ budget ih =>
    match hnext : pending.dropWhile fun c => c.1 ∈ walk.visited with
    | [] => exact run_finish_eq_explore_of_done htracks hnext
    | (name, typeInfo) :: rest =>
      have hnew := not_mem_visited_of_dropWhile hnext
      have hroom : walk.found.names.length < limits.nodes := by
        rw [length_found_names]
        omega
      have hstack : walk.stack.dropWhile (· ∈ walk.visited) = name :: rest.map Prod.fst := by
        rw [htracks.dropWhile_stack, hnext]
        rfl
      have hlocated := htracks.located_next hnext hnew
      rw [← explore_found_dropWhile, hnext, finish_succ hstack hlocated,
        Traversal.explore_cons_of_new (by rwa [mem_found_names]) hroom]
      cases hbases : (namedBases width limits typeInfo).run target with
      | error error =>
        rw [Inspection.run_bind_of_error hbases, Inspection.run_bind_of_error hbases]
        rfl
      | ok bases =>
        rw [Inspection.run_bind_of_ok hbases, Inspection.run_bind_of_ok hbases]
        rw [expansions_succ hstack hlocated hbases] at hclear
        obtain ⟨hhere, hlater⟩ := List.forall_mem_cons.1 hclear
        have hrest := ih (htracks.extend hnext hhere)
          (by simp only [extend, List.length_cons]; omega) hlater
        rw [found_extend, Traversal.explore_append] at hrest
        exact hrest

end Walk

variable {target : Target} {width : PointerWidth} {limits : Limits} {root : String}
  {typeInfo : Address}

/-- From a class with a name on, the walk finds what the recursion finds. -/
theorem run_decode_eq_explore (hroot : (nameOf width limits typeInfo).run target = .ok root)
    (hnamed : root.isEmpty = false)
    (hclear : ∀ expansion ∈ (Walk.start root typeInfo).expansions target width limits limits.nodes,
      expansion.Unambiguous) :
    (decode width limits typeInfo).run target =
      ((Traversal.explore width limits {} [(root, typeInfo)]).run target).map fun found =>
        ⟨.itanium, root, found.names, found.map⟩ := by
  have hwalk := Walk.run_finish_eq_explore (Walk.tracks_start root typeInfo)
    (by simp [Walk.start]) hclear
  rw [show (Walk.start root typeInfo).found = {} from rfl] at hwalk
  rw [decode, Inspection.run_bind_of_ok hroot, hnamed, ← hwalk]
  simp only [Bool.false_eq_true, if_false, Inspection.bind_eq, Inspection.run_bind]
  cases ((Walk.start root typeInfo).finish width limits limits.nodes).run target <;> rfl

theorem run_depthFirst_eq_explore (hroot : (nameOf width limits typeInfo).run target = .ok root)
    (hnamed : root.isEmpty = false) :
    (depthFirst width limits typeInfo).run target =
      ((Traversal.explore width limits {} [(root, typeInfo)]).run target).map fun found =>
        ⟨.itanium, root, found.names, found.map⟩ := by
  rw [depthFirst, Inspection.run_bind_of_ok hroot, hnamed, Traversal.explore, Traversal.visitAll]
  simp only [Bool.false_eq_true, if_false, Traversal.visitAll, Inspection.bind_eq,
    Inspection.run_bind]
  cases (Traversal.visit width limits {} root typeInfo).run target <;> rfl

/-- The walk with a stack and the recursive traversal end alike, in a hierarchy
or in an error. -/
theorem run_decode_eq_run_depthFirst
    (hclear : ∀ expansion ∈ expansions target width limits typeInfo, expansion.Unambiguous) :
    (decode width limits typeInfo).run target = (depthFirst width limits typeInfo).run target := by
  cases hroot : (nameOf width limits typeInfo).run target with
  | error error =>
    rw [decode, depthFirst, Inspection.run_bind_of_error hroot, Inspection.run_bind_of_error hroot]
  | ok root =>
    rw [expansions, hroot] at hclear
    cases hnamed : root.isEmpty with
    | true =>
      rw [decode, depthFirst, Inspection.run_bind_of_ok hroot, Inspection.run_bind_of_ok hroot,
        hnamed]
      rfl
    | false =>
      simp only [hnamed, Bool.false_eq_true, if_false] at hclear
      rw [run_decode_eq_explore hroot hnamed hclear, run_depthFirst_eq_explore hroot hnamed]

/-! ## An example -/

/-- The memory of a process with four classes.  `Bottom` inherits `Left` and
`Right`, `Left` inherits `Top`, and `Right` inherits `Top` and, in a cycle,
`Bottom`.  The `type_info` of `Top` lies at `topAt`. -/
def diamond (topAt : Nat) : Snapshot :=
  let words := List.flatMap (Word.toBytes 8)
  let halves := List.flatMap (Word.toBytes 4)
  let text (units : Nat) (s : String) := (Utf8.encode s).rightpad units 0
  [ (0x30000, words [0x40030, 0x50000] ++ halves [0, 2] ++ words [0x30100, 2, 0x30200, 0x802]),
    (0x30100, words [0x40028, 0x50100, topAt]),
    (0x30200, words [0x40030, 0x50200] ++ halves [2, 2] ++ words [topAt, 2, 0x30000, 3]),
    (topAt, words [0x40020, 0x50300]),
    (0x40000, words [0x60000, 0x60100, 0x60200]),
    (0x50000, text 8 "6Bottom"), (0x50100, text 8 "4Left"),
    (0x50200, text 8 "5Right"), (0x50300, text 8 "3Top"),
    (0x60000, text 64 "N10__cxxabiv117__class_type_infoE"),
    (0x60100, text 64 "N10__cxxabiv120__si_class_type_infoE"),
    (0x60200, text 64 "N10__cxxabiv121__vmi_class_type_infoE")].foldl
    (fun s region => s.addRegion (.ofNat region.1) region.2) ⟨.bits64, none, .empty⟩

/-- The walk over the example expands each class once, and both searches find the edges
of all of them. -/
theorem run_decode_diamond :
    let target := (diamond 0x30300).target
    let hierarchy : ClassHierarchy := ⟨.itanium, "Bottom", ["Bottom", "Left", "Top", "Right"],
      .ofEdges [("Bottom", "Left"), ("Bottom", "Right"), ("Left", "Top"), ("Right", "Top"),
        ("Right", "Bottom")]⟩
    (expansions target .bits64 { nameUnits := 8 } (.ofNat 0x30000)).map (·.name) =
      hierarchy.names ∧
    (decode .bits64 { nameUnits := 8 } (.ofNat 0x30000)).run target = .ok hierarchy ∧
    (depthFirst .bits64 { nameUnits := 8 } (.ofNat 0x30000)).run target = .ok hierarchy := by
  intro target hierarchy
  have hdecoded : (decode .bits64 { nameUnits := 8 } (.ofNat 0x30000)).run target =
      .ok hierarchy := by decide +kernel
  have hsame : (decode .bits64 { nameUnits := 8 } (.ofNat 0x30000)).run target =
      (depthFirst .bits64 { nameUnits := 8 } (.ofNat 0x30000)).run target :=
    run_decode_eq_run_depthFirst (by decide +kernel)
  exact ⟨by decide +kernel, hdecoded, hsame.symm.trans hdecoded⟩

end Rtti.Itanium
