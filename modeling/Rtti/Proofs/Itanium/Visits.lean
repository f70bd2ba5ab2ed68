import Rtti.Proofs.Graph.FirstVisits
import Rtti.Proofs.Hierarchy.Edges
import Rtti.Proofs.Itanium.Expansion
import Rtti.Proofs.Memory.Run

/-!
# The walk as a search of its own result

A walk over a class graph expands each name once and records its bases then,
so the children of an expanded class are final.  The walk is therefore a
depth-first search of the inheritance map that it ends with
(`Walk.Ends.searches`), whatever the memory holds: names may be shared by
several `type_info`s, and bases may be repeated.  The edges of that map are
those of the classes that the walk expands (`found_of_run_decode`).

`Walk.Ends` has the steps of a walk that comes to an end; what holds of all of
them is proved by induction on it.
-/

namespace Rtti.Itanium

open Rtti.Graph

variable {target : Target} {width : PointerWidth} {limits : Limits}

namespace Walk

variable {walk final : Walk} {name : String} {typeInfo : Address} {budget : Nat}
  {bases : List (String × Address)} {stack : List String}

theorem visited_extend : (walk.extend name typeInfo bases stack).visited = name :: walk.visited :=
  rfl

theorem stack_extend :
    (walk.extend name typeInfo bases stack).stack = bases.map Prod.fst ++ stack :=
  rfl

/-- Only expanded classes have children. -/
def ChildrenOfVisited (walk : Walk) : Prop :=
  ∀ name ∉ walk.visited, walk.map.children name = []

theorem childrenOfVisited_start (root : String) (typeInfo : Address) :
    (start root typeInfo).ChildrenOfVisited := fun _ _ => rfl

theorem ChildrenOfVisited.extend (hchildren : walk.ChildrenOfVisited) :
    (walk.extend name typeInfo bases stack).ChildrenOfVisited := by
  intro other hother
  rw [visited_extend, List.mem_cons, not_or] at hother
  rw [Walk.extend, InheritanceMap.children_foldl_addEdge_of_ne hother.1]
  exact hchildren other hother.2

/-- The children of an expanded class are final. -/
theorem children_extend_of_mem (hname : name ∉ walk.visited) {other : String}
    (hother : other ∈ walk.visited) :
    (walk.extend name typeInfo bases stack).map.children other = walk.map.children other :=
  InheritanceMap.children_foldl_addEdge_of_ne fun hsame => hname (hsame ▸ hother)

theorem children_extend_self (hchildren : walk.ChildrenOfVisited) (hname : name ∉ walk.visited) :
    (walk.extend name typeInfo bases stack).map.children name =
      (bases.map Prod.fst).eraseDups :=
  InheritanceMap.children_foldl_addEdge_self (hchildren name hname)

theorem next_not_mem_visited
    (hnext : walk.stack.dropWhile (· ∈ walk.visited) = name :: stack) : name ∉ walk.visited := by
  have hhead := List.head?_dropWhile_not (fun name => decide (name ∈ walk.visited)) walk.stack
  simpa [hnext] using hhead

theorem mem_reverse_of_visited (name : String) (hname : decide (name ∈ walk.visited) = true) :
    name ∈ walk.visited.reverse := by
  simpa using hname

/-- A walk is a search of a map that agrees with what it finds: what was found
before stays, and the rest is what is found from here on. -/
structure Searches (walk final : Walk) : Prop where
  children_eq : ∀ name ∈ walk.visited, final.map.children name = walk.map.children name
  firstVisits :
    FirstVisits final.map.children walk.visited.reverse walk.stack final.visited.reverse

theorem searches_of_done (hnext : walk.stack.dropWhile (· ∈ walk.visited) = []) :
    walk.Searches walk where
  children_eq _ _ := rfl
  firstVisits := by
    refine .of_dropWhile mem_reverse_of_visited ?_
    rw [hnext]
    exact .done _

/-- A search from a class goes on with its bases. -/
theorem Searches.of_extend (hchildren : walk.ChildrenOfVisited)
    (hnext : walk.stack.dropWhile (· ∈ walk.visited) = name :: stack)
    (hlater : (walk.extend name typeInfo bases stack).Searches final) : walk.Searches final := by
  have hname := next_not_mem_visited hnext
  refine ⟨fun other hother => ?_, .of_dropWhile mem_reverse_of_visited ?_⟩
  · rw [hlater.children_eq other (List.mem_cons_of_mem _ hother)]
    exact children_extend_of_mem hname hother
  · have hself : final.map.children name = (bases.map Prod.fst).eraseDups := by
      rw [hlater.children_eq name List.mem_cons_self, children_extend_self hchildren hname]
    have hsearch := hlater.firstVisits
    rw [visited_extend, stack_extend, List.reverse_cons, FirstVisits.append_iff] at hsearch
    obtain ⟨below, hbases, hstack⟩ := hsearch
    rw [hnext]
    refine .visit (by simpa using hname) ?_ hstack
    rw [hself]
    exact hbases.eraseDups

/-- A walk that ends is at its end or goes on from its next class. -/
theorem cases_of_run_finish (hrun : (walk.finish width limits budget).run target = .ok final) :
    (walk.stack.dropWhile (· ∈ walk.visited) = [] ∧ final = walk) ∨
    ∃ left name stack typeInfo bases, budget = left + 1 ∧
      walk.stack.dropWhile (· ∈ walk.visited) = name :: stack ∧
      walk.located.get? name = some typeInfo ∧
      (namedBases width limits typeInfo).run target = .ok bases ∧
      ((walk.extend name typeInfo bases stack).finish width limits left).run target =
        .ok final := by
  cases hnext : walk.stack.dropWhile (· ∈ walk.visited) with
  | nil =>
    rw [finish_of_done hnext] at hrun
    exact .inl ⟨rfl, (Except.ok.inj hrun).symm⟩
  | cons name stack =>
    cases budget with
    | zero =>
      rw [finish_full hnext] at hrun
      contradiction
    | succ left =>
      cases hlocated : walk.located.get? name with
      | none =>
        rw [finish_unlocated hnext hlocated] at hrun
        contradiction
      | some typeInfo =>
        rw [finish_succ hnext hlocated] at hrun
        obtain ⟨bases, hbases, hrest⟩ := Inspection.exists_of_run_bind_eq_ok hrun
        exact .inr ⟨left, name, stack, typeInfo, bases, rfl, rfl, hlocated, hbases, hrest⟩

/-- The steps of a walk that comes to an end on a target, with what it
expands. -/
inductive Ends (target : Target) (width : PointerWidth) (limits : Limits) :
    Nat → Walk → List Expansion → Walk → Prop where
  /-- All classes on the stack were expanded. -/
  | done {budget : Nat} {walk : Walk}
      (hnext : walk.stack.dropWhile (· ∈ walk.visited) = []) :
      Ends target width limits budget walk [] walk
  /-- The next class is expanded where it was last met, then the rest. -/
  | expand {budget : Nat} {walk final : Walk} {name : String} {stack : List String}
      {typeInfo : Address} {bases : List (String × Address)} {found : List Expansion}
      (hnext : walk.stack.dropWhile (· ∈ walk.visited) = name :: stack)
      (hlocated : walk.located.get? name = some typeInfo)
      (hbases : (namedBases width limits typeInfo).run target = .ok bases)
      (hlater : Ends target width limits budget (walk.extend name typeInfo bases stack) found
        final) :
      Ends target width limits (budget + 1) walk (⟨name, typeInfo, bases⟩ :: found) final

theorem ends_of_run_finish (hrun : (walk.finish width limits budget).run target = .ok final) :
    Ends target width limits budget walk (walk.expansions target width limits budget) final := by
  induction budget generalizing walk with
  | zero =>
    obtain ⟨hnext, rfl⟩ | ⟨_, _, _, _, _, hbudget, -⟩ := cases_of_run_finish hrun
    · exact .done hnext
    · contradiction
  | succ budget ih =>
    obtain ⟨hnext, rfl⟩ |
        ⟨left, name, stack, typeInfo, bases, hbudget, hnext, hlocated, hbases, hrest⟩ :=
      cases_of_run_finish hrun
    · rw [expansions_of_done hnext]
      exact .done hnext
    · obtain rfl := Nat.succ.inj hbudget
      rw [expansions_succ hnext hlocated hbases]
      exact .expand hnext hlocated hbases (ih hrest)

/-- A walk that ends is a search of the map that it ends with. -/
theorem Ends.searches {found : List Expansion}
    (hends : Ends target width limits budget walk found final)
    (hchildren : walk.ChildrenOfVisited) : walk.Searches final := by
  induction hends with
  | done hnext => exact searches_of_done hnext
  | expand hnext _ _ _ ih => exact .of_extend hchildren hnext (ih hchildren.extend)

/-- A walk that ends has found the classes that it expanded, with their
edges. -/
theorem Ends.found {found : List Expansion}
    (hends : Ends target width limits budget walk found final) :
    final.visited.reverse = walk.visited.reverse ++ found.map (·.name) ∧
    final.map = (found.flatMap Expansion.edges).foldl
      (fun map edge => map.addEdge edge.1 edge.2) walk.map := by
  induction hends with
  | done => exact ⟨(List.append_nil _).symm, rfl⟩
  | expand _ _ _ _ ih =>
    obtain ⟨hvisited, hmap⟩ := ih
    constructor
    · rw [hvisited, visited_extend, List.reverse_cons, List.append_assoc, List.map_cons]
      rfl
    · rw [hmap, List.flatMap_cons, List.foldl_append, Expansion.edges, List.foldl_map]
      rfl

end Walk

variable {typeInfo : Address} {hierarchy : ClassHierarchy}

/-- A hierarchy that is found is what a walk from its root ends with. -/
theorem ends_of_run_decode (hrun : (decode width limits typeInfo).run target = .ok hierarchy) :
    ∃ root final, (nameOf width limits typeInfo).run target = .ok root ∧ ¬root.isEmpty ∧
      Walk.Ends target width limits limits.nodes (Walk.start root typeInfo)
        (expansions target width limits typeInfo) final ∧
      hierarchy = ⟨.itanium, root, final.visited.reverse, final.map⟩ := by
  obtain ⟨root, hroot, hrest⟩ := Inspection.exists_of_run_bind_eq_ok hrun
  split at hrest
  · contradiction
  · next hnamed =>
    obtain ⟨final, hfinish, hfinal⟩ := Inspection.exists_of_run_bind_eq_ok hrest
    refine ⟨root, final, hroot, hnamed, ?_, (Except.ok.inj hfinal).symm⟩
    simp only [expansions, hroot, if_neg hnamed]
    exact Walk.ends_of_run_finish hfinish

/-- The names of a decoded hierarchy are those of a search of its map from its
root, in the order of their first visits. -/
theorem firstVisits_of_run_decode
    (hrun : (decode width limits typeInfo).run target = .ok hierarchy) :
    hierarchy.abi = .itanium ∧
      FirstVisits hierarchy.map.children [] [hierarchy.root] hierarchy.names := by
  obtain ⟨root, final, -, -, hends, rfl⟩ := ends_of_run_decode hrun
  exact ⟨rfl, (hends.searches (Walk.childrenOfVisited_start root typeInfo)).firstVisits⟩

/-- A decoded hierarchy lists the classes that the walk expands, and its map has
their edges. -/
theorem found_of_run_decode
    (hrun : (decode width limits typeInfo).run target = .ok hierarchy) :
    let found := expansions target width limits typeInfo
    hierarchy.names = found.map (·.name) ∧
      hierarchy.map = .ofEdges (found.flatMap Expansion.edges) := by
  obtain ⟨root, final, -, -, hends, rfl⟩ := ends_of_run_decode hrun
  exact hends.found

/-- The parent of an edge was expanded, and what was expanded is listed. -/
theorem parent_mem_names_of_run
    (hrun : (decode width limits typeInfo).run target = .ok hierarchy) {edge : String × String}
    (hedge : edge ∈ (expansions target width limits typeInfo).flatMap Expansion.edges) :
    edge.1 ∈ hierarchy.names := by
  obtain ⟨expansion, hexpansion, hedge⟩ := List.mem_flatMap.1 hedge
  obtain ⟨base, -, rfl⟩ := List.mem_map.1 hedge
  rw [(found_of_run_decode hrun).1]
  exact List.mem_map.2 ⟨expansion, hexpansion, rfl⟩

end Rtti.Itanium
