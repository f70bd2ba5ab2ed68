import Mathlib.Data.List.Induction
import Rtti.Hierarchy.InheritanceMap
import Rtti.Proofs.SortedMap.Lookup

/-!
# Children from edges

An inheritance map is built by adding edges one after another.
`children_ofEdges` says what it holds: the children of a class are those that
were added under it, in the order of their first addition.  The classes with an
entry are those that edges lead from (`mem_keys_ofEdges`), and the classes that
the map mentions are the ends of the edges (`mem_classes_ofEdges`).
-/

namespace Rtti.InheritanceMap

variable {edges : List (String × String)} {name : String}

/-- Of one more element, only a new one stays. -/
theorem eraseDups_concat (known : List String) (child : String) :
    (known ++ [child]).eraseDups =
      if child ∈ known.eraseDups then known.eraseDups else known.eraseDups ++ [child] := by
  rw [List.eraseDups_append]
  by_cases hmem : child ∈ known
  · simp [List.removeAll, hmem]
  · simp [List.removeAll, hmem, List.eraseDups_cons]

theorem eraseDups_append_of_subset {known more : List String} (hsub : more ⊆ known) :
    (known ++ more).eraseDups = known.eraseDups := by
  have hnone : more.removeAll known = [] := by
    rw [List.removeAll, List.filter_eq_nil_iff]
    intro child hchild
    simpa using hsub hchild
  rw [List.eraseDups_append, hnone]
  simp

/-- Lists that are alike but for repeats are together like one of them. -/
theorem eraseDups_flatMap {α : Type} {parts : List α} {f : α → List String} {known : List String}
    (hparts : ∀ part ∈ parts, f part = [] ∨ (f part).eraseDups = known.eraseDups) :
    parts.flatMap f = [] ∨ (parts.flatMap f).eraseDups = known.eraseDups := by
  induction parts with
  | nil => exact .inl rfl
  | cons part parts ih =>
    obtain ⟨hpart, hparts⟩ := List.forall_mem_cons.1 hparts
    rw [List.flatMap_cons]
    rcases hpart with hnone | hpart
    · rw [hnone, List.nil_append]
      exact ih hparts
    · right
      have hsub : parts.flatMap f ⊆ f part := by
        intro child hchild
        rcases ih hparts with hnone | hrest
        · rw [hnone] at hchild
          contradiction
        · rwa [← List.mem_eraseDups, hpart, ← hrest, List.mem_eraseDups]
      rw [eraseDups_append_of_subset hsub, hpart]

theorem ofEdges_concat (edges : List (String × String)) (edge : String × String) :
    ofEdges (edges ++ [edge]) = (ofEdges edges).addEdge edge.1 edge.2 := by
  simp [ofEdges]

/-- The children of a class are those added under it, without repeats. -/
theorem children_ofEdges (edges : List (String × String)) (name : String) :
    (ofEdges edges).children name = ((edges.filter (·.1 = name)).map (·.2)).eraseDups := by
  induction edges using List.reverseRecOn with
  | nil => rfl
  | append_singleton edges edge ih =>
    rw [ofEdges_concat, children_addEdge, List.filter_append, List.map_append]
    by_cases hname : name = edge.1
    · have hkept : [edge].filter (fun e => decide (e.1 = name)) = [edge] := by simp [hname]
      rw [if_pos hname, ← hname, ih, hkept, List.map_singleton, eraseDups_concat]
    · have hskipped : [edge].filter (fun e => decide (e.1 = name)) = [] := by
        simp [Ne.symm hname]
      rw [if_neg hname, ih, hskipped, List.map_nil, List.append_nil]

theorem mem_children_ofEdges {parent : String} :
    name ∈ (ofEdges edges).children parent ↔ (parent, name) ∈ edges := by
  simp [children_ofEdges]

/-! ## Classes with an entry -/

/-- An edge gives an entry to its parent only. -/
theorem mem_keys_addEdge {m : InheritanceMap} {parent child : String} :
    name ∈ (m.addEdge parent child).edges.keys ↔ name = parent ∨ name ∈ m.edges.keys :=
  SortedMap.mem_keys_insert

/-- The classes with an entry are those under which an edge was added. -/
theorem mem_keys_ofEdges : name ∈ (ofEdges edges).edges.keys ↔ ∃ child, (name, child) ∈ edges := by
  induction edges using List.reverseRecOn with
  | nil => simp [ofEdges, empty, SortedMap.empty, SortedMap.keys]
  | append_singleton edges edge ih =>
    rw [ofEdges_concat, mem_keys_addEdge, ih]
    simp [Prod.ext_iff, exists_or, or_comm]

/-! ## Edges below one class -/

/-- Edges below one class leave the children of the others alone. -/
theorem children_foldl_addEdge_of_ne {α : Type} {child : α → String} {added : List α}
    {map : InheritanceMap} {parent : String} (hname : name ≠ parent) :
    (added.foldl (fun map item => map.addEdge parent (child item)) map).children name =
      map.children name := by
  induction added generalizing map with
  | nil => rfl
  | cons item added ih => rw [List.foldl_cons, ih, children_addEdge, if_neg hname]

/-- A class without children has those added under it, without repeats. -/
theorem children_foldl_addEdge_self {α : Type} {child : α → String} {added : List α}
    {map : InheritanceMap} {parent : String} (hnone : map.children parent = []) :
    (added.foldl (fun map item => map.addEdge parent (child item)) map).children parent =
      (added.map child).eraseDups := by
  induction added using List.reverseRecOn with
  | nil => exact hnone
  | append_singleton added item ih =>
    rw [List.foldl_append, List.foldl_cons, List.foldl_nil, children_addEdge, if_pos rfl, ih,
      List.map_append, List.map_singleton, eraseDups_concat]

/-! ## All classes -/

/-- The classes that the map mentions: each class with an entry, and its
children. -/
def classes (m : InheritanceMap) : List String :=
  m.edges.entries.flatMap fun entry => entry.1 :: entry.2

theorem mem_children_iff {m : InheritanceMap} {parent : String} :
    name ∈ m.children parent ↔ ∃ bases, m.edges.get? parent = some bases ∧ name ∈ bases := by
  cases hentry : m.edges.get? parent <;> simp [children, hentry]

theorem mem_classes_iff {m : InheritanceMap} :
    name ∈ m.classes ↔ name ∈ m.edges.keys ∨ ∃ parent, name ∈ m.children parent := by
  simp only [classes, List.mem_flatMap, List.mem_cons, Prod.exists, SortedMap.mem_keys_iff,
    mem_children_iff, SortedMap.get?_eq_some_iff, and_or_left, exists_or]
  simp

theorem mem_classes_of_mem_children {m : InheritanceMap} {parent : String}
    (hchild : name ∈ m.children parent) : name ∈ m.classes :=
  mem_classes_iff.2 (.inr ⟨parent, hchild⟩)

/-- The classes are the ends of the edges. -/
theorem mem_classes_ofEdges :
    name ∈ (ofEdges edges).classes ↔ ∃ edge ∈ edges, name = edge.1 ∨ name = edge.2 := by
  rw [mem_classes_iff, mem_keys_ofEdges]
  simp only [mem_children_ofEdges, Prod.exists, and_or_left, exists_or]
  simp

end Rtti.InheritanceMap
