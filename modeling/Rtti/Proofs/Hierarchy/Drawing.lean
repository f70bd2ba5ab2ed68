import Rtti.Hierarchy
import Rtti.Proofs.Graph.FirstVisits

/-!
# Drawings as searches

A drawing goes through an inheritance map as a depth-first search does, and it
draws a class once more wherever the search passes over it.  So the classes of
a drawing, in the order in which they first appear, are the classes of the
search in the order of their first visits
(`ClassHierarchy.firstVisits_drawnNames`).  As the children of each class are
drawn once, there is a node for each of them and for the root
(`ClassHierarchy.length_nodes`).
-/

namespace Rtti

namespace Drawing

open Rtti.Graph

variable {map : InheritanceMap} {expanded seen : List String} {pending : Pending}
  {stack : List Pending} {name : String}

theorem map_name_children (parent : Pending) (names : List String) :
    (parent.children names).map (·.name) = names := by
  fun_induction Pending.children parent names with
  | case1 => rfl
  | case2 => rfl
  | case3 name rest _ ih => rw [List.map_cons, ih]

theorem children_eq_nil (hleaf : map.hasChildren name = false) : map.children name = [] := by
  simpa [InheritanceMap.hasChildren] using hleaf

/-! ## First appearances -/

/-- The names in the order of their first appearance after those of `seen`. -/
def appearances (seen names : List String) : List String :=
  seen ++ (names.removeAll seen).eraseDups

theorem appearances_cons_of_mem {names : List String} (hseen : name ∈ seen) :
    appearances seen (name :: names) = appearances seen names := by
  simp [appearances, List.removeAll, hseen]

theorem appearances_cons_of_not_mem {names : List String} (hnew : name ∉ seen) :
    appearances seen (name :: names) = appearances (seen ++ [name]) names := by
  have hrest : names.removeAll (seen ++ [name]) =
      (names.removeAll seen).filter fun other => !other == name := by
    simp [List.removeAll, List.filter_filter, Bool.and_comm, beq_eq_decide]
  have hhead : (name :: names).removeAll seen = name :: names.removeAll seen := by
    simp [List.removeAll, hnew]
  rw [appearances, appearances, hhead, List.eraseDups_cons, hrest, List.append_assoc,
    List.singleton_append]

/-- The classes that were drawn with their children are those drawn before that
have any. -/
def Expanded (map : InheritanceMap) (expanded seen : List String) : Prop :=
  ∀ name, name ∈ expanded ↔ name ∈ seen ∧ map.hasChildren name = true

theorem Expanded.nil (map : InheritanceMap) : Expanded map [] [] := by
  simp [Expanded]

theorem Expanded.expand (hexpanded : Expanded map expanded seen)
    (hchildren : map.hasChildren name = true) :
    Expanded map (name :: expanded) (seen ++ [name]) := by
  intro other
  rw [List.mem_cons, hexpanded, List.mem_append, List.mem_singleton, or_and_right, or_comm]
  exact or_congr_right (iff_self_and.2 fun hname => hname ▸ hchildren)

theorem Expanded.leaf (hexpanded : Expanded map expanded seen)
    (hleaf : map.hasChildren name = false) : Expanded map expanded (seen ++ [name]) := by
  intro other
  rw [hexpanded, List.mem_append, List.mem_singleton, or_and_right]
  refine (or_iff_left ?_).symm
  rintro ⟨rfl, hchildren⟩
  rw [hleaf] at hchildren
  contradiction

/-- A class that is not drawn with its children here was drawn before or has
none. -/
theorem Expanded.mem_or_leaf (hexpanded : Expanded map expanded seen)
    (hknown : ¬(map.hasChildren name = true ∧ name ∉ expanded)) :
    name ∈ seen ∨ name ∉ seen ∧ map.hasChildren name = false := by
  by_cases hseen : name ∈ seen
  · exact .inl hseen
  · refine .inr ⟨hseen, ?_⟩
    by_contra hchildren
    rw [Bool.not_eq_false] at hchildren
    exact hknown ⟨hchildren, fun hmem => hseen ((hexpanded _).1 hmem).1⟩

/-- What is drawn below a stack are the first visits of a search. -/
theorem firstVisits_nodesFrom (hexpanded : Expanded map expanded seen) :
    FirstVisits map.children seen (stack.map (·.name))
      (appearances seen ((nodesFrom map expanded stack).map (·.name))) := by
  fun_induction nodesFrom map expanded stack generalizing seen with
  | case1 expanded =>
    rw [List.map_nil, List.map_nil, appearances, List.nil_removeAll, List.eraseDups_nil,
      List.append_nil]
    exact .done seen
  | case2 expanded pending stack hfresh ih =>
    obtain ⟨hchildren, hunexpanded⟩ := hfresh
    have hnew : pending.name ∉ seen := fun hseen =>
      hunexpanded ((hexpanded _).2 ⟨hseen, hchildren⟩)
    have hrest := ih (hexpanded.expand hchildren)
    rw [List.map_append, map_name_children, FirstVisits.append_iff] at hrest
    obtain ⟨below, hbelow, hrest⟩ := hrest
    rw [List.map_cons, List.map_cons, appearances_cons_of_not_mem hnew]
    exact .visit hnew hbelow hrest
  | case3 expanded pending stack hknown ih =>
    rw [List.map_cons, List.map_cons]
    obtain hseen | ⟨hnew, hleaf⟩ := hexpanded.mem_or_leaf hknown
    · rw [appearances_cons_of_mem hseen]
      exact .skip hseen (ih hexpanded)
    · rw [appearances_cons_of_not_mem hnew]
      refine .visit hnew ?_ (ih (hexpanded.leaf hleaf))
      rw [children_eq_nil hleaf]
      exact .done _

/-! ## The number of nodes -/

/-- The number of children of the classes together. -/
def childCount (map : InheritanceMap) (names : List String) : Nat :=
  (names.map fun name => (map.children name).length).sum

theorem childCount_concat (names : List String) :
    childCount map (names ++ [name]) = childCount map names + (map.children name).length := by
  simp [childCount]

theorem length_children (parent : Pending) (names : List String) :
    (parent.children names).length = names.length := by
  rw [← List.length_map (·.name), map_name_children]

/-- Below a stack a node is drawn for each node on it, and for each child of a
class that is drawn there first. -/
theorem length_nodesFrom (hexpanded : Expanded map expanded seen) :
    (nodesFrom map expanded stack).length + childCount map seen =
      stack.length +
        childCount map (appearances seen ((nodesFrom map expanded stack).map (·.name))) := by
  fun_induction nodesFrom map expanded stack generalizing seen with
  | case1 expanded => simp [appearances]
  | case2 expanded pending stack hfresh ih =>
    obtain ⟨hchildren, hunexpanded⟩ := hfresh
    have hnew : pending.name ∉ seen := fun hseen =>
      hunexpanded ((hexpanded _).2 ⟨hseen, hchildren⟩)
    have hrest := ih (hexpanded.expand hchildren)
    rw [childCount_concat, List.length_append, length_children] at hrest
    rw [List.map_cons, appearances_cons_of_not_mem hnew, List.length_cons, List.length_cons]
    omega
  | case3 expanded pending stack hknown ih =>
    rw [List.map_cons, List.length_cons, List.length_cons]
    obtain hseen | ⟨hnew, hleaf⟩ := hexpanded.mem_or_leaf hknown
    · have hrest := ih hexpanded
      rw [appearances_cons_of_mem hseen]
      omega
    · have hrest := ih (hexpanded.leaf hleaf)
      rw [childCount_concat, children_eq_nil hleaf, List.length_nil] at hrest
      rw [appearances_cons_of_not_mem hnew]
      omega

end Drawing

namespace ClassHierarchy

/-- The names of the drawn nodes, from top to bottom. -/
def drawnNames (h : ClassHierarchy) : List String :=
  (Drawing.nodes h.root h.map).map (·.name)

theorem appearances_nodes (h : ClassHierarchy) :
    Drawing.appearances [] ((Drawing.nodes h.root h.map).map (·.name)) =
      h.drawnNames.eraseDups := by
  simp [Drawing.appearances, List.removeAll, drawnNames]

/-- The drawn classes are those of a search from the root. -/
theorem firstVisits_drawnNames (h : ClassHierarchy) :
    Graph.FirstVisits h.map.children [] [h.root] h.drawnNames.eraseDups := by
  let stack : List Drawing.Pending := [{ name := h.root }]
  rw [← h.appearances_nodes]
  show Graph.FirstVisits h.map.children [] (stack.map (·.name)) _
  exact Drawing.firstVisits_nodesFrom (Drawing.Expanded.nil h.map)

/-- A node is drawn for the root and for each child of a drawn class. -/
theorem length_nodes (h : ClassHierarchy) :
    (Drawing.nodes h.root h.map).length =
      1 + Drawing.childCount h.map h.drawnNames.eraseDups := by
  have hlength : (Drawing.nodes h.root h.map).length + 0 = _ :=
    Drawing.length_nodesFrom (Drawing.Expanded.nil h.map)
  rw [← h.appearances_nodes]
  exact hlength

theorem mem_drawnNames_iff {h : ClassHierarchy} {name : String} :
    name ∈ h.drawnNames ↔ Graph.Reaches h.map.children h.root name := by
  rw [← h.firstVisits_drawnNames.mem_iff_reaches, List.mem_eraseDups]

end ClassHierarchy

end Rtti
