import Mathlib.Algebra.BigOperators.Group.Finset.Basic
import Mathlib.Data.List.Permutation
import Rtti.Proofs.Hierarchy.Sketch

/-!
# The size of a drawing

A drawing does not grow with the number of paths in an inheritance map, but with
the number of its edges: `Drawing.length_nodes_eq_sum` counts the nodes, one for each
line, and says that a class with children is drawn with them exactly once.  A class
that was drawn with its children is marked from then on (`Drawing.unmarked_of_mem`),
and one that was not is drawn with them at its first appearance
(`Drawing.unmarked_of_not_mem`).
-/

namespace Rtti.Drawing

open Rtti.Graph

variable {map : InheritanceMap} {expanded : List String} {stack : List Pending} {name : String}

/-- How often a class is drawn without a mark. -/
def unmarked (name : String) (drawn : List Node) : Nat :=
  drawn.countP fun node => node.name = name && !node.repeated

theorem unmarked_cons (node : Node) (drawn : List Node) :
    unmarked name (node :: drawn) =
      unmarked name drawn + if node.name = name ∧ node.repeated = false then 1 else 0 := by
  simp [unmarked, List.countP_cons]

/-- A class with children that was drawn with them is marked wherever it is drawn
again. -/
theorem unmarked_of_mem (hchildren : map.hasChildren name = true) (hmem : name ∈ expanded) :
    unmarked name (nodesFrom map expanded stack) = 0 := by
  fun_induction nodesFrom map expanded stack with
  | case1 expanded => rfl
  | case2 expanded pending stack hfresh ih =>
    have hother : pending.name ≠ name := by
      rintro rfl
      exact hfresh.2 hmem
    rw [unmarked_cons, ih (List.mem_cons_of_mem _ hmem), if_neg (fun hself => hother hself.1)]
  | case3 expanded pending stack hknown ih =>
    rw [unmarked_cons, ih hmem, if_neg]
    rintro ⟨rfl, hunmarked⟩
    rw [hchildren] at hunmarked
    contradiction

/-- A class with children that is drawn for the first time is drawn with them
there, and nowhere else. -/
theorem unmarked_of_not_mem (hchildren : map.hasChildren name = true) (hnew : name ∉ expanded)
    (hdrawn : name ∈ (nodesFrom map expanded stack).map (·.name)) :
    unmarked name (nodesFrom map expanded stack) = 1 := by
  fun_induction nodesFrom map expanded stack with
  | case1 expanded => contradiction
  | case2 expanded pending stack hfresh ih =>
    rw [List.map_cons, List.mem_cons] at hdrawn
    by_cases hself : pending.name = name
    · rw [unmarked_cons, unmarked_of_mem hchildren (hself ▸ List.mem_cons_self),
        if_pos ⟨hself, rfl⟩]
    · have hlater := hdrawn.resolve_left (Ne.symm hself)
      have hstill : name ∉ pending.name :: expanded :=
        List.not_mem_cons_of_ne_of_not_mem (Ne.symm hself) hnew
      rw [unmarked_cons, ih hstill hlater, if_neg (fun h => hself h.1)]
  | case3 expanded pending stack hknown ih =>
    rw [List.map_cons, List.mem_cons] at hdrawn
    have hother : pending.name ≠ name := by
      rintro rfl
      exact hknown ⟨hchildren, hnew⟩
    rw [unmarked_cons, ih hnew (hdrawn.resolve_left (Ne.symm hother)),
      if_neg (fun h => hother h.1)]

/-- A drawing has one line for each node, which the recursive drawing has as well.
There is a node for the root and one for each child of each class that can be
reached, and each of these classes that has children is drawn without a mark exactly
once. -/
theorem length_nodes_eq_sum (root : String) (map : InheritanceMap) :
    render root map = "\n".intercalate ((nodes root map).map Node.line) ∧
    (nodes root map).map Node.line = root :: (Sketch.outline root map).lines "" ∧
    ∃ reached : Finset String, (∀ name, name ∈ reached ↔ Reaches map.children root name) ∧
      (nodes root map).length = 1 + ∑ name ∈ reached, (map.children name).length ∧
      ∀ name ∈ reached, map.hasChildren name = true → unmarked name (nodes root map) = 1 := by
  let start : List Pending := [{ name := root }]
  let order := appearances [] ((nodesFrom map [] start).map (·.name))
  have hsearch : FirstVisits map.children [] (start.map (·.name)) order :=
    firstVisits_nodesFrom (Expanded.nil map)
  have hlength : (nodesFrom map [] start).length + 0 = 1 + childCount map order :=
    length_nodesFrom (Expanded.nil map)
  refine ⟨rfl, map_line_nodes root map, order.toFinset, fun name => ?_, ?_,
    fun name hreached hchildren => ?_⟩
  · rw [List.mem_toFinset]
    exact hsearch.mem_iff_reaches
  · rw [List.sum_toFinset _ (hsearch.nodup List.nodup_nil)]
    exact hlength
  · rw [List.mem_toFinset] at hreached
    have hdrawn : name ∈ (nodesFrom map [] start).map (·.name) := by
      simpa [order, appearances, List.removeAll] using hreached
    exact unmarked_of_not_mem hchildren List.not_mem_nil hdrawn

/-- A shared class in a cycle. -/
def looped : InheritanceMap :=
  .ofEdges [("A", "B"), ("A", "C"), ("B", "D"), ("C", "D"), ("D", "A")]

/-- The shared class is drawn twice, but once only with its children. -/
theorem length_nodes_looped :
    (nodes "A" looped).length = 6 ∧ Reaches looped.children "A" "D" ∧
      ((nodes "A" looped).map (·.name)).count "D" = 2 ∧ unmarked "D" (nodes "A" looped) = 1 := by
  obtain ⟨-, -, reached, hreached, -, hunmarked⟩ := length_nodes_eq_sum "A" looped
  have hshared : Reaches looped.children "A" "D" :=
    (Relation.ReflTransGen.single (b := "B") (by decide +kernel)).tail (by decide +kernel)
  exact ⟨by cbv, hshared, by cbv, hunmarked "D" ((hreached "D").2 hshared) (by decide +kernel)⟩

end Rtti.Drawing
