import Rtti.Proofs.Hierarchy.Drawing
import Rtti.Proofs.Text.Lines

/-!
# The lines of a drawing

A drawing is written as one text and divided into lines again.  That gives a
line for each node as long as the names of the classes leave the lines whole
(`ClassHierarchy.KeepsLines`); `ClassHierarchy.lines_tree_iff` says how many
lines these are and that no other hierarchy has as many that make its drawing.

What is drawn around a name breaks no line (`Drawing.Unbroken`), and the only
line that can be empty is that of a root without children.
-/

namespace Rtti

namespace Drawing

variable {map : InheritanceMap} {expanded : List String} {pending : Pending}
  {stack : List Pending} {node : Node} {root : String}

/-! ## Around a name -/

/-- The text has no character that ends a line or belongs to the end of one. -/
def Unbroken (text : String) : Prop :=
  ∀ c ∈ text.toList, c ≠ '\n' ∧ c ≠ '\r'

instance (text : String) : Decidable (Unbroken text) :=
  List.decidableBAll _ text.toList

theorem Unbroken.append {a b : String} (ha : Unbroken a) (hb : Unbroken b) :
    Unbroken (a ++ b) := by
  intro c hc
  rw [String.toList_append, List.mem_append] at hc
  exact hc.elim (ha c) (hb c)

theorem unbroken_empty : Unbroken "" := by decide

theorem unbroken_branch (place : Place) : Unbroken place.branch := by
  cases place <;> decide

theorem unbroken_continuation (place : Place) : Unbroken place.continuation := by
  cases place <;> decide

/-- The children of a node are indented as it is or more, and none stands as
the root. -/
theorem forall_mem_children (hindent : Unbroken pending.indent) (names : List String) :
    ∀ child ∈ pending.children names, Unbroken child.indent ∧ child.place ≠ .root := by
  have hwider := hindent.append (unbroken_continuation pending.place)
  fun_induction Pending.children pending names with
  | case1 => simp
  | case2 name =>
    rw [List.forall_mem_singleton]
    exact ⟨hwider, by simp⟩
  | case3 name rest _ ih => exact List.forall_mem_cons.2 ⟨⟨hwider, by simp⟩, ih⟩

/-- So are the nodes drawn below a stack of such nodes. -/
theorem forall_mem_nodesFrom
    (hstack : ∀ pending ∈ stack, Unbroken pending.indent ∧ pending.place ≠ .root) :
    ∀ node ∈ nodesFrom map expanded stack, Unbroken node.indent ∧ node.place ≠ .root := by
  fun_induction nodesFrom map expanded stack with
  | case1 expanded => simp
  | case2 expanded pending stack _ ih =>
    obtain ⟨hpending, hstack⟩ := List.forall_mem_cons.1 hstack
    refine List.forall_mem_cons.2 ⟨hpending, ih ?_⟩
    exact List.forall_mem_append.2 ⟨forall_mem_children hpending.1 _, hstack⟩
  | case3 expanded pending stack _ ih =>
    obtain ⟨hpending, hstack⟩ := List.forall_mem_cons.1 hstack
    exact List.forall_mem_cons.2 ⟨hpending, ih hstack⟩

/-- The root is drawn first, and what is drawn below it are its children. -/
theorem nodes_eq_cons (root : String) (map : InheritanceMap) :
    ∃ expanded, nodes root map = ⟨{ name := root }, false⟩ ::
      nodesFrom map expanded (Pending.children { name := root } (map.children root)) := by
  rw [nodes, nodesFrom]
  by_cases hchildren : map.hasChildren root = true
  · rw [dif_pos ⟨hchildren, List.not_mem_nil⟩, List.append_nil]
    exact ⟨_, rfl⟩
  · rw [Bool.not_eq_true] at hchildren
    rw [dif_neg (by simp [hchildren]), hchildren, children_eq_nil hchildren]
    exact ⟨_, rfl⟩

theorem nodesFrom_eq_nil_iff : nodesFrom map expanded stack = [] ↔ stack = [] := by
  fun_cases nodesFrom map expanded stack <;> simp

/-! ## Lines -/

theorem toList_line (node : Node) :
    node.line.toList = (node.indent ++ node.place.branch).toList ++ node.name.toList ++
      if node.repeated then repeatMark.toList else [] := by
  rw [Node.line, String.toList_append, String.toList_append]
  split <;> rfl

/-- A line is broken where the name is. -/
theorem mem_line_iff (hindent : Unbroken node.indent) :
    '\n' ∈ node.line.toList ↔ '\n' ∈ node.name.toList := by
  have hbefore : '\n' ∉ (node.indent ++ node.place.branch).toList := fun hmem =>
    (hindent.append (unbroken_branch node.place) _ hmem).1 rfl
  have hafter : '\n' ∉ if node.repeated then repeatMark.toList else [] := by
    split <;> decide
  rw [toList_line, List.mem_append, List.mem_append]
  exact ⟨fun hmem => (hmem.resolve_right hafter).resolve_left hbefore, fun hmem => .inl (.inr hmem)⟩

/-- A line ends as the name does, unless a mark follows the name. -/
theorem getLast?_line_iff (hindent : Unbroken node.indent) :
    node.line.toList.getLast? = some '\r' ↔
      node.repeated = false ∧ node.name.toList.getLast? = some '\r' := by
  have hbefore : (node.indent ++ node.place.branch).toList.getLast? ≠ some '\r' := fun hlast =>
    (hindent.append (unbroken_branch node.place) _ (List.mem_of_getLast? hlast)).2 rfl
  rw [toList_line, List.getLast?_append]
  cases node.repeated with
  | true => simp [show repeatMark.toList.getLast? = some ']' by decide]
  | false =>
    rw [if_neg (by simp), List.getLast?_nil, Option.none_or, List.getLast?_append]
    cases hname : node.name.toList.getLast? with
    | none => simpa using hbefore
    | some c => simp

/-- Below the root no line is empty. -/
theorem line_ne_empty (hplace : node.place ≠ .root) : node.line ≠ "" := by
  intro hempty
  have hbranch : node.place.branch = "" := by
    have hline := congrArg String.toList hempty
    rw [toList_line] at hline
    simp only [String.toList_append, String.toList_empty, List.append_eq_nil_iff] at hline
    exact String.toList_eq_nil_iff.1 hline.1.1.2
  revert hbranch
  cases hnode : node.place with
  | root => exact absurd hnode hplace
  | inner => decide
  | last => decide

/-- The last line is empty if it is that of a root without a name and without
children. -/
theorem getLast?_lines_eq_empty_iff :
    ((nodes root map).map Node.line).getLast? = some "" ↔
      root = "" ∧ map.hasChildren root = false := by
  obtain ⟨expanded, hnodes⟩ := nodes_eq_cons root map
  rw [hnodes, List.map_cons]
  by_cases hchildren : map.children root = []
  · have hleaf : map.hasChildren root = false := by simp [InheritanceMap.hasChildren, hchildren]
    rw [hchildren, Pending.children, nodesFrom_eq_nil_iff.2 rfl]
    simp [Node.line, Place.branch, hleaf]
  · have hparent : map.hasChildren root = true := by
      simpa [InheritanceMap.hasChildren] using hchildren
    refine iff_of_false (fun hlast => ?_) (by simp [hparent])
    have hbelow : nodesFrom map expanded (Pending.children { name := root } (map.children root)) ≠
        [] := by
      rw [ne_eq, nodesFrom_eq_nil_iff, ← List.length_eq_zero_iff, length_children,
        List.length_eq_zero_iff]
      exact hchildren
    rw [List.getLast?_cons_of_ne_nil (by simpa using hbelow)] at hlast
    obtain ⟨node, hnode, hline⟩ := List.mem_map.1 (List.mem_of_getLast? hlast)
    have hplaced := forall_mem_nodesFrom (forall_mem_children unbroken_empty _) node hnode
    exact line_ne_empty hplaced.2 hline

theorem unbroken_of_mem_nodes (hnode : node ∈ nodes root map) : Unbroken node.indent := by
  obtain ⟨expanded, hnodes⟩ := nodes_eq_cons root map
  rw [hnodes] at hnode
  rcases List.mem_cons.1 hnode with rfl | hnode
  · exact unbroken_empty
  · exact (forall_mem_nodesFrom (forall_mem_children unbroken_empty _) node hnode).1

end Drawing

/-! ## Hierarchies -/

namespace ClassHierarchy

open Drawing

/-- The names of the classes leave the lines of the drawing whole. -/
structure KeepsLines (h : ClassHierarchy) : Prop where
  /-- No drawn name has a line feed. -/
  feeds : ∀ name, Graph.Reaches h.map.children h.root name → '\n' ∉ name.toList
  /-- Above the last line no name that a line ends in ends in a carriage
  return. -/
  returns : ∀ node ∈ (nodes h.root h.map).dropLast, node.repeated = false →
    node.name.toList.getLast? ≠ some '\r'
  /-- The root has a name, or its line is not the last. -/
  root : h.root = "" → h.map.hasChildren h.root = true

/-- The lines of the nodes are separable if the names leave them whole. -/
theorem separable_iff (h : ClassHierarchy) :
    Text.Separable ((nodes h.root h.map).map Node.line) ↔ h.KeepsLines := by
  have hfeeds : (∀ text ∈ (nodes h.root h.map).map Node.line, '\n' ∉ text.toList) ↔
      ∀ name, Graph.Reaches h.map.children h.root name → '\n' ∉ name.toList := by
    simp only [← mem_drawnNames_iff, drawnNames, List.forall_mem_map]
    exact forall₂_congr fun node hnode => not_congr (mem_line_iff (unbroken_of_mem_nodes hnode))
  have hreturns : (∀ text ∈ ((nodes h.root h.map).map Node.line).dropLast,
      text.toList.getLast? ≠ some '\r') ↔
      ∀ node ∈ (nodes h.root h.map).dropLast, node.repeated = false →
        node.name.toList.getLast? ≠ some '\r' := by
    rw [← List.map_dropLast, List.forall_mem_map]
    refine forall₂_congr fun node hnode => ?_
    have hindent := unbroken_of_mem_nodes (List.mem_of_mem_dropLast hnode)
    rw [ne_eq, getLast?_line_iff hindent, not_and]
  have hlast : ((nodes h.root h.map).map Node.line).getLast? ≠ some "" ↔
      (h.root = "" → h.map.hasChildren h.root = true) := by
    rw [ne_eq, getLast?_lines_eq_empty_iff, not_and, Bool.not_eq_false]
  constructor
  · intro hseparable
    exact ⟨hfeeds.1 hseparable.feeds, hreturns.1 hseparable.returns, hlast.1 hseparable.last⟩
  · intro hkeeps
    exact ⟨hfeeds.2 hkeeps.feeds, hreturns.2 hkeeps.returns, hlast.2 hkeeps.root⟩

/-- A drawing is presented with one line for its root and one for each child of
each of its classes, and these lines make the drawing, exactly if the names
leave the lines whole. -/
theorem lines_tree_iff (h : ClassHierarchy) :
    ∃ reached : List String, reached.Nodup ∧
      (∀ name, name ∈ reached ↔ Graph.Reaches h.map.children h.root name) ∧
      ((h.lines .tree).length =
            1 + (reached.map fun name => (h.map.children name).length).sum ∧
          "\n".intercalate (h.lines .tree) = h.render ↔
        h.KeepsLines) := by
  have hsearch := h.firstVisits_drawnNames
  have hnodes : (nodes h.root h.map).map Node.line ≠ [] := by
    obtain ⟨expanded, hnodes⟩ := nodes_eq_cons h.root h.map
    simp [hnodes]
  have hlength := h.length_nodes
  rw [← List.length_map Node.line] at hlength
  refine ⟨h.drawnNames.eraseDups, hsearch.nodup List.nodup_nil, fun _ => hsearch.mem_iff_reaches,
    ?_⟩
  rw [← separable_iff, ← Text.lines_intercalate_iff hnodes, Text.lines_intercalate_eq_iff hnodes,
    hlength]
  rfl

/-- A line feed in a name makes two lines of one. -/
example : (single .itanium "A\nB").lines .tree = ["A", "B"] := by cbv

end ClassHierarchy

end Rtti
