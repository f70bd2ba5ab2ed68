import Rtti.Hierarchy
import Rtti.Proofs.Hierarchy.Drawing

/-!
# Recursive drawings

The drawing of an inheritance map in its recursive form.  `Sketch.draw` goes
through the map depth first: it is given some siblings with the set of the
classes that are drawn with their children, draws each sibling with what is
below it before the next, and hands the set on from one to the other.  There is
neither a stack nor a text.  `Sketch.lines` then writes what was drawn, and the
indentation of a line is that of its parent with what the place of the parent
adds.

`render_eq_lines_outline` says that a drawing with a stack is written in the
same way.  A node may be drawn long after it was put on the stack, but below the
siblings of a node the stack is as before, so the siblings are drawn as by the
recursion, whatever is below them.
-/

namespace Rtti.Drawing

/-! ## Sketches -/

/-- Siblings in a drawing, each with what is drawn below it. -/
inductive Sketch where
  /-- No sibling. -/
  | blank
  /-- A class with the sketch of its children and that of its later
  siblings. -/
  | entry (name : String) (repeated : Bool) (below later : Sketch)
  deriving Repr, DecidableEq

namespace Sketch

/-- The branch to a class with these later siblings. -/
def branch : Sketch → String
  | blank => "└── "
  | entry .. => "├── "

/-- What a class with these later siblings adds to the indentation of those
below it. -/
def continuation : Sketch → String
  | blank => "    "
  | entry .. => "│   "

/-- The lines of siblings that are indented by `indent`, and of those below
them. -/
def lines (indent : String) : Sketch → List String
  | blank => []
  | entry name repeated below later =>
    (indent ++ later.branch ++ name ++ if repeated then " [...]" else "") ::
      (below.lines (indent ++ later.continuation) ++ later.lines indent)

/-- A sketch that is drawn when the classes of `before` were drawn with their
children. -/
structure Drawn (before : List String) where
  sketch : Sketch
  /-- The classes that are drawn with their children after it. -/
  expanded : List String
  subset : before ⊆ expanded

theorem length_unexpanded_le {map : InheritanceMap} {before after : List String}
    (hsubset : before ⊆ after) :
    (unexpanded map after).length ≤ (unexpanded map before).length := by
  apply List.Sublist.length_le
  apply List.monotone_filter_right
  intro name hname
  simp only [decide_eq_true_eq] at hname ⊢
  exact fun hbefore => hname (hsubset hbefore)

/-- The sketch of the classes of a list.  A class without children is a leaf.
One with children is drawn with them and is then among the expanded classes;
one that already is gets a mark in place of its children. -/
def draw (map : InheritanceMap) (expanded : List String) : List String → Drawn expanded
  | [] => ⟨blank, expanded, List.Subset.refl _⟩
  | name :: rest =>
    if _hleaf : map.children name = [] then
      let later := draw map expanded rest
      ⟨entry name false blank later.sketch, later.expanded, later.subset⟩
    else if _hdrawn : name ∈ expanded then
      let later := draw map expanded rest
      ⟨entry name true blank later.sketch, later.expanded, later.subset⟩
    else
      let below := draw map (name :: expanded) (map.children name)
      let later := draw map below.expanded rest
      ⟨entry name false below.sketch later.sketch, later.expanded,
        List.Subset.trans (List.subset_cons_self name expanded)
          (List.Subset.trans below.subset later.subset)⟩
termination_by names => ((unexpanded map expanded).length, names.length)
decreasing_by
  · exact Prod.Lex.right _ (Nat.lt_succ_self _)
  · exact Prod.Lex.right _ (Nat.lt_succ_self _)
  · exact Prod.Lex.left _ _
      (length_unexpanded_cons_lt (by simpa [InheritanceMap.hasChildren] using _hleaf) _hdrawn)
  · exact Prod.Lex.left _ _ (Nat.lt_of_le_of_lt (length_unexpanded_le below.subset)
      (length_unexpanded_cons_lt (by simpa [InheritanceMap.hasChildren] using _hleaf) _hdrawn))

/-- The sketch of what is drawn below the root of a map.  The root is drawn
first, with its children. -/
def outline (root : String) (map : InheritanceMap) : Sketch :=
  (draw map [root] (map.children root)).sketch

end Sketch

open Sketch

variable {map : InheritanceMap} {expanded : List String} {name : String}

theorem children_cons (parent : Pending) (name : String) (rest : List String) :
    parent.children (name :: rest) =
      ⟨name, parent.indent ++ parent.place.continuation, if rest = [] then .last else .inner⟩ ::
        parent.children rest := by
  cases rest <;> rfl

theorem sketch_draw_eq_blank_iff {names : List String} :
    (draw map expanded names).sketch = blank ↔ names = [] := by
  fun_cases draw map expanded names <;> simp

/-- The lines of siblings are the line of the first node, the lines below it, and
those of its later siblings. -/
theorem lines_entry {indent : String} {repeated : Bool} {below later : Sketch}
    {rest : List String} (hlater : later = blank ↔ rest = []) :
    let place : Place := if rest = [] then .last else .inner
    (entry name repeated below later).lines indent =
      Node.line ⟨⟨name, indent, place⟩, repeated⟩ ::
        (below.lines (indent ++ place.continuation) ++ later.lines indent) := by
  cases later with
  | blank =>
    rw [if_pos (hlater.1 rfl), lines]
    rfl
  | entry =>
    rw [if_neg (mt hlater.2 nofun), lines]
    rfl

/-- Siblings on top of a stack are drawn as by the recursion, before the rest of
the stack. -/
theorem map_line_nodesFrom (parent : Pending) (names : List String) (stack : List Pending) :
    (nodesFrom map expanded (parent.children names ++ stack)).map Node.line =
      (draw map expanded names).sketch.lines (parent.indent ++ parent.place.continuation) ++
        (nodesFrom map (draw map expanded names).expanded stack).map Node.line := by
  fun_induction draw map expanded names generalizing parent stack with
  | case1 expanded => rfl
  | case2 expanded name rest hleaf later ih =>
    have hchildren : map.hasChildren name = false := by simp [InheritanceMap.hasChildren, hleaf]
    rw [children_cons, List.cons_append, nodesFrom, dif_neg (by simp [hchildren]), hchildren,
      List.map_cons, ih, lines_entry sketch_draw_eq_blank_iff, lines, List.nil_append]
    rfl
  | case3 expanded name rest hleaf hdrawn later ih =>
    have hchildren : map.hasChildren name = true := by simp [InheritanceMap.hasChildren, hleaf]
    rw [children_cons, List.cons_append, nodesFrom, dif_neg (by simp [hdrawn]), hchildren,
      List.map_cons, ih, lines_entry sketch_draw_eq_blank_iff, lines, List.nil_append]
    rfl
  | case4 expanded name rest hleaf hdrawn below later ihbelow ihlater =>
    have hchildren : map.hasChildren name = true := by simp [InheritanceMap.hasChildren, hleaf]
    rw [children_cons, List.cons_append, nodesFrom, dif_pos ⟨hchildren, hdrawn⟩,
      List.map_cons, ihbelow, ihlater, lines_entry sketch_draw_eq_blank_iff,
      List.cons_append, List.append_assoc]

/-- The nodes of a drawing are written as the root and the lines of the recursion
below it. -/
theorem map_line_nodes (root : String) (map : InheritanceMap) :
    (nodes root map).map Node.line = root :: (outline root map).lines "" := by
  let start : Pending := { name := root }
  have hline : Node.line ⟨start, false⟩ = root := by simp [Node.line, start, Place.branch]
  by_cases hleaf : map.children root = []
  · have hchildren : map.hasChildren root = false := by simp [InheritanceMap.hasChildren, hleaf]
    rw [nodes, nodesFrom, dif_neg (by simp [hchildren]), hchildren, nodesFrom, outline, hleaf,
      draw, lines, List.map_singleton, hline]
  · have hchildren : map.hasChildren root = true := by simp [InheritanceMap.hasChildren, hleaf]
    rw [nodes, nodesFrom, dif_pos ⟨hchildren, List.not_mem_nil⟩, List.map_cons, hline,
      map_line_nodesFrom, nodesFrom, List.map_nil, List.append_nil]
    rfl

/-- A drawing with a stack is written as the recursion is: the root, and below it
the lines of its children. -/
theorem render_eq_lines_outline (root : String) (map : InheritanceMap) :
    render root map = "\n".intercalate (root :: (outline root map).lines "") := by
  rw [render, map_line_nodes]

/-- The bases of a shared class are drawn once, and those of a class in a cycle
where it begins. -/
example :
    let map : InheritanceMap :=
      .ofEdges [("A", "B"), ("A", "C"), ("B", "D"), ("C", "D"), ("D", "A")]
    "A" :: (outline "A" map).lines "" =
      ["A", "├── B", "│   └── D", "│       └── A [...]", "└── C", "    └── D [...]"] := by
  cbv

end Rtti.Drawing
