import Rtti.Hierarchy.InheritanceMap

/-!
# Drawings of an inheritance map

A map is drawn as a tree with one class on a line, children below their
parent and indented under it.  A class with children is drawn with them
where it first appears; later appearances are marked and not followed, so
cycles end and shared bases are drawn once.

`Drawing.nodes` lists the lines, and `Drawing.render` writes them.  The
drawing keeps a stack of the nodes that are still to be drawn, first child
on top.  It ends because a step either takes a class with children that was
not drawn before, of which the map has finitely many, or leaves a shorter
stack.
-/

namespace Rtti.Drawing

/-- Where a node stands among its siblings. -/
inductive Place where
  | root
  | inner
  | last
  deriving Repr, DecidableEq

/-- The branch drawn before the name of a node. -/
def Place.branch : Place → String
  | root => ""
  | inner => "├── "
  | last => "└── "

/-- What a node adds to the indentation of its children. -/
def Place.continuation : Place → String
  | root => ""
  | inner => "│   "
  | last => "    "

/-- The mark of a class whose children are drawn elsewhere. -/
def repeatMark : String := " [...]"

/-- A node that is still to be drawn. -/
structure Pending where
  name : String
  indent : String := ""
  place : Place := .root
  deriving Repr, DecidableEq

/-- A drawn node. -/
structure Node extends Pending where
  /-- Whether the class has children that are drawn elsewhere. -/
  repeated : Bool
  deriving Repr, DecidableEq

/-- The line of a node. -/
def Node.line (node : Node) : String :=
  node.indent ++ node.place.branch ++ node.name ++ (if node.repeated then repeatMark else "")

/-- The children of a node as nodes to be drawn. -/
def Pending.children (parent : Pending) : List String → List Pending
  | [] => []
  | [name] => [⟨name, parent.indent ++ parent.place.continuation, .last⟩]
  | name :: rest =>
    ⟨name, parent.indent ++ parent.place.continuation, .inner⟩ :: parent.children rest

/-- The classes with an entry in the map that are not among `expanded`. -/
def unexpanded (map : InheritanceMap) (expanded : List String) : List String :=
  map.edges.keys.filter (· ∉ expanded)

theorem length_unexpanded_cons_lt {map : InheritanceMap} {expanded : List String} {name : String}
    (children : map.hasChildren name) (fresh : name ∉ expanded) :
    (unexpanded map (name :: expanded)).length < (unexpanded map expanded).length := by
  have known : name ∈ map.edges.keys := by
    simp only [InheritanceMap.hasChildren, InheritanceMap.children, SortedMap.get?] at children
    simp only [SortedMap.keys, List.mem_map]
    cases found : map.edges.entries.find? (fun p => p.1 = name) with
    | none => simp [found] at children
    | some p =>
      have := List.find?_some found
      exact ⟨p, List.mem_of_find?_eq_some found, by simpa using this⟩
  have fewer : unexpanded map (name :: expanded) =
      (unexpanded map expanded).filter (· ≠ name) := by
    simp only [unexpanded, List.filter_filter]
    congr 1
    funext key
    simp
  rw [fewer, List.length_filter_lt_length_iff_exists]
  exact ⟨name, List.mem_filter.2 ⟨known, by simpa using fresh⟩, by simp⟩

/-- The nodes that are drawn when the stack is `stack` and the classes in
`expanded` have been drawn with their children. -/
def nodesFrom (map : InheritanceMap) (expanded : List String) : List Pending → List Node
  | [] => []
  | pending :: stack =>
    if _h : map.hasChildren pending.name ∧ pending.name ∉ expanded then
      ⟨pending, false⟩ :: nodesFrom map (pending.name :: expanded)
        (pending.children (map.children pending.name) ++ stack)
    else ⟨pending, map.hasChildren pending.name⟩ :: nodesFrom map expanded stack
termination_by stack => ((unexpanded map expanded).length, stack.length)
decreasing_by
  · exact Prod.Lex.left _ _ (length_unexpanded_cons_lt _h.1 _h.2)
  · exact Prod.Lex.right _ (by simp)

/-- The nodes of the drawing, from top to bottom. -/
def nodes (root : String) (map : InheritanceMap) : List Node :=
  nodesFrom map [] [{ name := root }]

/-- The drawing as a text of one line for each node. -/
def render (root : String) (map : InheritanceMap) : String :=
  String.intercalate "\n" ((nodes root map).map Node.line)

end Rtti.Drawing
