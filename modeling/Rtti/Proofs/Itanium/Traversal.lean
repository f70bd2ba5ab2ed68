import Rtti.Proofs.Itanium.Expansion

/-!
# Recursive traversals

The walk over a class graph in its recursive form.  `Traversal.visit` is given
a class with the place of its `type_info` and visits its bases, each at the
place that its own base record points to, in declared order.  There is neither
a stack nor a table of places.  The recursion ends because each new class takes
one of the `limits.nodes` that may be visited.

`depthFirst` is the hierarchy found in this way.  `Traversal.explore` visits
the classes of a list, and its lemmas say what becomes of the list's head.
-/

namespace Rtti.Itanium

/-! ## The recursive walk -/

/-- What a traversal has found. -/
structure Traversal where
  /-- The visited classes in the order of their first visits. -/
  names : List String := []
  /-- The inheritance between them and their bases. -/
  map : InheritanceMap := .empty

namespace Traversal

/-- A state of the traversal with at least as many classes. -/
abbrev Later (traversal : Traversal) :=
  { later : Traversal // traversal.names.length ≤ later.names.length }

/-- The traversal with one more class, given with its bases. -/
def record (traversal : Traversal) (name : String) (bases : List (String × Address)) :
    Traversal where
  names := traversal.names ++ [name]
  map := bases.foldl (fun map base => map.addEdge name base.1) traversal.map

mutual

/-- Visits a class: unless it was visited before, it is recorded with its
bases, and then its bases are visited. -/
def visit (width : PointerWidth) (limits : Limits) (traversal : Traversal) (name : String)
    (typeInfo : Address) : Inspection traversal.Later :=
  if name ∈ traversal.names then return ⟨traversal, Nat.le_refl _⟩
  else if _hfull : limits.nodes ≤ traversal.names.length then
    .fail (.corruptHierarchy "node_count" (traversal.names.length + 1))
  else do
    let bases ← namedBases width limits typeInfo
    let later ← visitAll width limits (traversal.record name bases) bases
    return ⟨later.1, by have := later.2; simp [record] at this; omega⟩
termination_by (limits.nodes - traversal.names.length, 0)
decreasing_by
  simp only [Prod.lex_def, record, List.length_append, List.length_singleton]
  omega

/-- Visits classes one after another. -/
def visitAll (width : PointerWidth) (limits : Limits) (traversal : Traversal) :
    List (String × Address) → Inspection traversal.Later
  | [] => return ⟨traversal, Nat.le_refl _⟩
  | (name, typeInfo) :: rest => do
    let later ← visit width limits traversal name typeInfo
    let last ← visitAll width limits later.1 rest
    return ⟨last.1, Nat.le_trans later.2 last.2⟩
termination_by classes => (limits.nodes - traversal.names.length, classes.length + 1)
decreasing_by
  · exact Prod.Lex.right _ (Nat.succ_pos _)
  · have := later.2
    simp only [Prod.lex_def, List.length_cons]
    omega

end

/-- What a traversal has found after visits to all classes of a list. -/
def explore (width : PointerWidth) (limits : Limits) (traversal : Traversal)
    (classes : List (String × Address)) : Inspection Traversal := do
  return (← visitAll width limits traversal classes).1

end Traversal

/-- The hierarchy of the class with the given `type_info`, found by
recursion. -/
def depthFirst (width : PointerWidth) (limits : Limits) (typeInfo : Address) :
    Inspection ClassHierarchy := do
  let root ← nameOf width limits typeInfo
  if root.isEmpty then
    .fail (.unknownStructure (.unnamedTypeInfo (typeInfo.display width)))
  else
    let found ← Traversal.visit width limits {} root typeInfo
    return ⟨.itanium, root, found.1.names, found.1.map⟩

/-! ## Visits to a list of classes -/

namespace Traversal

variable {width : PointerWidth} {limits : Limits} {traversal : Traversal}
  {name : String} {typeInfo : Address} {classes rest : List (String × Address)}

@[simp] theorem explore_nil : explore width limits traversal [] = .done traversal := by
  rw [explore, visitAll]
  rfl

theorem explore_cons_of_mem (hseen : name ∈ traversal.names) :
    explore width limits traversal ((name, typeInfo) :: rest) =
      explore width limits traversal rest := by
  rw [explore, visitAll, visit, if_pos hseen, explore]
  simp only [pure_bind, bind_assoc]

theorem explore_cons_of_full (hnew : name ∉ traversal.names)
    (hfull : limits.nodes ≤ traversal.names.length) :
    explore width limits traversal ((name, typeInfo) :: rest) =
      .fail (.corruptHierarchy "node_count" (traversal.names.length + 1)) := by
  rw [explore, visitAll, visit, if_neg hnew, dif_pos hfull]
  rfl

/-- A new class is followed by its bases and then by the rest of the list. -/
theorem explore_cons_of_new (hnew : name ∉ traversal.names)
    (hroom : traversal.names.length < limits.nodes) :
    explore width limits traversal ((name, typeInfo) :: rest) =
      (do
        let bases ← namedBases width limits typeInfo
        let found ← explore width limits (traversal.record name bases) bases
        explore width limits found rest) := by
  rw [explore, visitAll, visit, if_neg hnew, dif_neg (Nat.not_le.2 hroom)]
  simp only [explore, bind_assoc, pure_bind]

theorem explore_append :
    explore width limits traversal (classes ++ rest) =
      (do
        let found ← explore width limits traversal classes
        explore width limits found rest) := by
  induction classes generalizing traversal with
  | nil => simp
  | cons head classes ih =>
    simp only [explore, Inspection.bind_eq, Inspection.bind_assoc, Inspection.pure_eq,
      Inspection.done_bind] at ih
    rw [List.cons_append, explore, explore, visitAll, visitAll]
    simp [Inspection.bind_assoc, ih, explore]

theorem explore_dropWhile :
    explore width limits traversal (classes.dropWhile fun c => c.1 ∈ traversal.names) =
      explore width limits traversal classes := by
  induction classes with
  | nil => rfl
  | cons head classes ih =>
    by_cases hseen : head.1 ∈ traversal.names
    · rw [List.dropWhile_cons_of_pos (by simpa using hseen), ih, explore_cons_of_mem hseen]
    · rw [List.dropWhile_cons_of_neg (by simpa using hseen)]

end Traversal

end Rtti.Itanium
