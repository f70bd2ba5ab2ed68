import Rtti.Itanium.Walk
import Rtti.Proofs.SortedMap.Filling

/-!
# Expansions of a walk

A walk over a class graph takes one class after another and expands it: it
reads the bases of the class together with their names (`namedBases`).
`finish_of_done`, `finish_full`, `finish_unlocated` and `finish_succ` say what
the walk does next, and no later proof opens `Walk.finish`.

`Walk.expansions` lists what the walk expands on a target, in order, whether
or not the walk comes to an end there.
-/

namespace Rtti.Itanium

/-- The bases of the class that a `type_info` describes, each by name and with
its own `type_info`. -/
def namedBases (width : PointerWidth) (limits : Limits) (typeInfo : Address) :
    Inspection (List (String × Address)) := do
  let node ← expand width limits typeInfo
  let names ← node.bases.mapM fun base => nameOf width limits base.typeInfo
  return names.zip (node.bases.map (·.typeInfo))

/-- A class that a walk expanded. -/
structure Expansion where
  name : String
  /-- Where its `type_info` was taken to lie. -/
  typeInfo : Address
  /-- The bases found there. -/
  bases : List (String × Address)
  deriving Repr, DecidableEq

/-- The edges from the class to its bases. -/
def Expansion.edges (expansion : Expansion) : List (String × String) :=
  expansion.bases.map fun base => (expansion.name, base.1)

/-- Bases of one name have one `type_info`. -/
def Expansion.Unambiguous (expansion : Expansion) : Prop :=
  ∀ base ∈ expansion.bases, ∀ other ∈ expansion.bases,
    base.1 = other.1 → base.2 = other.2

instance (expansion : Expansion) : Decidable expansion.Unambiguous :=
  inferInstanceAs (Decidable (∀ base ∈ expansion.bases, ∀ other ∈ expansion.bases,
    base.1 = other.1 → base.2 = other.2))

namespace Walk

variable {target : Target} {width : PointerWidth} {limits : Limits} {budget : Nat} {walk : Walk}
  {name : String} {stack : List String} {typeInfo : Address} {bases : List (String × Address)}

/-! ## The next class -/

theorem finish_of_done (hnext : walk.stack.dropWhile (· ∈ walk.visited) = []) :
    walk.finish width limits budget = .done walk := by
  rw [finish]
  simp only [hnext]
  rfl

theorem finish_full (hnext : walk.stack.dropWhile (· ∈ walk.visited) = name :: stack) :
    walk.finish width limits 0 =
      .fail (.corruptHierarchy "node_count" (walk.expanded.length + 1)) := by
  rw [finish]
  simp only [hnext]

theorem finish_unlocated (hnext : walk.stack.dropWhile (· ∈ walk.visited) = name :: stack)
    (hunlocated : walk.located.get? name = none) :
    walk.finish width limits (budget + 1) = .fail (.unknownStructure (.unlocated name)) := by
  rw [finish]
  simp only [hnext, hunlocated]

theorem finish_succ (hnext : walk.stack.dropWhile (· ∈ walk.visited) = name :: stack)
    (hlocated : walk.located.get? name = some typeInfo) :
    walk.finish width limits (budget + 1) =
      (do
        let bases ← namedBases width limits typeInfo
        (walk.extend name typeInfo bases stack).finish width limits budget) := by
  rw [finish]
  simp only [hnext, hlocated, namedBases, Inspection.bind_eq, Inspection.bind_assoc,
    Inspection.pure_eq, Inspection.done_bind]

/-! ## The table of places -/

theorem eq_of_located_start {root other : String} {place : Address}
    (hplace : (start root typeInfo).located.get? other = some place) :
    other = root ∧ place = typeInfo := by
  rcases SortedMap.mem_or_get?_of_get?_foldl_insert hplace with hself | hbefore
  · exact Prod.mk.inj (List.mem_singleton.1 hself)
  · contradiction

/-- A place in the table is that of a base or was there before. -/
theorem mem_or_located_of_extend {other : String} {place : Address}
    (hplace : (walk.extend name typeInfo bases stack).located.get? other = some place) :
    (other, place) ∈ bases ∨ walk.located.get? other = some place :=
  SortedMap.mem_or_get?_of_get?_foldl_insert hplace

/-! ## All classes -/

/-- What the walk expands on a target when `budget` more classes may be
expanded. -/
def expansions (target : Target) (width : PointerWidth) (limits : Limits) :
    (budget : Nat) → Walk → List Expansion
  | 0, _ => []
  | budget + 1, walk =>
    match walk.stack.dropWhile (· ∈ walk.visited) with
    | [] => []
    | name :: stack =>
      match walk.located.get? name with
      | none => []
      | some typeInfo =>
        match (namedBases width limits typeInfo).run target with
        | .error _ => []
        | .ok bases =>
          ⟨name, typeInfo, bases⟩ ::
            expansions target width limits budget (walk.extend name typeInfo bases stack)

theorem expansions_of_done (hnext : walk.stack.dropWhile (· ∈ walk.visited) = []) :
    walk.expansions target width limits budget = [] := by
  cases budget with
  | zero => rfl
  | succ budget =>
    rw [expansions]
    simp only [hnext]

theorem expansions_succ (hnext : walk.stack.dropWhile (· ∈ walk.visited) = name :: stack)
    (hlocated : walk.located.get? name = some typeInfo)
    (hbases : (namedBases width limits typeInfo).run target = .ok bases) :
    walk.expansions target width limits (budget + 1) =
      ⟨name, typeInfo, bases⟩ ::
        (walk.extend name typeInfo bases stack).expansions target width limits budget := by
  rw [expansions]
  simp only [hnext, hlocated, hbases]

/-- What a walk expands is its next class or expanded later on. -/
theorem eq_or_mem_of_mem_expansions {expansion : Expansion}
    (hmem : expansion ∈ walk.expansions target width limits (budget + 1)) :
    ∃ name stack typeInfo bases, walk.located.get? name = some typeInfo ∧
      (namedBases width limits typeInfo).run target = .ok bases ∧
      (expansion = ⟨name, typeInfo, bases⟩ ∨
        expansion ∈ (walk.extend name typeInfo bases stack).expansions target width limits
          budget) := by
  rw [expansions] at hmem
  split at hmem
  · simp at hmem
  · next name stack _ =>
    split at hmem
    · simp at hmem
    · next typeInfo hlocated =>
      split at hmem
      · simp at hmem
      · next bases hbases =>
        exact ⟨name, stack, typeInfo, bases, hlocated, hbases, List.mem_cons.1 hmem⟩

end Walk

/-- What the walk from a `type_info` expands on a target; nothing if the class
there has no name. -/
def expansions (target : Target) (width : PointerWidth) (limits : Limits) (typeInfo : Address) :
    List Expansion :=
  match (nameOf width limits typeInfo).run target with
  | .error _ => []
  | .ok root =>
    if root.isEmpty then []
    else (Walk.start root typeInfo).expansions target width limits limits.nodes

end Rtti.Itanium
