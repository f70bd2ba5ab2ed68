import Mathlib.Data.List.TakeWhile
import Mathlib.Data.Nat.Find
import Rtti.Proofs.Msvc.Tree

/-!
# The nearest entry that reaches an entry

The number of contained bases of an entry tells up to which later entry its
bases reach.  The numbers may contradict each other: the bases of an entry may
reach beyond those of the entry that it belongs to, or beyond the end of the
array.  An entry still has one parent, the nearest of the earlier entries whose
bases reach it, and the first entry if there is none (`Msvc.IsParent`).
`Msvc.hierarchy_of_entries` says that the hierarchy has exactly these edges.

While the parents are found, complete entries are taken off only from the top,
so some stay below entries that are not complete.  They are passed over all the
same: `parents_cons_eq_find?` says that the parent is the latest entry that is
not complete.
-/

namespace Rtti.Msvc

/-! ## Entries that are not complete -/

namespace Open

variable {ν : Type}

/-- Whether the next entry is among the bases of the entry. -/
def isPending (entry : Open ν) : Bool := entry.remaining ≠ 0

theorem head?_dropWhile_complete (opened : List (Open ν)) :
    (opened.dropWhile fun entry => entry.remaining = 0).head? = opened.find? isPending := by
  rw [← List.find?_not_eq_head?_dropWhile]
  refine congrArg (List.find? · opened) (funext fun entry => ?_)
  simp [isPending]

theorem filter_dropWhile_complete (opened : List (Open ν)) :
    (opened.dropWhile fun entry => entry.remaining = 0).filter isPending =
      opened.filter isPending := by
  induction opened with
  | nil => rfl
  | cons entry opened ih =>
    by_cases hcomplete : entry.remaining = 0
    · rw [List.dropWhile_cons_of_pos (by simpa using hcomplete), ih,
        List.filter_cons_of_neg (by simp [isPending, hcomplete])]
    · rw [List.dropWhile_cons_of_neg (by simpa using hcomplete)]

/-- An entry that is complete stays complete. -/
theorem filter_map_less (opened : List (Open ν)) :
    (opened.map (·.less 1)).filter isPending =
      ((opened.filter isPending).map (·.less 1)).filter isPending := by
  rw [List.filter_map, List.filter_map, List.filter_filter]
  refine congrArg (List.map _) (List.filter_congr fun entry _ => ?_)
  simp only [Function.comp_apply, less, isPending]
  grind

end Open

open Open

section Parents

variable {ν : Type} {root label : ν} {contained : Nat} {opened opened' : List (Open ν)}
  {rest : List (ν × Nat)}

theorem parents_cons_dropWhile :
    parents root opened ((label, contained) :: rest) =
      ((opened.find? isPending).map (·.label)).getD root ::
        parents root (⟨label, contained⟩ ::
          (opened.dropWhile fun entry => entry.remaining = 0).map (·.less 1)) rest := by
  rw [← head?_dropWhile_complete, parents]
  rfl

/-- Complete entries, wherever they stand, have no part in the parents. -/
theorem parents_congr (hpending : opened.filter isPending = opened'.filter isPending) :
    parents root opened rest = parents root opened' rest := by
  induction rest generalizing opened opened' with
  | nil => rfl
  | cons entry rest ih =>
    obtain ⟨label, contained⟩ := entry
    have hfirst : opened.find? isPending = opened'.find? isPending := by
      rw [← List.head?_filter, hpending, List.head?_filter]
    rw [parents_cons_dropWhile, parents_cons_dropWhile, hfirst]
    refine congrArg (List.cons _) (ih ?_)
    rw [List.filter_cons, List.filter_cons, filter_map_less, filter_dropWhile_complete, hpending,
      ← filter_dropWhile_complete opened', ← filter_map_less]

/-- The parent of an entry is the latest open entry that is not complete. -/
theorem parents_cons_eq_find? :
    parents root opened ((label, contained) :: rest) =
      ((opened.find? isPending).map (·.label)).getD root ::
        parents root (⟨label, contained⟩ :: opened.map (·.less 1)) rest := by
  rw [parents_cons_dropWhile]
  refine congrArg (List.cons _) (parents_congr ?_)
  rw [List.filter_cons, List.filter_cons, filter_map_less, filter_dropWhile_complete,
    ← filter_map_less]

end Parents

/-! ## Entries by their number -/

section Numbers

variable {ν : Type} (label : Nat → ν) (contained : Nat → Nat)

/-- The number of the nearest earlier entry that reaches the entry with a
number, and 0 if there is none, when `contained` gives the numbers of contained
bases. -/
def nearest (index : Nat) : Nat :=
  Nat.findGreatest (fun parent => index ≤ parent + contained parent) (index - 1)

/-- The entries with the numbers from 1 to `count` as they are open before the
next entry, the latest first. -/
def openedAt (count : Nat) : List (Open ν) :=
  (List.range' 1 count).reverse.map fun index => ⟨label index, index + contained index - count⟩

theorem openedAt_succ (count : Nat) :
    openedAt label contained (count + 1) =
      ⟨label (count + 1), contained (count + 1)⟩ ::
        (openedAt label contained count).map (·.less 1) := by
  rw [openedAt, openedAt, List.range'_1_concat, List.reverse_concat, List.map_cons, List.map_map]
  simp only [Nat.add_comm 1 count, Nat.add_sub_cancel_left]
  rfl

/-- The latest entry that is not complete is the nearest one that reaches the
next entry. -/
theorem find?_openedAt (count : Nat) :
    (((openedAt label contained count).find? isPending).map (·.label)).getD (label 0) =
      label (nearest contained (count + 1)) := by
  -- the search goes through the numbers from `last` down to 1
  have hsearch (last : Nat) : ((((List.range' 1 last).reverse.map fun index =>
        (⟨label index, index + contained index - count⟩ : Open ν)).find? isPending).map
          (·.label)).getD (label 0) =
      label (Nat.findGreatest (fun parent => count + 1 ≤ parent + contained parent) last) := by
    induction last with
    | zero => rfl
    | succ last ih =>
      rw [List.range'_1_concat, List.reverse_concat, List.map_cons, Nat.add_comm 1 last]
      by_cases hreaches : count + 1 ≤ last + 1 + contained (last + 1)
      · have hpending : isPending
            (⟨label (last + 1), last + 1 + contained (last + 1) - count⟩ : Open ν) = true := by
          simp only [isPending, decide_eq_true_eq]
          omega
        rw [List.find?_cons_of_pos hpending, Nat.findGreatest_succ, if_pos hreaches]
        rfl
      · have hcomplete : ¬ isPending
            (⟨label (last + 1), last + 1 + contained (last + 1) - count⟩ : Open ν) = true := by
          simp only [isPending, decide_eq_true_eq]
          omega
        rw [List.find?_cons_of_neg hcomplete, Nat.findGreatest_succ, if_neg hreaches, ih]
  exact hsearch count

/-- The induction is on the entries that are left; before each of them the open
entries are all that came before it. -/
theorem parents_openedAt (count more : Nat) :
    parents (label 0) (openedAt label contained count)
        ((List.range' (count + 1) more).map fun index => (label index, contained index)) =
      (List.range' (count + 1) more).map fun index => label (nearest contained index) := by
  induction more generalizing count with
  | zero => rfl
  | succ more ih =>
    rw [List.range'_succ, List.map_cons, List.map_cons, parents_cons_eq_find?, find?_openedAt,
      ← openedAt_succ, ih]

end Numbers

/-! ## Entries of an array -/

/-- The name of the entry with a number. -/
def nameAt (entries : List Descriptor) (index : Nat) : String :=
  (entries[index]?.map (·.name)).getD ""

/-- The number of contained bases of the entry with a number. -/
def containedAt (entries : List Descriptor) (index : Nat) : Nat :=
  (entries[index]?.map (·.containedBases)).getD 0

/-- The bases of the entry `other` reach the entry `index`. -/
def ReachesTo (entries : List Descriptor) (other index : Nat) : Prop :=
  index ≤ other + containedAt entries other

/-- The entry `parent` is the nearest of the entries before `index` that reach
it, or it is the first entry and there is none. -/
structure IsParent (entries : List Descriptor) (parent index : Nat) : Prop where
  lt : parent < index
  reaches : ReachesTo entries parent index ∨ parent = 0
  nearest : ∀ other, parent < other → other < index → ¬ReachesTo entries other index

variable {entries : List Descriptor} {parent index : Nat}

/-- The entry with a number has one parent. -/
theorem isParent_succ_iff :
    IsParent entries parent (index + 1) ↔ parent = nearest (containedAt entries) (index + 1) := by
  rw [eq_comm, nearest, Nat.findGreatest_eq_iff, Nat.add_sub_cancel]
  constructor
  · rintro ⟨hlt, hreaches, hnearest⟩
    refine ⟨by omega, hreaches.resolve_right, fun other hbefore hother => ?_⟩
    exact hnearest other hbefore (by omega)
  · rintro ⟨hle, hreaches, hnearest⟩
    refine ⟨by omega, ?_, fun other hbefore hother => hnearest hbefore (by omega)⟩
    exact (Decidable.em (parent = 0)).symm.imp_left hreaches

/-- The entries after the first by their numbers. -/
theorem map_range'_at (root : Descriptor) (rest : List Descriptor) :
    ((List.range' 1 rest.length).map fun index =>
        (nameAt (root :: rest) index, containedAt (root :: rest) index)) =
      rest.map fun d => (d.name, d.containedBases) := by
  apply List.ext_getElem
  · simp
  · intro index _ hindex
    rw [List.length_map] at hindex
    simp [nameAt, containedAt, Nat.add_comm 1 index, List.getElem?_eq_getElem hindex]

/-- The hierarchy of an array has all names in order, and an edge to each entry
after the first from its parent, in the order of the entries. -/
theorem hierarchy_of_entries :
    hierarchy [] = .error (.unknownStructure .noNamedClass) ∧
    ∀ root rest, ∃ parent : Nat → Nat,
      hierarchy (root :: rest) =
        .ok ⟨.msvc, root.name, (root :: rest).map (·.name),
          .ofEdges ((List.range' 1 rest.length).map fun index =>
            (nameAt (root :: rest) (parent index), nameAt (root :: rest) index))⟩ ∧
      ∀ index other, IsParent (root :: rest) other (index + 1) ↔ other = parent (index + 1) := by
  refine ⟨rfl, fun root rest => ⟨nearest (containedAt (root :: rest)), ?_, fun _ _ =>
    isParent_succ_iff⟩⟩
  let name := nameAt (root :: rest)
  let contained := containedAt (root :: rest)
  have hentries := map_range'_at root rest
  have hnames : rest.map (·.name) = (List.range' 1 rest.length).map name := by
    have hfirst := congrArg (List.map Prod.fst) hentries
    rw [List.map_map, List.map_map] at hfirst
    exact hfirst.symm
  have hparents : parents root.name [] (rest.map fun d => (d.name, d.containedBases)) =
      (List.range' 1 rest.length).map fun index => name (nearest contained index) := by
    rw [← hentries]
    exact parents_openedAt name contained 0 rest.length
  have hedges : (parents root.name [] (rest.map fun d => (d.name, d.containedBases))).zip
      (rest.map (·.name)) =
      (List.range' 1 rest.length).map fun index =>
        (name (nearest contained index), name index) := by
    rw [hparents, hnames, List.zip_map']
  rw [hierarchy, hedges]
  rfl

/-- The second entry is complete when the fourth is reached, and stays below the
third, which takes the fourth; the fifth goes to the first. -/
example : hierarchy [⟨"A", 0⟩, ⟨"B", 1⟩, ⟨"C", 1⟩, ⟨"D", 0⟩, ⟨"E", 0⟩] =
    .ok ⟨.msvc, "A", ["A", "B", "C", "D", "E"],
      .ofEdges [("A", "B"), ("B", "C"), ("C", "D"), ("A", "E")]⟩ := by decide +kernel

end Rtti.Msvc
