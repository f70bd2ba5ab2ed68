import Mathlib.Data.List.Basic
import Rtti.Msvc.Hierarchy
import Rtti.Proofs.Hierarchy.Edges

/-!
# Trees from base class arrays

A base class array lists a tree of classes in pre-order, each class with the
number of its descendants.  `ClassTree.parents_preorder` says that the numbers
determine the tree: the parents that are found for the entries are the parents
in the tree.  The induction is on the tree, and its invariant is about the open
entries, each of which must still expect all of the tree.

`ClassTree.children_ofEdges` is about the inheritance map of the tree.  In it,
classes of one displayed name are one class.
-/

namespace Rtti.Msvc

/-! ## Open entries -/

namespace Open

/-- The entry when `count` more of its bases are known. -/
def less {ν : Type} (entry : Open ν) (count : Nat) : Open ν :=
  { entry with remaining := entry.remaining - count }

theorem less_less {ν : Type} (entry : Open ν) (count more : Nat) :
    (entry.less count).less more = entry.less (count + more) := by
  unfold less
  rw [Nat.sub_sub]

def latest {ν : Type} (root : ν) (opened : List (Open ν)) : ν :=
  (opened.head?.map (·.label)).getD root

theorem latest_map_less {ν : Type} (root : ν) (opened : List (Open ν)) (count : Nat) :
    latest root (opened.map (·.less count)) = latest root opened := by
  cases opened <;> rfl

end Open

/-- An entry that all open entries expect has the latest of them as its
parent. -/
theorem parents_cons {ν : Type} {root label : ν} {contained : Nat} {opened : List (Open ν)}
    {rest : List (ν × Nat)} (hopen : ∀ entry ∈ opened, 0 < entry.remaining) :
    parents root opened ((label, contained) :: rest) =
      Open.latest root opened ::
        parents root (⟨label, contained⟩ :: opened.map (·.less 1)) rest := by
  have hkept : opened.dropWhile (fun entry => decide (entry.remaining = 0)) = opened := by
    cases opened with
    | nil => rfl
    | cons entry opened =>
      have hentry := hopen entry List.mem_cons_self
      rw [List.dropWhile_cons_of_neg]
      simp only [decide_eq_true_eq]
      omega
  rw [parents]
  simp only [hkept]
  rfl

theorem parents_of_complete {ν : Type} {root : ν} {entry : Open ν} {opened : List (Open ν)}
    {rest : List (ν × Nat)} (hdone : entry.remaining = 0) :
    parents root (entry :: opened) rest = parents root opened rest := by
  cases rest with
  | nil => rfl
  | cons head rest =>
    rw [parents, parents, List.dropWhile_cons_of_pos (by simpa using hdone)]

/-! ## Trees -/

/-- A class with its direct bases, each with its own, in declared order. -/
inductive ClassTree where
  | node (raw : String) (bases : List ClassTree)

namespace ClassTree

def raw : ClassTree → String
  | node raw _ => raw

def bases : ClassTree → List ClassTree
  | node _ bases => bases

theorem induction {motive : ClassTree → Prop}
    (node : ∀ raw bases, (∀ base ∈ bases, motive base) → motive (node raw bases)) :
    ∀ tree, motive tree
  | .node raw bases => node raw bases fun base _ => induction node base

/-! ## Pre-order -/

mutual

/-- The classes in pre-order, each with the number of its descendants. -/
def preorder : ClassTree → List (String × Nat)
  | node raw bases => (raw, (preorderAll bases).length) :: preorderAll bases

def preorderAll : List ClassTree → List (String × Nat)
  | [] => []
  | tree :: trees => tree.preorder ++ preorderAll trees

end

mutual

/-- The classes of the tree in pre-order, each as a tree of its own. -/
def subtrees : ClassTree → List ClassTree
  | node raw bases => node raw bases :: subtreesAll bases

def subtreesAll : List ClassTree → List ClassTree
  | [] => []
  | tree :: trees => tree.subtrees ++ subtreesAll trees

end

/-- The edges below a class, from each class to its direct bases, in the
pre-order of the bases. -/
def edges : ClassTree → List (String × String)
  | node raw bases => edgesAll raw bases
where
  edgesAll (parent : String) : List ClassTree → List (String × String)
  | [] => []
  | tree :: trees => (parent, tree.raw) :: tree.edges ++ edgesAll parent trees

variable {root parent : String} {tree : ClassTree} {trees : List ClassTree}
  {opened : List (Open String)} {rest : List (String × Nat)}

theorem map_snd_edgesAll (htrees : ∀ tree ∈ trees,
    tree.raw :: tree.edges.map Prod.snd = tree.preorder.map Prod.fst) :
    (edges.edgesAll parent trees).map Prod.snd = (preorderAll trees).map Prod.fst := by
  induction trees with
  | nil => rfl
  | cons tree trees ih =>
    obtain ⟨htree, htrees⟩ := List.forall_mem_cons.1 htrees
    rw [edges.edgesAll, preorderAll, List.map_append, List.map_append, List.map_cons, htree,
      ih htrees]

theorem map_snd_edges (tree : ClassTree) :
    tree.raw :: tree.edges.map Prod.snd = tree.preorder.map Prod.fst := by
  induction tree using induction with
  | node raw bases ih =>
    rw [edges, preorder, map_snd_edgesAll ih]
    rfl

/-! ## Parents -/

/-- The parents of a tree's entries are found in any list where the open
entries expect them, and nothing of the tree stays open. -/
def Recovered (root : String) (tree : ClassTree) : Prop :=
  ∀ opened rest, (∀ entry ∈ opened, tree.preorder.length ≤ entry.remaining) →
    parents root opened (tree.preorder ++ rest) =
      Open.latest root opened :: tree.edges.map Prod.fst ++
        parents root (opened.map (·.less tree.preorder.length)) rest

theorem parents_preorderAll (htrees : ∀ tree ∈ trees, tree.Recovered root)
    (hopen : ∀ entry ∈ opened, (preorderAll trees).length ≤ entry.remaining) :
    parents root opened (preorderAll trees ++ rest) =
      (edges.edgesAll (Open.latest root opened) trees).map Prod.fst ++
        parents root (opened.map (·.less (preorderAll trees).length)) rest := by
  induction trees generalizing opened with
  | nil =>
    have hsame : opened.map (·.less 0) = opened := List.map_id _
    simp only [preorderAll, edges.edgesAll, List.length_nil, hsame]
    rfl
  | cons tree trees ih =>
    obtain ⟨htree, htrees⟩ := List.forall_mem_cons.1 htrees
    rw [preorderAll, List.length_append] at hopen
    have hfirst : ∀ entry ∈ opened, tree.preorder.length ≤ entry.remaining := by
      intro entry hentry
      have := hopen entry hentry
      omega
    have hlater : ∀ entry ∈ opened.map (·.less tree.preorder.length),
        (preorderAll trees).length ≤ entry.remaining := by
      intro entry hentry
      obtain ⟨before, hbefore, rfl⟩ := List.mem_map.1 hentry
      have := hopen before hbefore
      show _ ≤ before.remaining - tree.preorder.length
      omega
    rw [preorderAll, edges.edgesAll, List.append_assoc, htree opened _ hfirst, ih htrees hlater,
      Open.latest_map_less, List.map_map, List.length_append]
    simp only [Function.comp_def, Open.less_less, List.map_append, List.map_cons,
      List.append_assoc, List.cons_append]

theorem recovered (root : String) (tree : ClassTree) : tree.Recovered root := by
  induction tree using induction with
  | node raw bases ih =>
    intro opened rest hopen
    rw [preorder, List.length_cons] at hopen
    have hexpected : ∀ entry ∈ opened, 0 < entry.remaining := by
      intro entry hentry
      have := hopen entry hentry
      omega
    -- the class itself expects exactly its bases, and is complete after them
    have hinside : ∀ entry ∈ ⟨raw, (preorderAll bases).length⟩ :: opened.map (·.less 1),
        (preorderAll bases).length ≤ entry.remaining := by
      intro entry hentry
      rcases List.mem_cons.1 hentry with rfl | hbefore
      · exact Nat.le_refl _
      · obtain ⟨before, hopened, rfl⟩ := List.mem_map.1 hbefore
        have := hopen before hopened
        show _ ≤ before.remaining - 1
        omega
    rw [preorder, edges, List.cons_append, parents_cons hexpected,
      parents_preorderAll ih hinside, List.map_cons, parents_of_complete (Nat.sub_self _),
      List.map_map, List.length_cons]
    simp only [Function.comp_def, Open.less_less, Nat.add_comm 1]
    rfl

/-- The parents that are found for the classes below the first are those of the
tree. -/
theorem parents_preorder (raw : String) (bases : List ClassTree) :
    parents raw [] (preorderAll bases) = (node raw bases).edges.map Prod.fst := by
  have hbases : ∀ base ∈ bases, base.Recovered raw := fun base _ => recovered raw base
  have hfound := @parents_preorderAll raw bases [] [] hbases (by simp)
  rw [List.append_nil, List.map_nil, parents, List.append_nil] at hfound
  exact hfound

/-! ## Subtrees -/

theorem mem_subtreesAll {sub : ClassTree} :
    sub ∈ subtreesAll trees ↔ ∃ tree ∈ trees, sub ∈ tree.subtrees := by
  induction trees with
  | nil => simp [subtreesAll]
  | cons tree trees ih => simp [subtreesAll, ih]

theorem mem_subtrees {sub : ClassTree} :
    sub ∈ tree.subtrees ↔ sub = tree ∨ sub ∈ subtreesAll tree.bases := by
  cases tree with
  | node raw bases => rw [subtrees, List.mem_cons, ClassTree.bases]

theorem mem_subtreesAll_of_mem_bases {sub base : ClassTree} (hsub : sub ∈ tree.subtrees)
    (hbase : base ∈ sub.bases) : base ∈ subtreesAll tree.bases := by
  induction tree using induction with
  | node raw bases ih =>
    rcases mem_subtrees.1 hsub with rfl | hinside
    · exact mem_subtreesAll.2 ⟨base, hbase, mem_subtrees.2 (.inl rfl)⟩
    · obtain ⟨tree, htree, hsub⟩ := mem_subtreesAll.1 hinside
      exact mem_subtreesAll.2 ⟨tree, htree, mem_subtrees.2 (.inr (ih tree htree hsub))⟩

theorem map_raw_subtreesAll (htrees : ∀ tree ∈ trees,
    tree.subtrees.map raw = tree.preorder.map Prod.fst) :
    (subtreesAll trees).map raw = (preorderAll trees).map Prod.fst := by
  induction trees with
  | nil => rfl
  | cons tree trees ih =>
    obtain ⟨htree, htrees⟩ := List.forall_mem_cons.1 htrees
    rw [subtreesAll, preorderAll, List.map_append, List.map_append, htree, ih htrees]

theorem map_raw_subtrees (tree : ClassTree) :
    tree.subtrees.map raw = tree.preorder.map Prod.fst := by
  induction tree using induction with
  | node raw bases ih =>
    rw [subtrees, preorder, List.map_cons, List.map_cons, map_raw_subtreesAll ih]
    rfl

/-! ## Displayed names -/

variable {shown : String → String} {name : String}

/-- Classes of one displayed name have bases of the same displayed names. -/
def Consistent (shown : String → String) (tree : ClassTree) : Prop :=
  ∀ sub ∈ tree.subtrees, ∀ other ∈ tree.subtrees, shown sub.raw = shown other.raw →
    sub.bases.map (shown ·.raw) = other.bases.map (shown ·.raw)

theorem Consistent.base (hconsistent : tree.Consistent shown) {base : ClassTree}
    (hbase : base ∈ tree.bases) : base.Consistent shown := by
  have hinside : ∀ sub ∈ base.subtrees, sub ∈ tree.subtrees := fun sub hsub =>
    mem_subtrees.2 (.inr (mem_subtreesAll.2 ⟨base, hbase, hsub⟩))
  intro sub hsub other hother
  exact hconsistent sub (hinside sub hsub) other (hinside other hother)

/-- No class is displayed like one of its own bases, direct or not.  The bases
of the two would be displayed alike, so a direct base of the first would have
the same fault. -/
theorem Consistent.shown_ne (hconsistent : tree.Consistent shown) :
    ∀ sub ∈ subtreesAll tree.bases, shown sub.raw ≠ shown tree.raw := by
  induction tree using induction with
  | node raw bases ih =>
    intro sub hsub heq
    obtain ⟨base, hbase, hinside⟩ := mem_subtreesAll.1 hsub
    have hbases := hconsistent sub (mem_subtrees.2 (.inr hsub)) (node raw bases)
      (mem_subtrees.2 (.inl rfl)) heq
    have hshown : shown base.raw ∈ sub.bases.map (shown ·.raw) := by
      rw [hbases]
      exact List.mem_map_of_mem hbase
    obtain ⟨other, hother, hotherShown⟩ := List.mem_map.1 hshown
    exact ih base hbase (hconsistent.base hbase) other
      (mem_subtreesAll_of_mem_bases hinside hother) hotherShown

/-- The displayed names of the direct bases of all classes with the displayed
name, in pre-order. -/
def basesNamed (shown : String → String) (name : String) (tree : ClassTree) : List String :=
  (tree.edges.filter fun edge => shown edge.1 = name).map fun edge => shown edge.2

theorem basesNamed_node (raw : String) (bases : List ClassTree) :
    (node raw bases).basesNamed shown name =
      bases.flatMap fun base =>
        (if shown raw = name then [shown base.raw] else []) ++ base.basesNamed shown name := by
  rw [basesNamed, edges]
  induction bases with
  | nil => rfl
  | cons base bases ih =>
    rw [edges.edgesAll, List.flatMap_cons, List.filter_append, List.map_append, ih]
    by_cases hname : shown raw = name
    · rw [List.filter_cons_of_pos (by simpa using hname), if_pos hname]
      rfl
    · rw [List.filter_cons_of_neg (by simpa using hname), if_neg hname]
      rfl

theorem basesNamed_of_forall_ne (habsent : ∀ sub ∈ tree.subtrees, shown sub.raw ≠ name) :
    tree.basesNamed shown name = [] := by
  induction tree using induction with
  | node raw bases ih =>
    have hraw : shown raw ≠ name := habsent (node raw bases) (mem_subtrees.2 (.inl rfl))
    rw [basesNamed_node, List.flatMap_eq_nil_iff]
    intro base hbase
    have hinside : ∀ sub ∈ base.subtrees, shown sub.raw ≠ name := fun sub hsub =>
      habsent sub (mem_subtrees.2 (.inr (mem_subtreesAll.2 ⟨base, hbase, hsub⟩)))
    rw [if_neg hraw, ih base hbase hinside]
    rfl

/-- Below a class, its displayed name is that of no other class. -/
theorem Consistent.basesNamed_self (hconsistent : tree.Consistent shown) :
    tree.basesNamed shown (shown tree.raw) = tree.bases.map (shown ·.raw) := by
  cases tree with
  | node raw bases =>
    have hbelow : ∀ base ∈ bases, base.basesNamed shown (shown raw) = [] := by
      intro base hbase
      refine basesNamed_of_forall_ne fun sub hsub => ?_
      exact hconsistent.shown_ne sub (mem_subtreesAll.2 ⟨base, hbase, hsub⟩)
    rw [ClassTree.raw, ClassTree.bases, basesNamed_node, List.map_eq_flatMap]
    refine List.flatMap_congr fun base hbase => ?_
    rw [if_pos rfl, hbelow base hbase, List.append_nil]

/-- In an inheritance map that is made of the tree, the children of a class are
its direct bases without repeats. -/
theorem Consistent.eraseDups_basesNamed (hconsistent : tree.Consistent shown) {sub : ClassTree}
    (hsub : sub ∈ tree.subtrees) :
    (tree.basesNamed shown (shown sub.raw)).eraseDups =
      (sub.bases.map (shown ·.raw)).eraseDups := by
  induction tree using induction generalizing sub with
  | node raw bases ih =>
    by_cases hname : shown raw = shown sub.raw
    · have hself : (node raw bases).basesNamed shown (shown raw) = bases.map (shown ·.raw) :=
        hconsistent.basesNamed_self
      have hbases : bases.map (shown ·.raw) = sub.bases.map (shown ·.raw) :=
        hconsistent (node raw bases) (mem_subtrees.2 (.inl rfl)) sub hsub hname
      rw [← hname, hself, hbases]
    · rw [basesNamed_node]
      simp only [if_neg hname, List.nil_append]
      -- a direct base without such a class below it adds nothing, and any other
      -- adds the same names
      have hparts : ∀ base ∈ bases, base.basesNamed shown (shown sub.raw) = [] ∨
          (base.basesNamed shown (shown sub.raw)).eraseDups =
            (sub.bases.map (shown ·.raw)).eraseDups := by
        intro base hbase
        by_cases hpresent : ∃ other ∈ base.subtrees, shown other.raw = shown sub.raw
        · obtain ⟨other, hother, hshown⟩ := hpresent
          have hin : other ∈ (node raw bases).subtrees :=
            mem_subtrees.2 (.inr (mem_subtreesAll.2 ⟨base, hbase, hother⟩))
          right
          rw [← hshown, ih base hbase (hconsistent.base hbase) hother,
            hconsistent other hin sub hsub hshown]
        · left
          exact basesNamed_of_forall_ne fun other hother heq => hpresent ⟨other, hother, heq⟩
      have hinside : sub ∈ subtreesAll bases := by
        rcases mem_subtrees.1 hsub with rfl | hinside
        · exact absurd rfl hname
        · exact hinside
      obtain ⟨base, hbase, hsub⟩ := mem_subtreesAll.1 hinside
      have hbaseNames := ih base hbase (hconsistent.base hbase) hsub
      rcases InheritanceMap.eraseDups_flatMap hparts with hnone | hsame
      · rw [List.flatMap_eq_nil_iff.1 hnone base hbase] at hbaseNames
        rw [hnone, hbaseNames]
      · exact hsame

end ClassTree

end Rtti.Msvc
