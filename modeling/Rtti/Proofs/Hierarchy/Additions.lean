import Mathlib.Data.Finset.Card
import Mathlib.Data.List.FinRange
import Mathlib.Data.List.Sort
import Rtti.Proofs.Hierarchy.Edges

/-!
# Orders of addition

What an inheritance map keeps of the order in which its edges are added.  Of the
edges of one class it keeps the order of the first additions
(`InheritanceMap.FirstAdditions`), of edges of different classes no order at all:
a list in which only these change places (`InheritanceMap.Reorders`) gives the same
map.  `InheritanceMap.records_ofEdges` says both, and that the classes with an
entry are those with a child.
-/

namespace Rtti.InheritanceMap

variable {edges reordered : List (String × String)} {edge : String × String}
  {parent child : String} {children others : List String} {m : InheritanceMap}

/-! ## First additions -/

/-- The list has the children that were added under a class, each once, in the
order of their first addition. -/
structure FirstAdditions (edges : List (String × String)) (parent : String)
    (children : List String) : Prop where
  mem_iff : ∀ child, child ∈ children ↔ (parent, child) ∈ edges
  inOrder : children.Pairwise fun earlier later =>
    edges.idxOf (parent, earlier) < edges.idxOf (parent, later)

/-- There is one such list. -/
theorem FirstAdditions.unique (hchildren : FirstAdditions edges parent children)
    (hothers : FirstAdditions edges parent others) : children = others := by
  let place (child : String) : Nat := edges.idxOf (parent, child)
  have hirrefl : Std.Irrefl fun earlier later => place earlier < place later :=
    ⟨fun child => Nat.lt_irrefl (place child)⟩
  have hantisymm : Std.Antisymm fun earlier later => place earlier < place later :=
    ⟨fun earlier later hlt hgt => absurd hgt (Nat.lt_asymm hlt)⟩
  refine hchildren.inOrder.eq_of_mem_iff hothers.inOrder fun child => ?_
  rw [hchildren.mem_iff, hothers.mem_iff]

/-- A further edge leaves the places of the children alone. -/
theorem FirstAdditions.inOrder_concat (hchildren : FirstAdditions edges parent children)
    (edge : String × String) :
    children.Pairwise fun earlier later =>
      (edges ++ [edge]).idxOf (parent, earlier) < (edges ++ [edge]).idxOf (parent, later) := by
  refine hchildren.inOrder.imp_of_mem fun {earlier later} hearlier hlater hlt => ?_
  rwa [List.idxOf_append_of_mem ((hchildren.mem_iff earlier).1 hearlier),
    List.idxOf_append_of_mem ((hchildren.mem_iff later).1 hlater)]

/-- An edge of another class, or to a known child, adds nothing. -/
theorem FirstAdditions.concat_of_known (hchildren : FirstAdditions edges parent children)
    (hknown : edge.1 = parent → edge.2 ∈ children) :
    FirstAdditions (edges ++ [edge]) parent children where
  mem_iff child := by
    rw [List.mem_append, List.mem_singleton, ← hchildren.mem_iff, iff_self_or]
    rintro rfl
    exact hknown rfl
  inOrder := hchildren.inOrder_concat edge

/-- A new child comes after the others. -/
theorem FirstAdditions.concat_of_new (hchildren : FirstAdditions edges parent children)
    (hnew : child ∉ children) :
    FirstAdditions (edges ++ [(parent, child)]) parent (children ++ [child]) where
  mem_iff other := by
    simp [hchildren.mem_iff]
  inOrder := by
    have hfresh : (parent, child) ∉ edges := mt (hchildren.mem_iff child).2 hnew
    refine List.pairwise_append.2
      ⟨hchildren.inOrder_concat _, List.pairwise_singleton _ _, fun known hknown last hlast => ?_⟩
    obtain rfl := List.mem_singleton.1 hlast
    have hadded : (parent, known) ∈ edges := (hchildren.mem_iff known).1 hknown
    rw [List.idxOf_append_of_mem hadded, List.idxOf_append_of_notMem hfresh]
    exact Nat.lt_add_right _ (List.idxOf_lt_length_of_mem hadded)

/-- One addition keeps the children of every class in order. -/
theorem firstAdditions_addEdge
    (hchildren : ∀ parent, FirstAdditions edges parent (m.children parent)) (parent : String) :
    FirstAdditions (edges ++ [edge]) parent ((m.addEdge edge.1 edge.2).children parent) := by
  rw [children_addEdge]
  split_ifs with hparent hknown
  · subst hparent
    exact (hchildren edge.1).concat_of_known fun _ => hknown
  · subst hparent
    exact (hchildren edge.1).concat_of_new hknown
  · exact (hchildren parent).concat_of_known fun h => absurd h.symm hparent

theorem firstAdditions_ofEdges (edges : List (String × String)) (parent : String) :
    FirstAdditions edges parent ((ofEdges edges).children parent) := by
  induction edges using List.reverseRecOn generalizing parent with
  | nil => exact ⟨by simp [ofEdges], .nil⟩
  | append_singleton edges edge ih =>
    rw [ofEdges_concat]
    exact firstAdditions_addEdge ih parent

/-! ## Classes with an entry -/

theorem hasChildren_of_mem_keys (hparent : parent ∈ (ofEdges edges).edges.keys) :
    (ofEdges edges).hasChildren parent = true := by
  obtain ⟨child, hadded⟩ := mem_keys_ofEdges.1 hparent
  have hchild : child ∈ (ofEdges edges).children parent := mem_children_ofEdges.2 hadded
  simpa [hasChildren] using List.ne_nil_of_mem hchild

theorem size_ofEdges (edges : List (String × String)) :
    (ofEdges edges).size = (edges.map Prod.fst).toFinset.card := by
  have hkeys : (ofEdges edges).edges.keys.toFinset = (edges.map Prod.fst).toFinset := by
    ext parent
    simp [mem_keys_ofEdges]
  rw [← hkeys, List.toFinset_card_of_nodup (SortedMap.nodup_keys _), SortedMap.keys,
    List.length_map]
  rfl

/-! ## Equal maps -/

/-- A class has an entry exactly if it has children. -/
theorem get?_edges_ofEdges (edges : List (String × String)) (parent : String) :
    (ofEdges edges).edges.get? parent =
      if (ofEdges edges).hasChildren parent then some ((ofEdges edges).children parent)
      else none := by
  cases hentry : (ofEdges edges).edges.get? parent with
  | none => simp [hasChildren, children, hentry]
  | some bases =>
    have hparent := SortedMap.mem_keys_iff.2 ⟨bases, hentry⟩
    rw [if_pos (hasChildren_of_mem_keys hparent), children, hentry, Option.getD_some]

/-- Maps of edges are equal if they have the same children of every class. -/
theorem ofEdges_eq_of_children_eq
    (hchildren : ∀ parent, (ofEdges edges).children parent = (ofEdges reordered).children parent) :
    ofEdges edges = ofEdges reordered := by
  have hentries : (ofEdges edges).edges = (ofEdges reordered).edges := by
    refine SortedMap.ext_get? fun parent => ?_
    rw [get?_edges_ofEdges, get?_edges_ofEdges, hasChildren, hasChildren, hchildren]
  exact congrArg InheritanceMap.mk hentries

/-! ## Reorderings -/

/-- The second list has the edges of the first in another order, in which those of
one class follow each other as before.  The `place` of an edge is where it stands in
the first list. -/
def Reorders (edges reordered : List (String × String)) : Prop :=
  ∃ place : Fin reordered.length ≃ Fin edges.length,
    (∀ i, reordered[i] = edges[place i]) ∧
    ∀ i j, i < j → reordered[i].1 = reordered[j].1 → place i < place j

/-- The places of the edges of one class. -/
def placesOf (edges : List (String × String)) (parent : String) : List (Fin edges.length) :=
  (List.finRange edges.length).filter fun i => edges[i].1 = parent

theorem mem_placesOf {i : Fin edges.length} :
    i ∈ placesOf edges parent ↔ edges[i].1 = parent := by
  simp [placesOf]

theorem pairwise_placesOf (edges : List (String × String)) (parent : String) :
    (placesOf edges parent).Pairwise (· < ·) :=
  (List.pairwise_lt_finRange edges.length).filter _

theorem map_placesOf (edges : List (String × String)) (parent : String) :
    (placesOf edges parent).map edges.get = edges.filter (·.1 = parent) := by
  conv_rhs => rw [← List.map_get_finRange edges]
  rw [List.filter_map]
  rfl

/-- The edges of one class are those that they were. -/
theorem filter_eq_of_reorders (hreorders : Reorders edges reordered) (parent : String) :
    reordered.filter (·.1 = parent) = edges.filter (·.1 = parent) := by
  obtain ⟨place, hplace, hkept⟩ := hreorders
  -- the places of the class in the new order, as they were before, are ascending too
  have hascending : ((placesOf reordered parent).map place).Pairwise (· < ·) := by
    refine List.pairwise_map.2 ((pairwise_placesOf reordered parent).imp_of_mem ?_)
    intro i j hi hj hlt
    exact hkept i j hlt ((mem_placesOf.1 hi).trans (mem_placesOf.1 hj).symm)
  have hplaces : (placesOf reordered parent).map place = placesOf edges parent := by
    refine hascending.eq_of_mem_iff (pairwise_placesOf edges parent) fun k => ?_
    rw [mem_placesOf, List.mem_map]
    constructor
    · rintro ⟨i, hi, rfl⟩
      rw [← hplace i]
      exact mem_placesOf.1 hi
    · intro hk
      obtain ⟨i, rfl⟩ := place.surjective k
      rw [← hplace i] at hk
      exact ⟨i, mem_placesOf.2 hk, rfl⟩
  calc reordered.filter (·.1 = parent)
      = (placesOf reordered parent).map reordered.get := (map_placesOf reordered parent).symm
    _ = (placesOf reordered parent).map (edges.get ∘ place) :=
        List.map_congr_left fun i _ => hplace i
    _ = ((placesOf reordered parent).map place).map edges.get := List.map_map.symm
    _ = edges.filter (·.1 = parent) := by rw [hplaces, map_placesOf]

theorem ofEdges_eq_of_reorders (hreorders : Reorders edges reordered) :
    ofEdges reordered = ofEdges edges := by
  refine ofEdges_eq_of_children_eq fun parent => ?_
  rw [children_ofEdges, children_ofEdges, filter_eq_of_reorders hreorders]

/-- The children of a class are those added under it, in the order of their first
addition.  Each class with an entry has a child, and there are as many of them as
classes under which an edge was added.  The order of edges of different classes
makes no difference. -/
theorem records_ofEdges (edges : List (String × String)) :
    (∀ parent children, (ofEdges edges).children parent = children ↔
      FirstAdditions edges parent children) ∧
    (∀ parent ∈ (ofEdges edges).edges.keys, (ofEdges edges).hasChildren parent = true) ∧
    (ofEdges edges).size = (edges.map Prod.fst).toFinset.card ∧
    ∀ reordered, Reorders edges reordered → ofEdges reordered = ofEdges edges := by
  refine ⟨fun parent children => ⟨?_, fun hchildren => ?_⟩, fun parent hparent => ?_,
    size_ofEdges edges, fun reordered hreorders => ofEdges_eq_of_reorders hreorders⟩
  · rintro rfl
    exact firstAdditions_ofEdges edges parent
  · exact (firstAdditions_ofEdges edges parent).unique hchildren
  · exact hasChildren_of_mem_keys hparent

/-- Edges of two classes change places, and one is added twice. -/
theorem records_ofEdges_interleaved :
    let edges := [("D", "B1"), ("E", "C"), ("D", "B2"), ("D", "B1")]
    let reordered := [("E", "C"), ("D", "B1"), ("D", "B2"), ("D", "B1")]
    Reorders edges reordered ∧ ofEdges reordered = ofEdges edges ∧
      (ofEdges edges).children "D" = ["B1", "B2"] ∧ (ofEdges edges).size = 2 ∧
      "E" ∈ (ofEdges edges).edges.keys ∧ (ofEdges edges).hasChildren "E" = true := by
  intro edges reordered
  obtain ⟨hchildren, hentries, hsize, horder⟩ := records_ofEdges edges
  have hreorders : Reorders edges reordered := ⟨Equiv.swap 0 1, by decide, by decide⟩
  have hadditions : FirstAdditions edges "D" ["B1", "B2"] := ⟨by grind, by decide⟩
  have hentry : "E" ∈ (ofEdges edges).edges.keys := by decide
  exact ⟨hreorders, horder reordered hreorders, (hchildren "D" _).2 hadditions,
    hsize.trans (by decide), hentry, hentries "E" hentry⟩

end Rtti.InheritanceMap
