import Mathlib.Data.Finset.Card
import Mathlib.Data.Set.Card
import Mathlib.Data.List.Nodup
import Mathlib.Logic.Relation

/-!
# First visits of a depth-first search

`FirstVisits next seen todo order` is a declarative trace of a depth-first
search: with the nodes of `seen` visited, the search visits the nodes of `todo`
one after another, each followed by its successors, and then has visited those
of `order`, in the order of their first visits.

`FirstVisits.mem_iff_reaches` says that a search from one node visits what can
be reached from it, `FirstVisits.nodup` that nothing is visited twice,
`FirstVisits.append_iff` that lists are searched one after another,
`FirstVisits.eraseDups` that repeats make no difference, and
`exists_firstVisits` that the search ends if finitely many nodes can be reached.
-/

namespace Rtti.Graph

variable {ι : Type}

/-- The steps of a search; see the head of this file. -/
inductive FirstVisits (next : ι → List ι) : List ι → List ι → List ι → Prop where
  /-- Nothing is left to be visited. -/
  | done (seen : List ι) : FirstVisits next seen [] seen
  /-- A visited node is passed over. -/
  | skip {seen todo order : List ι} {node : ι} (hseen : node ∈ seen)
      (hrest : FirstVisits next seen todo order) :
      FirstVisits next seen (node :: todo) order
  /-- A new node is visited, then its successors, then the rest. -/
  | visit {seen todo below order : List ι} {node : ι} (hnew : node ∉ seen)
      (hbelow : FirstVisits next (seen ++ [node]) (next node) below)
      (hrest : FirstVisits next below todo order) :
      FirstVisits next seen (node :: todo) order

/-- A node can be reached from another along successors. -/
def Reaches (next : ι → List ι) : ι → ι → Prop :=
  Relation.ReflTransGen fun node other => other ∈ next node

namespace FirstVisits

variable {next : ι → List ι} {seen todo order : List ι} {root node : ι}

/-- A search only appends to the nodes that it has visited. -/
theorem seen_prefix (h : FirstVisits next seen todo order) : seen <+: order := by
  induction h with
  | done => exact List.prefix_rfl
  | skip _ _ ih => exact ih
  | visit _ _ _ ihbelow ihrest =>
    exact ((List.prefix_append _ _).trans ihbelow).trans ihrest

/-- A search from one node visits it first. -/
theorem head?_eq (h : FirstVisits next [] [root] order) : order.head? = some root := by
  cases h with
  | skip hseen => exact absurd hseen List.not_mem_nil
  | visit _ hbelow hrest =>
    cases hrest
    obtain ⟨others, rfl⟩ := hbelow.seen_prefix
    rfl

theorem nodup (h : FirstVisits next seen todo order) (hseen : seen.Nodup) : order.Nodup := by
  induction h with
  | done => exact hseen
  | skip _ _ ih => exact ih hseen
  | visit hnew _ _ ihbelow ihrest =>
    refine ihrest (ihbelow ?_)
    rw [List.nodup_append_comm, List.singleton_append, List.nodup_cons]
    exact ⟨hnew, hseen⟩

/-- A search comes to one end only. -/
theorem unique {other : List ι} (h : FirstVisits next seen todo order)
    (hother : FirstVisits next seen todo other) : order = other := by
  induction h generalizing other with
  | done => cases hother; rfl
  | skip hseen _ ih =>
    cases hother with
    | skip _ hrest => exact ih hrest
    | visit hnew => exact absurd hseen hnew
  | visit hnew _ _ ihbelow ihrest =>
    cases hother with
    | skip hseen => exact absurd hseen hnew
    | visit _ hbelow hrest =>
      obtain rfl := ihbelow hbelow
      exact ihrest hrest

/-- All that is to be visited is visited. -/
theorem todo_subset (h : FirstVisits next seen todo order) : todo ⊆ order := by
  induction h with
  | done => exact List.nil_subset _
  | skip hseen hrest ih => exact List.cons_subset.2 ⟨hrest.seen_prefix.subset hseen, ih⟩
  | visit _ hbelow hrest _ ihrest =>
    refine List.cons_subset.2 ⟨hrest.seen_prefix.subset (hbelow.seen_prefix.subset ?_), ihrest⟩
    simp

/-- The successors of a node that the search visits are visited as well. -/
theorem next_subset (h : FirstVisits next seen todo order) (hnode : node ∈ order)
    (hnew : node ∉ seen) : next node ⊆ order := by
  induction h with
  | done => exact absurd hnode hnew
  | skip _ _ ih => exact ih hnode hnew
  | @visit seen todo below order head _ hbelow hrest ihbelow ihrest =>
    by_cases hin : node ∈ below
    · by_cases hhead : node = head
      · subst hhead
        exact List.Subset.trans hbelow.todo_subset hrest.seen_prefix.subset
      · exact List.Subset.trans (ihbelow hin (by simp [hnew, hhead])) hrest.seen_prefix.subset
    · exact ihrest hnode hin

/-- What a search visits was visited before or can be reached from what was to
be visited. -/
theorem mem_or_reaches (h : FirstVisits next seen todo order) (hnode : node ∈ order) :
    node ∈ seen ∨ ∃ start ∈ todo, Reaches next start node := by
  induction h with
  | done => exact .inl hnode
  | skip _ _ ih =>
    refine (ih hnode).imp_right ?_
    rintro ⟨start, hstart, hreaches⟩
    exact ⟨start, List.mem_cons_of_mem _ hstart, hreaches⟩
  | @visit seen todo below order head _ _ _ ihbelow ihrest =>
    rcases ihrest hnode with hbelow | ⟨start, hstart, hreaches⟩
    · rcases ihbelow hbelow with hseen | ⟨start, hstart, hreaches⟩
      · rcases List.mem_append.1 hseen with hseen | hself
        · exact .inl hseen
        · obtain rfl := List.mem_singleton.1 hself
          exact .inr ⟨node, List.mem_cons_self, .refl⟩
      · exact .inr ⟨head, List.mem_cons_self, hreaches.head hstart⟩
    · exact .inr ⟨start, List.mem_cons_of_mem _ hstart, hreaches⟩

/-- A search from one node visits the nodes that can be reached from it. -/
theorem mem_iff_reaches (h : FirstVisits next [] [root] order) :
    node ∈ order ↔ Reaches next root node := by
  constructor
  · intro hnode
    rcases h.mem_or_reaches hnode with hseen | ⟨start, hstart, hreaches⟩
    · exact absurd hseen List.not_mem_nil
    · exact List.mem_singleton.1 hstart ▸ hreaches
  · intro hreaches
    induction hreaches with
    | refl => exact h.todo_subset List.mem_cons_self
    | tail _ hedge ih => exact h.next_subset ih List.not_mem_nil hedge

/-- The nodes of two lists are visited one list after the other. -/
theorem append_iff {rest : List ι} : FirstVisits next seen (todo ++ rest) order ↔
    ∃ between, FirstVisits next seen todo between ∧ FirstVisits next between rest order := by
  induction todo generalizing seen with
  | nil =>
    constructor
    · intro h
      exact ⟨seen, .done seen, h⟩
    · rintro ⟨between, hdone, hrest⟩
      cases hdone
      exact hrest
  | cons node todo ih =>
    constructor
    · intro h
      cases h with
      | skip hseen hrest =>
        obtain ⟨between, htodo, hrest⟩ := ih.1 hrest
        exact ⟨between, .skip hseen htodo, hrest⟩
      | visit hnew hbelow hrest =>
        obtain ⟨between, htodo, hrest⟩ := ih.1 hrest
        exact ⟨between, .visit hnew hbelow htodo, hrest⟩
    · rintro ⟨between, htodo, hrest⟩
      cases htodo with
      | skip hseen htodo => exact .skip hseen (ih.2 ⟨between, htodo, hrest⟩)
      | visit hnew hbelow htodo => exact .visit hnew hbelow (ih.2 ⟨between, htodo, hrest⟩)

/-- Nodes that were visited before may be left out of what is to be visited. -/
theorem filter {keep : ι → Bool} (h : FirstVisits next seen todo order)
    (hskipped : ∀ node ∈ todo, keep node = false → node ∈ seen) :
    FirstVisits next seen (todo.filter keep) order := by
  induction h with
  | done seen => exact .done seen
  | @skip seen todo order node hseen _ ih =>
    have hrest := ih fun other hother => hskipped other (List.mem_cons_of_mem _ hother)
    cases hkeep : keep node with
    | true =>
      rw [List.filter_cons_of_pos hkeep]
      exact .skip hseen hrest
    | false => rwa [List.filter_cons_of_neg (by simp [hkeep])]
  | @visit seen todo below order node hnew hbelow _ _ ihrest =>
    cases hkeep : keep node with
    | true =>
      rw [List.filter_cons_of_pos hkeep]
      refine .visit hnew hbelow (ihrest fun other hother hother' => ?_)
      have hseen := hskipped other (List.mem_cons_of_mem _ hother) hother'
      exact hbelow.seen_prefix.subset (List.mem_append_left _ hseen)
    | false => exact absurd (hskipped node List.mem_cons_self hkeep) hnew

/-- Repeats among the nodes to be visited make no difference. -/
theorem eraseDups [DecidableEq ι] (h : FirstVisits next seen todo order) :
    FirstVisits next seen todo.eraseDups order := by
  induction hlength : todo.length using Nat.strong_induction_on generalizing seen todo with
  | _ length ih =>
    cases todo with
    | nil => exact h
    | cons node todo =>
      have hshorter : (todo.filter fun other => !other == node).length < length := by
        have := List.length_filter_le (fun other => !other == node) todo
        rw [List.length_cons] at hlength
        omega
      -- once the head is visited, its repeats are passed over
      have hothers : ∀ {seen : List ι}, node ∈ seen → FirstVisits next seen todo order →
          FirstVisits next seen (todo.filter fun other => !other == node).eraseDups order := by
        intro seen hseen hrest
        refine ih _ hshorter (hrest.filter fun other _ hother => ?_) rfl
        have hself : other = node := by simpa using hother
        exact hself ▸ hseen
      rw [List.eraseDups_cons]
      cases h with
      | skip hseen hrest => exact .skip hseen (hothers hseen hrest)
      | visit hnew hbelow hrest =>
        exact .visit hnew hbelow (hothers (hbelow.seen_prefix.subset (by simp)) hrest)

/-- Visited nodes at the head may be put back. -/
theorem of_dropWhile {visited : ι → Bool} (hvisited : ∀ node, visited node = true → node ∈ seen)
    (h : FirstVisits next seen (todo.dropWhile visited) order) :
    FirstVisits next seen todo order := by
  induction todo with
  | nil => exact h
  | cons node todo ih =>
    cases hnode : visited node with
    | true =>
      rw [List.dropWhile_cons_of_pos hnode] at h
      exact .skip (hvisited node hnode) (ih h)
    | false => rwa [List.dropWhile_cons_of_neg (by simp [hnode])] at h

end FirstVisits

/-- A search ends if it cannot leave a finite set.  The induction is on the
number of nodes of the set that are not yet visited. -/
theorem exists_firstVisits_of_closed {next : ι → List ι} {bound : Finset ι} {seen todo : List ι}
    (hclosed : ∀ node ∈ bound, ∀ other ∈ next node, other ∈ bound) (hnodup : seen.Nodup)
    (hseen : ∀ node ∈ seen, node ∈ bound) (htodo : ∀ node ∈ todo, node ∈ bound) :
    ∃ order, FirstVisits next seen todo order ∧ ∀ node ∈ order, node ∈ bound := by
  classical
  induction hfresh : bound.card - seen.length using Nat.strong_induction_on
    generalizing seen todo with
  | _ fresh ih =>
    induction todo with
    | nil => exact ⟨seen, .done seen, hseen⟩
    | cons node todo ihtodo =>
      obtain ⟨hnode, htodo⟩ := List.forall_mem_cons.1 htodo
      by_cases hvisited : node ∈ seen
      · obtain ⟨order, horder, hbound⟩ := ihtodo htodo
        exact ⟨order, .skip hvisited horder, hbound⟩
      · have hnodup' : (seen ++ [node]).Nodup := by
          rw [List.nodup_append_comm, List.singleton_append, List.nodup_cons]
          exact ⟨hvisited, hnodup⟩
        have hseen' : ∀ other ∈ seen ++ [node], other ∈ bound := by
          simpa [or_imp, forall_and] using ⟨hseen, hnode⟩
        have hroom : (seen ++ [node]).length ≤ bound.card := by
          rw [← List.toFinset_card_of_nodup hnodup']
          exact Finset.card_le_card fun other hother =>
            hseen' other (by simpa [or_comm] using hother)
        rw [List.length_append, List.length_singleton] at hroom
        obtain ⟨below, hbelow, hbelowBound⟩ := ih (bound.card - (seen ++ [node]).length)
          (by simp only [List.length_append, List.length_singleton]; omega)
          hnodup' hseen' (hclosed node hnode) rfl
        have hlonger := hbelow.seen_prefix.length_le
        rw [List.length_append, List.length_singleton] at hlonger
        obtain ⟨order, horder, hbound⟩ := ih (bound.card - below.length) (by omega)
          (hbelow.nodup hnodup') hbelowBound htodo rfl
        exact ⟨order, .visit hvisited hbelow horder, hbound⟩

/-- A search ends if few nodes can be reached, and visits no more. -/
theorem exists_firstVisits {next : ι → List ι} {root : ι} {count : Nat}
    (hfew : {node | Reaches next root node}.encard ≤ count) :
    ∃ order, FirstVisits next [] [root] order ∧ order.length ≤ count := by
  classical
  have hfinite : {node | Reaches next root node}.Finite :=
    Set.finite_of_encard_le_coe hfew
  have hclosed : ∀ node ∈ hfinite.toFinset, ∀ other ∈ next node, other ∈ hfinite.toFinset := by
    intro node hnode other hother
    rw [Set.Finite.mem_toFinset] at hnode ⊢
    exact hnode.tail hother
  have hroot : ∀ node ∈ [root], node ∈ hfinite.toFinset := by
    simp [Reaches, Relation.ReflTransGen.refl]
  obtain ⟨order, horder, -⟩ :=
    exists_firstVisits_of_closed hclosed List.nodup_nil (by simp) hroot
  refine ⟨order, horder, ?_⟩
  have hset : {node | Reaches next root node} = (order.toFinset : Set ι) := by
    ext node
    simp [← horder.mem_iff_reaches]
  rw [hset, Set.encard_coe_eq_coe_finsetCard,
    List.toFinset_card_of_nodup (horder.nodup List.nodup_nil)] at hfew
  exact_mod_cast hfew

end Rtti.Graph
