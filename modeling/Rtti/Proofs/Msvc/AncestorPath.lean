import Mathlib.Data.List.Perm.Basic
import Rtti.Msvc.Hierarchy
import Rtti.Proofs.Graph.FirstVisits
import Rtti.Proofs.Hierarchy.Edges
import Rtti.Proofs.Memory.Run

/-!
# The open entries of a base class array

Whatever the numbers of contained bases are, the open entries of an array are
the ancestors of its latest entry: an entry is put on top of its parent, and
one that is taken off never comes back.  So every entry is found below the
first one (`reaches_of_mem_entries`), and an array whose names are distinct
lists them in the order of a depth-first search (`firstVisits_entries`).

The induction of both is on the entries.  For the order its invariant is that
the search has still to visit, for each open entry from the latest to the
first, the children that later entries will be given.
-/

namespace Rtti.Msvc

open Rtti.Graph InheritanceMap

variable {root label : String} {contained : Nat} {opened : List (Open String)}
  {entries : List (String × Nat)} {next : String → List String} {seen : List String}

/-! ## One entry -/

/-- The names of the open entries, the latest first, and of the first entry. -/
def path (root : String) (opened : List (Open String)) : List String :=
  opened.map (·.label) ++ [root]

/-- The edges from the parents of the entries to the entries. -/
def edgesFrom (root : String) (opened : List (Open String)) (entries : List (String × Nat)) :
    List (String × String) :=
  (parents root opened entries).zip (entries.map Prod.fst)

/-- An entry becomes a child of a name on the path, and its own path is that
of its parent with the entry on top. -/
theorem edgesFrom_cons (root label : String) (contained : Nat) (opened : List (Open String))
    (entries : List (String × Nat)) :
    ∃ gone parent above opened', path root opened = gone ++ parent :: above ∧
      path root opened' = label :: parent :: above ∧
      edgesFrom root opened ((label, contained) :: entries) =
        (parent, label) :: edgesFrom root opened' entries := by
  have hpath : path root opened =
      (opened.takeWhile fun entry => entry.remaining = 0).map (·.label) ++
        path root (opened.dropWhile fun entry => entry.remaining = 0) := by
    rw [path, path, ← List.append_assoc, ← List.map_append, List.takeWhile_append_dropWhile]
  rw [edgesFrom, parents, List.map_cons, List.zip_cons_cons]
  cases hkept : opened.dropWhile fun entry => decide (entry.remaining = 0) with
  | nil =>
    rw [hkept] at hpath
    exact ⟨_, root, [], [⟨label, contained⟩], hpath, rfl, rfl⟩
  | cons latest kept =>
    rw [hkept] at hpath
    refine ⟨_, latest.label, path root kept, ⟨label, contained⟩ :: (latest :: kept).map
      fun entry => { entry with remaining := entry.remaining - 1 }, hpath, ?_, rfl⟩
    simp [path]

/-- A parent is on the path or is an entry. -/
theorem mem_of_mem_edgesFrom {edge : String × String}
    (hedge : edge ∈ edgesFrom root opened entries) :
    edge.1 ∈ path root opened ∨ edge.1 ∈ entries.map Prod.fst := by
  induction entries generalizing opened with
  | nil => simp [edgesFrom] at hedge
  | cons entry entries ih =>
    obtain ⟨label, contained⟩ := entry
    obtain ⟨gone, parent, above, opened', hpath, hpath', hedges⟩ :=
      edgesFrom_cons root label contained opened entries
    rw [hedges, List.mem_cons] at hedge
    rw [hpath]
    rcases hedge with rfl | hedge
    · simp
    · have hlater := ih hedge
      rw [hpath'] at hlater
      simp only [List.map_cons, List.mem_append, List.mem_cons] at hlater ⊢
      tauto

/-! ## Every entry is found -/

/-- The entries can be reached wherever the path can. -/
theorem reaches_of_mem_entries {origin name : String}
    (hedges : ∀ edge ∈ edgesFrom root opened entries, edge.2 ∈ next edge.1)
    (hpath : ∀ name ∈ path root opened, Reaches next origin name)
    (hname : name ∈ entries.map Prod.fst) : Reaches next origin name := by
  induction entries generalizing opened with
  | nil => simp at hname
  | cons entry entries ih =>
    obtain ⟨label, contained⟩ := entry
    obtain ⟨gone, parent, above, opened', hpathEq, hpathEq', hedgesEq⟩ :=
      edgesFrom_cons root label contained opened entries
    rw [hedgesEq, List.forall_mem_cons] at hedges
    rw [hpathEq, List.forall_mem_append, List.forall_mem_cons] at hpath
    obtain ⟨-, hparent, habove⟩ := hpath
    have hlabel : Reaches next origin label := hparent.tail hedges.1
    rcases List.mem_cons.1 hname with rfl | hname
    · exact hlabel
    · refine ih hedges.2 ?_ hname
      rw [hpathEq', List.forall_mem_cons, List.forall_mem_cons]
      exact ⟨hlabel, hparent, habove⟩

/-! ## The order of the entries -/

/-- The children that edges add under a name. -/
def added (edges : List (String × String)) (name : String) : List String :=
  (edges.filter (·.1 = name)).map (·.2)

theorem added_cons_self (parent label : String) (edges : List (String × String)) :
    added ((parent, label) :: edges) parent = label :: added edges parent := by
  simp [added]

theorem added_cons_of_ne {parent label name : String} {edges : List (String × String)}
    (hname : name ≠ parent) : added ((parent, label) :: edges) name = added edges name := by
  simp [added, hname.symm]

theorem added_eq_nil {name : String} {edges : List (String × String)}
    (hname : ∀ edge ∈ edges, edge.1 ≠ name) : added edges name = [] := by
  simpa [added] using hname

/-- What is still to be visited from a path whose lower names have got all
their children: one more entry comes before all that is left. -/
theorem flatMap_added_cons {gone above : List String} {parent label : String}
    {edges : List (String × String)} (hdistinct : (gone ++ parent :: above).Nodup)
    (hgone : ∀ name ∈ gone, ∀ edge ∈ edges, edge.1 ≠ name) :
    (gone ++ parent :: above).flatMap (added ((parent, label) :: edges)) =
      label :: (parent :: above).flatMap (added edges) := by
  rw [List.nodup_append, List.nodup_cons] at hdistinct
  obtain ⟨-, ⟨hparent, -⟩, hapart⟩ := hdistinct
  have hnone : gone.flatMap (added ((parent, label) :: edges)) = [] := by
    rw [List.flatMap_eq_nil_iff]
    intro name hname
    rw [added_cons_of_ne (hapart name hname parent List.mem_cons_self)]
    exact added_eq_nil (hgone name hname)
  have habove : above.flatMap (added ((parent, label) :: edges)) = above.flatMap (added edges) := by
    refine List.flatMap_congr fun name hname => added_cons_of_ne ?_
    rintro rfl
    exact hparent hname
  rw [List.flatMap_append, hnone, List.nil_append, List.flatMap_cons, List.flatMap_cons,
    added_cons_self, habove, List.cons_append]

/-- If the names of the path and of the entries are distinct, the entries come
in the order in which a search of the path visits them. -/
theorem firstVisits_entries
    (hdistinct : (path root opened ++ entries.map Prod.fst).Nodup)
    (hseen : ∀ name ∈ entries.map Prod.fst, name ∉ seen)
    (hnext : ∀ name ∈ entries.map Prod.fst,
      next name = (added (edgesFrom root opened entries) name).eraseDups) :
    FirstVisits next seen ((path root opened).flatMap (added (edgesFrom root opened entries)))
      (seen ++ entries.map Prod.fst) := by
  induction entries generalizing opened seen with
  | nil =>
    have hnone : (path root opened).flatMap (added (edgesFrom root opened [])) = [] := by
      simp [added, edgesFrom, parents]
    rw [hnone, List.map_nil, List.append_nil]
    exact .done seen
  | cons entry entries ih =>
    obtain ⟨label, contained⟩ := entry
    obtain ⟨gone, parent, above, opened', hpath, hpath', hedges⟩ :=
      edgesFrom_cons root label contained opened entries
    rw [List.map_cons, List.forall_mem_cons] at hseen hnext
    obtain ⟨hlabelSeen, hseen⟩ := hseen
    rw [hpath, List.map_cons] at hdistinct
    have hpathDistinct := (List.nodup_append.1 hdistinct).1
    have hdistinct' : (path root opened' ++ entries.map Prod.fst).Nodup := by
      rw [hpath']
      grind
    -- the names taken off the path are complete: no later entry becomes a child of theirs
    have hgone : ∀ name ∈ gone, ∀ edge ∈ edgesFrom root opened' entries, edge.1 ≠ name := by
      rintro name hname edge hedge rfl
      have hparent := mem_of_mem_edgesFrom hedge
      rw [hpath'] at hparent
      grind
    have hlater : ∀ name ∈ label :: entries.map Prod.fst,
        added (edgesFrom root opened ((label, contained) :: entries)) name =
          added (edgesFrom root opened' entries) name := by
      intro name hname
      rw [hedges]
      refine added_cons_of_ne ?_
      grind
    have hsearch : FirstVisits next (seen ++ [label])
        ((path root opened').flatMap (added (edgesFrom root opened' entries)))
        (seen ++ [label] ++ entries.map Prod.fst) := by
      refine ih hdistinct' ?_ ?_
      · grind
      · intro name hname
        rw [hnext.2 name hname, hlater name (List.mem_cons_of_mem _ hname)]
    rw [hpath', List.flatMap_cons, FirstVisits.append_iff] at hsearch
    obtain ⟨below, hbelow, habove⟩ := hsearch
    rw [hpath, hedges, flatMap_added_cons hpathDistinct hgone, List.map_cons, List.append_cons]
    refine .visit hlabelSeen ?_ habove
    rw [hnext.1, hlater label List.mem_cons_self]
    exact hbelow.eraseDups

/-! ## The hierarchy of an array -/

variable {descriptors : List Descriptor} {h : ClassHierarchy} {name : String}

/-- A hierarchy lists the names of its entries, and its map holds their edges. -/
theorem exists_entries_of_hierarchy (hdecoded : hierarchy descriptors = .ok h) :
    ∃ entries : List (String × Nat), h.names = h.root :: entries.map Prod.fst ∧
      ∀ name, h.map.children name = (added (edgesFrom h.root [] entries) name).eraseDups := by
  cases descriptors with
  | nil => contradiction
  | cons root rest =>
    obtain rfl := Except.ok.inj hdecoded
    refine ⟨rest.map fun d => (d.name, d.containedBases), ?_, fun name => ?_⟩
    · simp
    · rw [children_ofEdges, added, edgesFrom, List.map_map]
      rfl

theorem mem_children_iff {entries : List (String × Nat)} {parent : String}
    (hchildren : ∀ name, h.map.children name =
      (added (edgesFrom h.root [] entries) name).eraseDups) :
    name ∈ h.map.children parent ↔ (parent, name) ∈ edgesFrom h.root [] entries := by
  simp [hchildren, added]

/-- The classes of a hierarchy are those that can be reached from its root. -/
theorem mem_names_iff_reaches (hdecoded : hierarchy descriptors = .ok h) :
    name ∈ h.names ↔ Reaches h.map.children h.root name := by
  obtain ⟨entries, hnames, hchildren⟩ := exists_entries_of_hierarchy hdecoded
  rw [hnames, List.mem_cons]
  constructor
  · rintro (rfl | hentry)
    · exact .refl
    · have hedges : ∀ edge ∈ edgesFrom h.root [] entries, edge.2 ∈ h.map.children edge.1 :=
        fun _ hedge => (mem_children_iff hchildren).2 hedge
      refine reaches_of_mem_entries hedges (fun name hname => ?_) hentry
      obtain rfl : name = h.root := List.mem_singleton.1 hname
      exact .refl
  · intro hreaches
    cases hreaches with
    | refl => exact .inl rfl
    | tail _ hedge =>
      have hzip := (mem_children_iff hchildren).1 hedge
      exact .inr (List.of_mem_zip hzip).2

/-- Distinct names come in the order of a search of the hierarchy. -/
theorem firstVisits_of_hierarchy (hdecoded : hierarchy descriptors = .ok h)
    (hdistinct : h.names.Nodup) : FirstVisits h.map.children [] [h.root] h.names := by
  obtain ⟨entries, hnames, hchildren⟩ := exists_entries_of_hierarchy hdecoded
  rw [hnames] at hdistinct ⊢
  have hsearch : FirstVisits h.map.children [h.root]
      (added (edgesFrom h.root [] entries) h.root) (h.root :: entries.map Prod.fst) := by
    have hroot : ∀ name ∈ entries.map Prod.fst, name ∉ [h.root] := by
      intro name hname hself
      rw [List.mem_singleton.1 hself] at hname
      exact (List.nodup_cons.1 hdistinct).1 hname
    have hentries : FirstVisits h.map.children [h.root]
        ((path h.root []).flatMap (added (edgesFrom h.root [] entries)))
        (h.root :: entries.map Prod.fst) :=
      firstVisits_entries hdistinct hroot fun name _ => hchildren name
    simpa [path] using hentries
  refine .visit List.not_mem_nil ?_ (.done _)
  rw [hchildren]
  exact hsearch.eraseDups

end Rtti.Msvc
