import Mathlib.Data.List.Induction
import Rtti.SortedMap

/-!
# Maps filled from a list

What a map says of a key after the entries of a list were inserted into it one
after another.  The entries of a map fill it again (`ofList_entries`).
-/

namespace Rtti.SortedMap

variable {κ ν : Type} [Key κ] [DecidableEq κ]

/-- Entries of other keys leave a key alone. -/
theorem get?_foldl_insert_of_forall_ne {entries : List (κ × ν)} {m : SortedMap κ ν} {k : κ}
    (hother : ∀ entry ∈ entries, entry.1 ≠ k) :
    (entries.foldl (fun m entry => m.insert entry.1 entry.2) m).get? k = m.get? k := by
  induction entries generalizing m with
  | nil => rfl
  | cons head entries ih =>
    obtain ⟨hhead, htail⟩ := List.forall_mem_cons.1 hother
    rw [List.foldl_cons, ih htail, get?_insert, if_neg hhead.symm]

/-- Entries that agree on a key give it their value. -/
theorem get?_foldl_insert_of_mem {entries : List (κ × ν)} {m : SortedMap κ ν} {k : κ} {v : ν}
    (hmem : (k, v) ∈ entries) (hagree : ∀ entry ∈ entries, entry.1 = k → entry.2 = v) :
    (entries.foldl (fun m entry => m.insert entry.1 entry.2) m).get? k = some v := by
  induction entries generalizing m with
  | nil => simp at hmem
  | cons head entries ih =>
    obtain ⟨hhead, htail⟩ := List.forall_mem_cons.1 hagree
    rw [List.foldl_cons]
    by_cases hlater : (k, v) ∈ entries
    · exact ih hlater htail
    · have hself : head = (k, v) := by
        rcases List.mem_cons.1 hmem with h | h
        · exact h.symm
        · exact absurd h hlater
      have hother : ∀ entry ∈ entries, entry.1 ≠ k := by
        intro entry hentry hkey
        have hvalue := htail entry hentry hkey
        exact hlater (hkey ▸ hvalue ▸ hentry)
      rw [get?_foldl_insert_of_forall_ne hother, hself, get?_insert, if_pos rfl]

/-- A value comes from an entry or was there before. -/
theorem mem_or_get?_of_get?_foldl_insert {entries : List (κ × ν)} {m : SortedMap κ ν} {k : κ}
    {v : ν} (hget : (entries.foldl (fun m entry => m.insert entry.1 entry.2) m).get? k = some v) :
    (k, v) ∈ entries ∨ m.get? k = some v := by
  induction entries generalizing m with
  | nil => exact .inr hget
  | cons head entries ih =>
    rcases ih hget with hmem | hbefore
    · exact .inl (List.mem_cons_of_mem _ hmem)
    · rw [get?_insert] at hbefore
      split at hbefore
      · next hkey =>
        obtain rfl := Option.some.inj hbefore
        exact .inl (hkey ▸ List.mem_cons_self)
      · exact .inr hbefore

/-! ## Lists in order -/

/-- An entry whose key comes after all others is put at the end. -/
theorem insertEntry_of_forall_precedes {entries : List (κ × ν)} {k : κ} (v : ν)
    (hbefore : ∀ entry ∈ entries, Key.precedes entry.1 k) :
    insertEntry k v entries = entries ++ [(k, v)] := by
  induction entries with
  | nil => rfl
  | cons head entries ih =>
    obtain ⟨hhead, htail⟩ := List.forall_mem_cons.1 hbefore
    have hnot : ¬Key.precedes k head.1 := by
      intro hk
      have hself := Key.trans hk hhead
      rw [Key.irrefl] at hself
      contradiction
    have hne : k ≠ head.1 := by
      rintro rfl
      rw [Key.irrefl] at hhead
      contradiction
    rw [insertEntry, if_neg hnot, if_neg hne, ih htail, List.cons_append]

/-- Entries in ascending order are those of the map that they fill. -/
theorem entries_ofList {entries : List (κ × ν)}
    (hascending : entries.Pairwise (fun p q => Key.precedes p.1 q.1)) :
    (ofList entries).entries = entries := by
  induction entries using List.reverseRecOn with
  | nil => rfl
  | append_singleton entries last ih =>
    obtain ⟨hentries, -, hlast⟩ := List.pairwise_append.1 hascending
    have hbefore : ∀ entry ∈ entries, Key.precedes entry.1 last.1 := fun entry hentry =>
      hlast entry hentry last (List.mem_singleton_self last)
    rw [ofList, List.foldl_append, List.foldl_cons, List.foldl_nil]
    show insertEntry last.1 last.2 (ofList entries).entries = _
    rw [ih hentries, insertEntry_of_forall_precedes last.2 hbefore]

/-- A map is filled from its own entries. -/
theorem ofList_entries (m : SortedMap κ ν) : ofList m.entries = m :=
  ext (entries_ofList m.ascending)

/-- The keys of a map are among those of the list that it is filled from. -/
theorem fst_mem_of_mem_ofList {entries : List (κ × ν)} {entry : κ × ν}
    (hentry : entry ∈ (ofList entries).entries) : entry.1 ∈ entries.map Prod.fst := by
  induction entries using List.reverseRecOn with
  | nil => simp [ofList, empty] at hentry
  | append_singleton entries last ih =>
    rw [ofList, List.foldl_append, List.foldl_cons, List.foldl_nil] at hentry
    rw [List.map_append, List.mem_append]
    rcases fst_mem_of_mem_insertEntry hentry with hkey | hbefore
    · exact .inr (by simp [hkey])
    · exact .inl (ih hbefore)

end Rtti.SortedMap
