import Mathlib.Data.List.Basic
import Rtti.SortedMap

/-!
# Look-ups and entries

What the look-ups of a map tell of its entries.  A key has the value of its
only entry (`get?_eq_some_iff`), so the keys are those with a value
(`mem_keys_iff`), and `floor?` finds the last entry whose key is not above the
given one (`floor?_eq_some_iff`).
-/

namespace Rtti

theorem Key.asymm {κ : Type} [Key κ] {a b : κ} (h : precedes a b = true) :
    precedes b a = false := by
  cases hback : precedes b a with
  | false => rfl
  | true =>
    have hself := Key.trans h hback
    rw [Key.irrefl] at hself
    contradiction

namespace SortedMap

variable {κ ν : Type} [Key κ]

/-! ## The entry of a key -/

theorem get?_eq_some_iff [DecidableEq κ] {m : SortedMap κ ν} {k : κ} {v : ν} :
    m.get? k = some v ↔ (k, v) ∈ m.entries := by
  rw [get?, Option.map_eq_some_iff]
  constructor
  · rintro ⟨⟨j, w⟩, hfound, rfl⟩
    have hkey : j = k := by simpa using List.find?_some hfound
    exact hkey ▸ List.mem_of_find?_eq_some hfound
  · intro hmem
    obtain ⟨before, after, hsplit⟩ := List.append_of_mem hmem
    have hascending := m.ascending
    rw [hsplit, List.pairwise_append] at hascending
    -- an entry before that of `k` has another key
    have hothers : ∀ entry ∈ before, ¬decide (entry.1 = k) = true := by
      intro entry hentry hkey
      have hbefore := hascending.2.2 entry hentry (k, v) List.mem_cons_self
      rw [of_decide_eq_true hkey, Key.irrefl] at hbefore
      contradiction
    refine ⟨(k, v), ?_, rfl⟩
    rw [hsplit, List.find?_append, List.find?_eq_none.2 hothers, Option.none_or,
      List.find?_cons_of_pos (by simp)]

theorem mem_keys_iff [DecidableEq κ] {m : SortedMap κ ν} {k : κ} :
    k ∈ m.keys ↔ ∃ v, m.get? k = some v := by
  simp [keys, get?_eq_some_iff]

theorem mem_entries_insert [DecidableEq κ] {m : SortedMap κ ν} {k : κ} {v : ν} {entry : κ × ν} :
    entry ∈ (m.insert k v).entries ↔
      entry = (k, v) ∨ entry ∈ m.entries ∧ entry.1 ≠ k := by
  obtain ⟨j, w⟩ := entry
  rw [← get?_eq_some_iff, ← get?_eq_some_iff, get?_insert]
  by_cases hkey : j = k
  · simp [hkey, eq_comm]
  · simp [hkey]

theorem mem_keys_insert [DecidableEq κ] {m : SortedMap κ ν} {j k : κ} {v : ν} :
    j ∈ (m.insert k v).keys ↔ j = k ∨ j ∈ m.keys := by
  simp only [mem_keys_iff, get?_insert]
  by_cases hkey : j = k
  · simp [hkey]
  · simp [hkey]

theorem nodup_keys (m : SortedMap κ ν) : m.keys.Nodup := by
  refine List.pairwise_map.2 (m.ascending.imp fun {p q} hbefore heq => ?_)
  rw [heq, Key.irrefl] at hbefore
  contradiction

/-! ## The entry at or next below a key -/

/-- The entries up to a key are those that the key does not precede. -/
theorem takeWhile_eq_filter {l : List (κ × ν)}
    (h : l.Pairwise (fun p q => Key.precedes p.1 q.1)) (k : κ) :
    l.takeWhile (fun p => !Key.precedes k p.1) = l.filter (fun p => !Key.precedes k p.1) := by
  induction l with
  | nil => rfl
  | cons p rest ih =>
    obtain ⟨hp, hrest⟩ := List.pairwise_cons.1 h
    cases hk : Key.precedes k p.1 with
    | false =>
      rw [List.takeWhile_cons_of_pos (by simp [hk]), List.filter_cons_of_pos (by simp [hk]),
        ih hrest]
    | true =>
      have hlater : ∀ q ∈ rest, Key.precedes k q.1 := fun q hq => Key.trans hk (hp q hq)
      rw [List.takeWhile_cons_of_neg (by simp [hk]), List.filter_cons_of_neg (by simp [hk]),
        eq_comm, List.filter_eq_nil_iff]
      simpa using hlater

/-- The entry that is found is not above the key, and no entry lies between. -/
theorem floor?_eq_some_iff {m : SortedMap κ ν} {k : κ} {p : κ × ν} :
    m.floor? k = some p ↔ p ∈ m.entries ∧ Key.precedes k p.1 = false ∧
      ∀ q ∈ m.entries, Key.precedes p.1 q.1 → Key.precedes k q.1 := by
  have hkept := m.ascending.sublist (List.filter_sublist (p := fun q => !Key.precedes k q.1))
  rw [floor?, takeWhile_eq_filter m.ascending, List.getLast?_eq_some_iff]
  constructor
  · rintro ⟨before, hsplit⟩
    have hp : p ∈ m.entries.filter fun q => !Key.precedes k q.1 := by simp [hsplit]
    obtain ⟨hmem, hbelow⟩ := List.mem_filter.1 hp
    refine ⟨hmem, by simpa using hbelow, fun q hq hpq => ?_⟩
    by_contra hnot
    have hq : q ∈ m.entries.filter fun q => !Key.precedes k q.1 :=
      List.mem_filter.2 ⟨hq, by simpa using hnot⟩
    rw [hsplit] at hkept hq
    rcases List.mem_append.1 hq with hearlier | hlast
    · have hqp := (List.pairwise_append.1 hkept).2.2 q hearlier p (List.mem_singleton_self p)
      rw [Key.asymm hqp] at hpq
      contradiction
    · rw [List.mem_singleton.1 hlast, Key.irrefl] at hpq
      contradiction
  · rintro ⟨hmem, hbelow, hgreatest⟩
    have hp : p ∈ m.entries.filter fun q => !Key.precedes k q.1 :=
      List.mem_filter.2 ⟨hmem, by simp [hbelow]⟩
    obtain ⟨before, after, hsplit⟩ := List.append_of_mem hp
    cases after with
    | nil => exact ⟨before, hsplit⟩
    | cons q after =>
      -- an entry kept after `p` would lie between `p` and the key
      have hq : q ∈ m.entries.filter fun q => !Key.precedes k q.1 := by simp [hsplit]
      obtain ⟨hqmem, hqbelow⟩ := List.mem_filter.1 hq
      rw [hsplit, List.pairwise_append] at hkept
      have hpq := (List.pairwise_cons.1 hkept.2.1).1 q List.mem_cons_self
      rw [hgreatest q hqmem hpq] at hqbelow
      contradiction

end SortedMap

end Rtti
