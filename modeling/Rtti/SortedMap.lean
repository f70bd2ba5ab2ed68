import Rtti.Key

/-!
# Sorted maps

Finite maps kept as one list of entries in ascending key order, with one
entry for each key.  The order is part of the type, so a map has one
representation and two maps with the same entries are equal
(`SortedMap.ext_get?`).  `get?_insert` says what an insertion does to every
key, and `floor?` finds the entry at or next below a key.
-/

namespace Rtti

/-- A finite map from `κ` to `ν`. -/
structure SortedMap (κ ν : Type) [Key κ] where
  /-- The entries in ascending key order. -/
  entries : List (κ × ν)
  ascending : entries.Pairwise (fun p q => Key.precedes p.1 q.1) := by simp

namespace SortedMap

variable {κ ν : Type} [Key κ]

@[ext] theorem ext {m n : SortedMap κ ν} (h : m.entries = n.entries) : m = n := by
  cases m; cases n; cases h; rfl

instance [DecidableEq κ] [DecidableEq ν] : DecidableEq (SortedMap κ ν) := fun m n =>
  if h : m.entries = n.entries then .isTrue (ext h) else .isFalse fun e => h (e ▸ rfl)

/-- The map without entries. -/
def empty : SortedMap κ ν := ⟨[], .nil⟩

instance : EmptyCollection (SortedMap κ ν) := ⟨empty⟩

instance : Inhabited (SortedMap κ ν) := ⟨empty⟩

/-- The number of entries. -/
def size (m : SortedMap κ ν) : Nat := m.entries.length

/-- The keys in ascending order. -/
def keys (m : SortedMap κ ν) : List κ := m.entries.map Prod.fst

/-- The value of a key. -/
def get? [DecidableEq κ] (m : SortedMap κ ν) (k : κ) : Option ν :=
  (m.entries.find? (fun p => p.1 = k)).map Prod.snd

/-- The entry with the largest key that does not exceed `k`. -/
def floor? (m : SortedMap κ ν) (k : κ) : Option (κ × ν) :=
  (m.entries.takeWhile (fun p => !Key.precedes k p.1)).getLast?

/-! ## Insertion -/

/-- The entries with `k` set to `v`, in the place that the order gives it. -/
def insertEntry [DecidableEq κ] (k : κ) (v : ν) : List (κ × ν) → List (κ × ν)
  | [] => [(k, v)]
  | (j, w) :: rest =>
    if Key.precedes k j then (k, v) :: (j, w) :: rest
    else if k = j then (k, v) :: rest
    else (j, w) :: insertEntry k v rest

variable [DecidableEq κ]

theorem fst_mem_of_mem_insertEntry {k : κ} {v : ν} {p : κ × ν} {l : List (κ × ν)}
    (h : p ∈ insertEntry k v l) : p.1 = k ∨ p ∈ l := by
  induction l with
  | nil => simp_all [insertEntry]
  | cons q rest ih =>
    obtain ⟨j, w⟩ := q
    unfold insertEntry at h
    split at h
    · rcases List.mem_cons.1 h with rfl | h
      · exact .inl rfl
      · exact .inr h
    · split at h
      · rcases List.mem_cons.1 h with rfl | h
        · exact .inl rfl
        · exact .inr (List.mem_cons_of_mem _ h)
      · rcases List.mem_cons.1 h with rfl | h
        · exact .inr List.mem_cons_self
        · exact (ih h).imp id (List.mem_cons_of_mem _)

theorem pairwise_insertEntry (k : κ) (v : ν) {l : List (κ × ν)}
    (h : l.Pairwise (fun p q => Key.precedes p.1 q.1)) :
    (insertEntry k v l).Pairwise (fun p q => Key.precedes p.1 q.1) := by
  induction l with
  | nil => simp [insertEntry]
  | cons q rest ih =>
    obtain ⟨j, w⟩ := q
    obtain ⟨hj, hrest⟩ := List.pairwise_cons.1 h
    unfold insertEntry
    split
    · next hkj =>
      refine List.pairwise_cons.2 ⟨fun p hp => ?_, h⟩
      rcases List.mem_cons.1 hp with rfl | hp
      · exact hkj
      · exact Key.trans hkj (hj p hp)
    · next hkj =>
      split
      · next e =>
        subst e
        exact List.pairwise_cons.2 ⟨hj, hrest⟩
      · next hne =>
        refine List.pairwise_cons.2 ⟨fun p hp => ?_, ih hrest⟩
        rcases fst_mem_of_mem_insertEntry hp with hp | hp
        · rcases Key.trichotomy k j with h' | h' | h'
          · exact absurd h' hkj
          · exact absurd h' hne
          · exact hp ▸ h'
        · exact hj p hp

/-- The map with `k` set to `v`, replacing any earlier value of `k`. -/
def insert (m : SortedMap κ ν) (k : κ) (v : ν) : SortedMap κ ν :=
  ⟨insertEntry k v m.entries, pairwise_insertEntry k v m.ascending⟩

/-- The map of a list of entries; of two with one key the later stands. -/
def ofList (entries : List (κ × ν)) : SortedMap κ ν :=
  entries.foldl (fun m p => m.insert p.1 p.2) empty

/-! ## Look-up after insertion -/

@[simp] theorem get?_empty (k : κ) : (empty : SortedMap κ ν).get? k = none := rfl

theorem find?_insertEntry (k : κ) (v : ν) (l : List (κ × ν)) (i : κ) :
    (insertEntry k v l).find? (fun p => p.1 = i) =
      if i = k then some (k, v) else l.find? (fun p => p.1 = i) := by
  induction l with
  | nil => by_cases h : i = k <;> simp [insertEntry, h, eq_comm]
  | cons q rest ih =>
    obtain ⟨j, w⟩ := q
    unfold insertEntry
    by_cases hik : i = k <;> grind

/-- An insertion sets its own key and leaves every other key alone. -/
theorem get?_insert (m : SortedMap κ ν) (k : κ) (v : ν) (i : κ) :
    (m.insert k v).get? i = if i = k then some v else m.get? i := by
  simp only [get?, insert, find?_insertEntry]
  split <;> rfl

/-! ## Equality -/

theorem entries_eq_of_find?_eq {l l' : List (κ × ν)}
    (hl : l.Pairwise (fun p q => Key.precedes p.1 q.1))
    (hl' : l'.Pairwise (fun p q => Key.precedes p.1 q.1))
    (h : ∀ k, l.find? (fun p => p.1 = k) = l'.find? (fun p => p.1 = k)) : l = l' := by
  have absent : ∀ {k : κ} {r : List (κ × ν)}, (∀ p ∈ r, Key.precedes k p.1) →
      r.find? (fun p => p.1 = k) = none := by
    intro k r hr
    refine List.find?_eq_none.2 fun p hp e => ?_
    have e := of_decide_eq_true e
    have self := hr p hp
    rw [e, Key.irrefl] at self
    exact Bool.false_ne_true self
  induction l generalizing l' with
  | nil =>
    cases l' with
    | nil => rfl
    | cons q rest => simpa using h q.1
  | cons p rest ih =>
    cases l' with
    | nil => simpa using h p.1
    | cons q rest' =>
      obtain ⟨hp, hrest⟩ := List.pairwise_cons.1 hl
      obtain ⟨hq, hrest'⟩ := List.pairwise_cons.1 hl'
      have below : ∀ {a b : κ × ν} {r : List (κ × ν)}, Key.precedes a.1 b.1 →
          (∀ c ∈ r, Key.precedes b.1 c.1) → ∀ c ∈ b :: r, Key.precedes a.1 c.1 := by
        intro a b r hab hr c hc
        rcases List.mem_cons.1 hc with rfl | hc
        · exact hab
        · exact Key.trans hab (hr c hc)
      rcases Key.trichotomy p.1 q.1 with hlt | heq | hlt
      · have := h p.1
        rw [absent (below hlt hq)] at this
        simp at this
      · have hpq := h p.1
        simp only [List.find?_cons, decide_true, heq, Option.some.injEq] at hpq
        subst hpq
        refine congrArg _ (ih hrest hrest' fun k => ?_)
        by_cases hk : p.1 = k
        · subst hk
          rw [absent hp, absent hq]
        · have := h k
          simpa [List.find?_cons, hk] using this
      · have := h q.1
        rw [absent (below hlt hp)] at this
        simp at this

/-- A map is determined by what it says of every key. -/
theorem ext_get? {m n : SortedMap κ ν} (h : ∀ k, m.get? k = n.get? k) : m = n := by
  refine ext (entries_eq_of_find?_eq m.ascending n.ascending fun k => ?_)
  have key : ∀ {l : List (κ × ν)} {p : κ × ν},
      l.find? (fun p => p.1 = k) = some p → p.1 = k := by
    intro l p hp
    have := List.find?_some hp
    exact of_decide_eq_true this
  have hk := h k
  simp only [get?] at hk
  generalize hm : m.entries.find? (fun p => p.1 = k) = found at hk
  generalize hn : n.entries.find? (fun p => p.1 = k) = found' at hk
  match found, found', hk with
  | none, none, _ => rfl
  | some p, some q, hk =>
    exact congrArg some (Prod.ext ((key hm).trans (key hn).symm) (Option.some.inj hk))

end SortedMap

end Rtti
