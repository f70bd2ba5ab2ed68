import Mathlib.Data.Set.Basic
import Mathlib.Order.Bounds.Basic
import Rtti.Bytes.Pattern

/-!
# Occurrences of patterns

Where a pattern stands in a buffer, as a splitting of the buffer
(`Pattern.OccursAt`), and what the searches make of it.  A search from one place
on finds the least place that counts (`Pattern.findFrom_eq_some_iff`), by one
lemma for each way in which it goes on.  `Pattern.findAligned_isLeast` says this
for every pattern, buffer and stride.
-/

namespace Rtti.Pattern

variable {pattern data rest : List UInt8} {stride start index place : Nat} {b : UInt8}

/-- The whole pattern stands in the buffer, behind `index` of its bytes. -/
def OccursAt (pattern data : List UInt8) (index : Nat) : Prop :=
  ∃ before after, before ++ pattern ++ after = data ∧ before.length = index

theorem occursAt_iff :
    OccursAt pattern data index ↔ index ≤ data.length ∧ pattern <+: data.drop index := by
  constructor
  · rintro ⟨before, after, rfl, rfl⟩
    simp [List.append_assoc]
  · rintro ⟨hindex, after, hafter⟩
    refine ⟨data.take index, after, ?_, List.length_take_of_le hindex⟩
    rw [List.append_assoc, hafter, List.take_append_drop]

theorem occursAt_zero : OccursAt pattern data 0 ↔ pattern <+: data := by
  simp [occursAt_iff]

theorem occursAt_cons_succ :
    OccursAt pattern (b :: rest) (index + 1) ↔ OccursAt pattern rest index := by
  simp [occursAt_iff]

theorem le_length_of_occursAt (hoccurs : OccursAt pattern data index) : index ≤ data.length :=
  (occursAt_iff.1 hoccurs).1

theorem matchesAt_iff : matchesAt pattern data index = true ↔ OccursAt pattern data index := by
  simp [matchesAt, occursAt_iff]

/-! ## The places that count -/

/-- The multiples of the stride at which the pattern stands.  The head of the
buffer has the number `start`. -/
def placesFrom (pattern : List UInt8) (stride start : Nat) (data : List UInt8) : Set Nat :=
  {place | stride ∣ place ∧ start ≤ place ∧ OccursAt pattern data (place - start)}

theorem start_mem_placesFrom :
    start ∈ placesFrom pattern stride start data ↔ start % stride = 0 ∧ pattern <+: data := by
  simp [placesFrom, occursAt_zero, Nat.dvd_iff_mod_eq_zero]

/-- The places behind the head are those of the rest. -/
theorem mem_placesFrom_succ :
    place ∈ placesFrom pattern stride (start + 1) rest ↔
      place ≠ start ∧ place ∈ placesFrom pattern stride start (b :: rest) := by
  constructor
  · rintro ⟨hstride, hbehind, hoccurs⟩
    refine ⟨by omega, hstride, by omega, ?_⟩
    rwa [← occursAt_cons_succ (b := b), show place - (start + 1) + 1 = place - start by omega]
      at hoccurs
  · rintro ⟨hne, hstride, hle, hoccurs⟩
    refine ⟨hstride, by omega, ?_⟩
    rwa [show place - start = place - (start + 1) + 1 by omega, occursAt_cons_succ] at hoccurs

/-- Where the head does not count, the places are those of the rest. -/
theorem placesFrom_cons_of_not_mem (hmiss : start ∉ placesFrom pattern stride start (b :: rest)) :
    placesFrom pattern stride start (b :: rest) = placesFrom pattern stride (start + 1) rest := by
  ext place
  rw [mem_placesFrom_succ, iff_and_self]
  intro hplace
  exact ne_of_mem_of_not_mem hplace hmiss

/-- Only the head of an empty buffer may count. -/
theorem placesFrom_nil_of_not_mem (hmiss : start ∉ placesFrom pattern stride start []) :
    placesFrom pattern stride start [] = ∅ := by
  refine Set.eq_empty_of_forall_notMem fun place hplace => ?_
  have hwithin : place - start ≤ 0 := le_length_of_occursAt hplace.2.2
  have hle : start ≤ place := hplace.2.1
  obtain rfl : place = start := by omega
  exact hmiss hplace

/-! ## Searches -/

theorem findFrom_eq_some (hindex : index % stride = 0) (hbegins : pattern <+: data) :
    findFrom pattern stride index data = some index := by
  rw [findFrom.eq_def, if_pos]
  simpa using ⟨hindex, hbegins⟩

theorem findFrom_cons_of_not (hmiss : ¬(index % stride = 0 ∧ pattern <+: b :: data)) :
    findFrom pattern stride index (b :: data) = findFrom pattern stride (index + 1) data := by
  rw [findFrom, if_neg]
  simpa using hmiss

theorem findFrom_nil_of_not (hmiss : ¬(index % stride = 0 ∧ pattern <+: [])) :
    findFrom pattern stride index [] = none := by
  rw [findFrom, if_neg]
  simpa using hmiss

/-- A head that counts is found, and is the least place. -/
theorem findFrom_of_start_mem (hhead : start ∈ placesFrom pattern stride start data) :
    findFrom pattern stride start data = some start ∧
      IsLeast (placesFrom pattern stride start data) start := by
  obtain ⟨hstride, hbegins⟩ := start_mem_placesFrom.1 hhead
  refine ⟨findFrom_eq_some hstride hbegins, hhead, ?_⟩
  intro place hplace
  exact hplace.2.1

/-- A search finds the least place, and nothing only if there is none. -/
theorem findFrom_cases (pattern : List UInt8) (stride start : Nat) (data : List UInt8) :
    (∃ place, findFrom pattern stride start data = some place ∧
      IsLeast (placesFrom pattern stride start data) place) ∨
    findFrom pattern stride start data = none ∧ placesFrom pattern stride start data = ∅ := by
  induction data generalizing start with
  | nil =>
    by_cases hhead : start ∈ placesFrom pattern stride start []
    · exact .inl ⟨start, findFrom_of_start_mem hhead⟩
    · have hmiss := mt start_mem_placesFrom.2 hhead
      exact .inr ⟨findFrom_nil_of_not hmiss, placesFrom_nil_of_not_mem hhead⟩
  | cons b rest ih =>
    by_cases hhead : start ∈ placesFrom pattern stride start (b :: rest)
    · exact .inl ⟨start, findFrom_of_start_mem hhead⟩
    · have hmiss := mt start_mem_placesFrom.2 hhead
      rw [findFrom_cons_of_not hmiss, placesFrom_cons_of_not_mem hhead]
      exact ih (start + 1)

theorem findFrom_eq_some_iff :
    findFrom pattern stride start data = some index ↔
      IsLeast (placesFrom pattern stride start data) index := by
  rcases findFrom_cases pattern stride start data with ⟨place, hfound, hleast⟩ | ⟨hnone, hempty⟩
  · rw [hfound, Option.some.injEq]
    constructor
    · rintro rfl
      exact hleast
    · exact hleast.unique
  · simp [hnone, hempty, IsLeast]

theorem findFrom_eq_none_iff :
    findFrom pattern stride start data = none ↔ placesFrom pattern stride start data = ∅ := by
  rcases findFrom_cases pattern stride start data with ⟨place, hfound, hleast⟩ | ⟨hnone, hempty⟩
  · have hsome : placesFrom pattern stride start data ≠ ∅ := hleast.nonempty.ne_empty
    simp [hfound, hsome]
  · simp [hnone, hempty]

/-! ## Searches in a whole buffer -/

theorem placesFrom_zero :
    placesFrom pattern stride 0 data = {place | stride ∣ place ∧ OccursAt pattern data place} := by
  simp [placesFrom]

theorem findAligned_nil (data : List UInt8) (stride : Nat) : findAligned [] data stride = none :=
  rfl

theorem findAligned_of_ne_nil (hpattern : pattern ≠ []) :
    findAligned pattern data stride = findFrom pattern (max stride 1) 0 data := by
  simp [findAligned, hpattern]

theorem findAligned_eq_some_iff :
    findAligned pattern data stride = some index ↔ pattern ≠ [] ∧
      IsLeast {place | max stride 1 ∣ place ∧ OccursAt pattern data place} index := by
  by_cases hpattern : pattern = []
  · simp [hpattern, findAligned_nil]
  · rw [findAligned_of_ne_nil hpattern, findFrom_eq_some_iff, placesFrom_zero]
    simp [hpattern]

theorem findAligned_eq_none_iff :
    findAligned pattern data stride = none ↔
      pattern = [] ∨ ∀ place, max stride 1 ∣ place → ¬OccursAt pattern data place := by
  by_cases hpattern : pattern = []
  · simp [hpattern, findAligned_nil]
  · rw [findAligned_of_ne_nil hpattern, findFrom_eq_none_iff, placesFrom_zero]
    simp [hpattern, Set.eq_empty_iff_forall_notMem]

/-- A search finds the least multiple of its stride at which the pattern stands, and
nothing exactly if the pattern is empty or stands at none.  The search without a
stride is that with stride one, and a match at an index is an occurrence. -/
theorem findAligned_isLeast (pattern data : List UInt8) (stride : Nat) :
    (∀ index, findAligned pattern data stride = some index ↔ pattern ≠ [] ∧
      IsLeast {place | max stride 1 ∣ place ∧ OccursAt pattern data place} index) ∧
    (findAligned pattern data stride = none ↔
      pattern = [] ∨ ∀ place, max stride 1 ∣ place → ¬OccursAt pattern data place) ∧
    find pattern data = findAligned pattern data 1 ∧
    (∀ index, find pattern data = some index ↔ pattern ≠ [] ∧
      IsLeast {place | OccursAt pattern data place} index) ∧
    ∀ index, matchesAt pattern data index = true ↔ OccursAt pattern data index := by
  refine ⟨fun index => findAligned_eq_some_iff, findAligned_eq_none_iff, rfl, fun index => ?_,
    fun index => matchesAt_iff⟩
  rw [find, findAligned_eq_some_iff]
  simp

/-- The zero bytes of two neighbouring units of two bytes are skipped. -/
example :
    let text := [0x41, 0, 0, 1, 0, 0]
    find (zeros 2) text = some 1 ∧ findAligned (zeros 2) text 2 = some 4 := by
  decide

end Rtti.Pattern
