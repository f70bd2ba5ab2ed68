import Rtti.Text.Blank

/-!
# Endings of trimmed texts

What stands at the end of a text in any letter case, and what is left of it when
the text is trimmed.  An ending without blanks is kept
(`Text.endsIn_lower_trim`).
-/

namespace Rtti.Text

/-- No blank is a letter in upper case, so lowering keeps it. -/
theorem toLower_of_isBlank {c : Char} (hblank : isBlank c = true) : c.toLower = c := by
  refine dif_neg fun hupper => ?_
  simp only [ge_iff_le, UInt32.le_iff_toNat_le, Char.toNat_val] at hupper
  have hletter : 65 ≤ c.toNat ∧ c.toNat ≤ 90 := hupper
  simp only [isBlank, Bool.or_eq_true, Bool.and_eq_true, beq_iff_eq, decide_eq_true_eq] at hblank
  omega

variable {p : Char → Bool} {kept : List Char}

theorem dropWhile_append_of_all_not (hkept : ∀ c ∈ kept, p c = false) (cs : List Char) :
    (cs ++ kept).dropWhile p = cs.dropWhile p ++ kept := by
  have hself : kept.dropWhile p = kept := by
    cases kept with
    | nil => rfl
    | cons c rest => simp [hkept c (by simp)]
  rw [List.dropWhile_append, hself]
  split
  · next hnil => rw [List.isEmpty_iff.mp hnil, List.nil_append]
  · rfl

theorem trimEnd_append_of_all_not (hkept : ∀ c ∈ kept, p c = false) (hne : kept ≠ [])
    (cs : List Char) : trimEnd p (cs ++ kept) = cs ++ kept := by
  obtain ⟨last, rest, hreverse⟩ : ∃ last rest, kept.reverse = last :: rest :=
    List.exists_cons_of_ne_nil (by simpa using hne)
  have hlast : p last = false :=
    hkept last (List.mem_reverse.mp (hreverse ▸ List.mem_cons_self))
  rw [trimEnd, List.reverse_append, hreverse, List.cons_append,
    List.dropWhile_cons_of_neg (by simp [hlast]), ← List.cons_append, ← hreverse,
    ← List.reverse_append, List.reverse_reverse]

/-- A text ends, in any letter case, in what its last characters spell. -/
theorem endsIn_lower_iff {text ending : String} :
    endsIn (lower text) ending = true ↔
      ∃ front back, text.toList = front ++ back ∧ back.map Char.toLower = ending.toList := by
  rw [endsIn, List.isSuffixOf_iff_suffix, lower, String.toList_ofList]
  constructor
  · rintro ⟨front, happend⟩
    obtain ⟨front, back, htext, -, hback⟩ := List.map_eq_append_iff.mp happend.symm
    exact ⟨front, back, htext, hback⟩
  · rintro ⟨front, back, htext, hback⟩
    exact ⟨front.map Char.toLower, by rw [htext, List.map_append, hback]⟩

/-- Trimming a text keeps an ending that has no blanks. -/
theorem endsIn_lower_trim {text ending : String} (hends : endsIn (lower text) ending = true)
    (hne : ending.toList ≠ []) (hbare : ∀ c ∈ ending.toList, isBlank c = false) :
    endsIn (lower (trim text)) ending = true := by
  obtain ⟨front, back, htext, hback⟩ := endsIn_lower_iff.mp hends
  have hkept : ∀ c ∈ back, isBlank c = false := by
    intro c hc
    have hlower : isBlank c.toLower = false := hbare _ (hback ▸ List.mem_map_of_mem hc)
    cases hblank : isBlank c with
    | false => rfl
    | true => rwa [toLower_of_isBlank hblank, hblank] at hlower
  have hback_ne : back ≠ [] := by
    rintro rfl
    exact hne hback.symm
  refine endsIn_lower_iff.mpr ⟨front.dropWhile isBlank, back, ?_, hback⟩
  rw [trim, String.toList_ofList, htext, dropWhile_append_of_all_not hkept,
    trimEnd_append_of_all_not hkept hback_ne]

end Rtti.Text
