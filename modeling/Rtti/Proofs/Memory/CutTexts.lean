import Rtti.Proofs.Memory.TextReads

/-!
# Texts that do not fit their window

A window may be too small for the text that begins in it.  The longest beginning
of the text that fits is `TextEncoding.cut`, which `TextEncoding.IsCut`
characterizes.  The units of the window are the units of that beginning, unless
the end of the window splits a character (`TextEncoding.Splits`): the units that
are left of the character are then no text, and the strict decoding gives up the
whole of them.

`Inspection.run_text_eq_cut_iff` says exactly when the reading gives the longest
beginning that fits, and that it gives the empty text otherwise.
-/

namespace Rtti

namespace TextEncoding

variable {encoding : TextEncoding} {units : Nat} {cs other : List Char} {c : Char}

/-! ## The longest beginning -/

/-- The longest beginning of some characters that fits in so many code units. -/
def cut (encoding : TextEncoding) (units : Nat) : List Char → List Char
  | [] => []
  | c :: cs =>
    if (encoding.encodeChar c).length ≤ units then
      c :: encoding.cut (units - (encoding.encodeChar c).length) cs
    else []

/-- Whole characters of the text, from its beginning, and as many as fit in so many
code units. -/
structure IsCut (encoding : TextEncoding) (units : Nat) (text kept : String) : Prop where
  begins : kept.toList <+: text.toList
  fits : (encoding.encode kept).length ≤ units
  longest (other : String) : other.toList <+: text.toList →
    (encoding.encode other).length ≤ units → other.toList <+: kept.toList

/-- The end of so many code units lies inside one of the characters. -/
def Splits (encoding : TextEncoding) (units : Nat) (cs : List Char) : Prop :=
  ∃ before c after, cs = before ++ c :: after ∧
    (before.flatMap encoding.encodeChar).length < units ∧
    units < ((before ++ [c]).flatMap encoding.encodeChar).length

theorem cut_begins (encoding : TextEncoding) (units : Nat) (cs : List Char) :
    encoding.cut units cs <+: cs := by
  induction cs generalizing units with
  | nil => exact List.nil_prefix
  | cons c cs ih =>
    rw [cut]
    split
    · exact List.cons_prefix_cons.2 ⟨rfl, ih _⟩
    · exact List.nil_prefix

theorem length_flatMap_cut_le (encoding : TextEncoding) (units : Nat) (cs : List Char) :
    ((encoding.cut units cs).flatMap encoding.encodeChar).length ≤ units := by
  induction cs generalizing units with
  | nil => exact Nat.zero_le _
  | cons c cs ih =>
    rw [cut]
    split
    · next hfits =>
      have hrest := ih (units - (encoding.encodeChar c).length)
      rw [List.flatMap_cons, List.length_append]
      omega
    · exact Nat.zero_le _

theorem begins_cut (hbegins : other <+: cs)
    (hfits : (other.flatMap encoding.encodeChar).length ≤ units) :
    other <+: encoding.cut units cs := by
  induction cs generalizing units other with
  | nil => rwa [cut]
  | cons c cs ih =>
    cases other with
    | nil => exact List.nil_prefix
    | cons d other =>
      obtain ⟨rfl, hrest⟩ := List.cons_prefix_cons.1 hbegins
      rw [List.flatMap_cons, List.length_append] at hfits
      rw [cut, if_pos (by omega)]
      exact List.cons_prefix_cons.2 ⟨rfl, ih hrest (by omega)⟩

/-- A text has a longest beginning that fits. -/
theorem isCut_cut (encoding : TextEncoding) (units : Nat) (text : String) :
    encoding.IsCut units text (String.ofList (encoding.cut units text.toList)) where
  begins := by
    rw [String.toList_ofList]
    exact cut_begins encoding units _
  fits := by
    rw [encode, String.toList_ofList]
    exact length_flatMap_cut_le encoding units _
  longest other hbegins hfits := by
    rw [String.toList_ofList]
    exact begins_cut hbegins hfits

theorem IsCut.unique {text kept kept' : String} (hkept : encoding.IsCut units text kept)
    (hkept' : encoding.IsCut units text kept') : kept = kept' := by
  have hbegins := hkept'.longest kept hkept.begins hkept.fits
  have hbegins' := hkept.longest kept' hkept'.begins hkept'.fits
  exact String.ext (hbegins.eq_of_length_le hbegins'.length_le)

/-! ## The room for one character -/

/-- The number of code units of the longest characters. -/
def longestChar : TextEncoding → Nat
  | utf8 => 4
  | utf16 => 2

theorem length_encodeChar_le (encoding : TextEncoding) (c : Char) :
    (encoding.encodeChar c).length ≤ encoding.longestChar := by
  cases encoding with
  | utf8 =>
    rw [encodeChar, List.length_map, String.length_utf8EncodeChar]
    exact c.utf8Size_le_four
  | utf16 =>
    rw [encodeChar, Utf16.encodeChar]
    split <;> simp [longestChar]

/-- Where there is room for a character, what is kept of a text is not empty. -/
theorem cut_ne_nil (hroom : encoding.longestChar ≤ units) (hcs : cs ≠ []) :
    encoding.cut units cs ≠ [] := by
  cases cs with
  | nil => contradiction
  | cons c cs =>
    rw [cut, if_pos ((encoding.length_encodeChar_le c).trans hroom)]
    exact List.cons_ne_nil _ _

/-! ## Split characters -/

/-- The first code units of a text are those of the beginning that is kept, or they
end inside a character. -/
theorem flatMap_cut_or_splits (encoding : TextEncoding) (units : Nat) (cs : List Char) :
    (encoding.cut units cs).flatMap encoding.encodeChar =
        (cs.flatMap encoding.encodeChar).take units ∨ encoding.Splits units cs := by
  induction cs generalizing units with
  | nil => exact .inl (by simp [cut])
  | cons c cs ih =>
    rw [cut]
    split
    · next hfits =>
      rcases ih (units - (encoding.encodeChar c).length) with hcut | hsplits
      · refine .inl ?_
        rw [List.flatMap_cons, List.flatMap_cons, hcut, List.take_append,
          List.take_of_length_le hfits]
      · obtain ⟨before, d, after, rfl, hbefore, hafter⟩ := hsplits
        refine .inr ⟨c :: before, d, after, rfl, ?_, ?_⟩
        · rw [List.flatMap_cons, List.length_append]
          omega
        · rw [List.cons_append, List.flatMap_cons, List.length_append]
          omega
    · next hlong =>
      rcases Nat.eq_zero_or_pos units with rfl | hpos
      · exact .inl (by simp)
      · exact .inr ⟨[], c, cs, rfl, hpos, by simpa using hlong⟩

theorem length_flatMap_le_of_begins (hbegins : other <+: cs) :
    (other.flatMap encoding.encodeChar).length ≤ (cs.flatMap encoding.encodeChar).length := by
  obtain ⟨rest, rfl⟩ := hbegins
  rw [List.flatMap_append, List.length_append]
  exact Nat.le_add_right _ _

/-- A text that fits is not split. -/
theorem lt_length_of_splits (hsplits : encoding.Splits units cs) :
    units < (cs.flatMap encoding.encodeChar).length := by
  obtain ⟨before, c, after, rfl, -, hafter⟩ := hsplits
  have hthrough : before ++ [c] <+: before ++ c :: after := by simp
  exact Nat.lt_of_lt_of_le hafter (length_flatMap_le_of_begins hthrough)

/-- Characters from the beginning do not end inside a character. -/
theorem length_flatMap_ne_of_splits (hsplits : encoding.Splits units cs) (hbegins : other <+: cs) :
    (other.flatMap encoding.encodeChar).length ≠ units := by
  obtain ⟨before, c, after, rfl, hbefore, hafter⟩ := hsplits
  have hthrough : before ++ [c] <+: before ++ c :: after := by simp
  rcases List.prefix_or_prefix_of_prefix hbegins hthrough with hwithin | hbeyond
  · rcases List.prefix_concat_iff.1 hwithin with rfl | hwithin
    · exact Nat.ne_of_gt hafter
    · exact Nat.ne_of_lt (Nat.lt_of_le_of_lt (length_flatMap_le_of_begins hwithin) hbefore)
  · exact Nat.ne_of_gt (Nat.lt_of_lt_of_le hafter (length_flatMap_le_of_begins hbeyond))

/-- Code units that end inside a character are those of no text. -/
theorem encode_ne_of_splits {text other : String} (hsplits : encoding.Splits units text.toList) :
    encoding.encode other ≠ (encoding.encode text).take units := by
  intro hunits
  have hbegins : other.toList <+: text.toList := by
    apply prefix_of_encode
    rw [hunits]
    exact List.take_prefix _ _
  have hlong : units < (encoding.encode text).length := lt_length_of_splits hsplits
  apply length_flatMap_ne_of_splits hsplits hbegins
  show (encoding.encode other).length = units
  rw [hunits, List.length_take, Nat.min_eq_left (Nat.le_of_lt hlong)]

end TextEncoding

/-! ## Texts that are read -/

namespace Inspection

open TextEncoding

variable {target : Target} {address : Address} {encoding : TextEncoding} {units : Nat}
  {text : String}

/-- A text that is stored is read as the longest beginning that fits exactly if the
window does not split a character, and else as the empty text. -/
theorem run_text_eq_cut_iff (hstores : target.StoresText encoding address units text)
    (hnull : '\x00' ∉ text.toList) (hroom : encoding.longestChar ≤ units) :
    ∃ kept, encoding.IsCut units text kept ∧ (text ≠ "" → kept ≠ "") ∧
      ((Inspection.text address units encoding).run target = .ok kept ↔
        ¬encoding.Splits units text.toList) ∧
      (encoding.Splits units text.toList →
        (Inspection.text address units encoding).run target = .ok "") := by
  obtain ⟨read, hrun, hread⟩ := exists_run_text_of_stores hstores hnull
  have hempty (hsplits : encoding.Splits units text.toList) : read = "" := by
    rcases hread with hread | ⟨hread, -⟩
    · exact absurd hread (encode_ne_of_splits hsplits)
    · exact hread
  have hkept (htext : text ≠ "") :
      String.ofList (encoding.cut units text.toList) ≠ "" := by
    have hkeeps := cut_ne_nil hroom (mt String.toList_eq_nil_iff.1 htext)
    rwa [ne_eq, ← String.toList_eq_nil_iff, String.toList_ofList]
  refine ⟨_, isCut_cut encoding units text, hkept, ⟨fun heq hsplits => ?_, fun hwhole => ?_⟩,
    fun hsplits => hempty hsplits ▸ hrun⟩
  · rw [hrun, hempty hsplits] at heq
    have htext : text ≠ "" := by
      rintro rfl
      obtain ⟨before, c, after, hnil, -⟩ := hsplits
      simp at hnil
    exact hkept htext (Except.ok.inj heq).symm
  · rcases flatMap_cut_or_splits encoding units text.toList with hcut | hsplits
    · rw [hrun]
      refine congrArg _ (hread.unique (.inl ?_))
      rw [encode, String.toList_ofList]
      exact hcut
    · exact absurd hsplits hwhole

/-! ## An example -/

/-- Four bytes end inside the `é`, and nothing is read; five bytes hold the whole text. -/
theorem run_text_eq_cut_iff_split :
    TextEncoding.utf8.IsCut 4 "aaaé" "aaa" ∧
      (Inspection.text (.ofNat 0x10000) 4 .utf8).run (uniform [0x61, 0x61, 0x61, 0xC3]) =
        .ok "" ∧
      (Inspection.text (.ofNat 0x10000) 5 .utf8).run (uniform [0x61, 0x61, 0x61, 0xC3, 0xA9]) =
        .ok "aaaé" := by
  have hstores : (uniform [0x61, 0x61, 0x61, 0xC3]).StoresText .utf8 (.ofNat 0x10000) 4 "aaaé" :=
    ⟨_, rfl, rfl, by decide, by decide +kernel⟩
  have hstores' : (uniform [0x61, 0x61, 0x61, 0xC3, 0xA9]).StoresText .utf8 (.ofNat 0x10000) 5
      "aaaé" := ⟨_, rfl, rfl, by decide, by decide +kernel⟩
  have hcut : TextEncoding.utf8.IsCut 4 "aaaé" "aaa" := by
    have hkept : String.ofList (TextEncoding.utf8.cut 4 "aaaé".toList) = "aaa" := by
      decide +kernel
    exact hkept ▸ isCut_cut .utf8 4 "aaaé"
  have hwhole : TextEncoding.utf8.IsCut 5 "aaaé" "aaaé" := by
    have hkept : String.ofList (TextEncoding.utf8.cut 5 "aaaé".toList) = "aaaé" := by
      decide +kernel
    exact hkept ▸ isCut_cut .utf8 5 "aaaé"
  obtain ⟨-, -, -, -, hempty⟩ := run_text_eq_cut_iff hstores (by decide +kernel) (by decide)
  obtain ⟨kept, hkept, -, hread, -⟩ :=
    run_text_eq_cut_iff hstores' (by decide +kernel) (by decide)
  obtain rfl := hkept.unique hwhole
  refine ⟨hcut, hempty ⟨['a', 'a', 'a'], 'é', [], ?_⟩, hread.2 ?_⟩
  · decide +kernel
  · intro hsplits
    exact absurd (TextEncoding.lt_length_of_splits hsplits) (by decide +kernel)

end Inspection

end Rtti
