import Mathlib.Data.List.Basic
import Rtti.Text.Blank

/-!
# Texts of lines

Lines that are written one below the other are read back as they were, unless
one holds a line feed, one before the last ends in a carriage return, or the
last is empty (`Separable`).  `lines_intercalate_iff` says that these are the
only exceptions, and `lines_intercalate_eq_iff` that the number of lines and
the text that they make tell whether there is one.
-/

namespace Rtti.Text

/-! ## Splitting -/

section Splitting

variable {α : Type} [DecidableEq α] {x : α} {xs : List α} {parts : List (List α)}

theorem length_splitOn (x : α) (xs : List α) : (xs.splitOn x).length = xs.count x + 1 := by
  induction xs with
  | nil => simp
  | cons y xs ih =>
    rw [List.splitOn_cons_eq_if_modifyHead, List.count_cons]
    split
    · rw [List.length_cons, ih]
    · rw [List.length_modifyHead, ih, Nat.add_zero]

theorem not_mem_of_mem_splitOn {part : List α} (hpart : part ∈ xs.splitOn x) : x ∉ part := by
  induction xs generalizing part with
  | nil =>
    rw [List.splitOn_nil, List.mem_singleton] at hpart
    simp [hpart]
  | cons y xs ih =>
    rw [List.splitOn_cons_eq_if_modifyHead] at hpart
    split at hpart
    · rcases List.mem_cons.1 hpart with rfl | hpart
      · simp
      · exact ih hpart
    · next hother =>
      obtain ⟨first, rest, hsplit⟩ := List.exists_cons_of_ne_nil (List.splitOn_ne_nil x xs)
      rw [hsplit, List.modifyHead_cons] at hpart
      rw [hsplit] at ih
      rcases List.mem_cons.1 hpart with rfl | hpart
      · have hfirst := ih List.mem_cons_self
        simp only [List.mem_cons, not_or]
        exact ⟨fun hsame => hother (by simp [hsame]), hfirst⟩
      · exact ih (List.mem_cons_of_mem _ hpart)

/-- One separator stands between each part and the next. -/
theorem count_intercalate (hne : parts ≠ []) :
    ([x].intercalate parts).count x + 1 = parts.length + parts.flatten.count x := by
  induction parts with
  | nil => contradiction
  | cons part parts ih =>
    cases parts with
    | nil => simp [Nat.add_comm]
    | cons next parts =>
      have hrest := ih (by simp)
      rw [List.intercalate_cons_cons, List.count_append, List.count_append,
        List.count_singleton_self, List.length_cons, List.flatten_cons, List.count_append]
      omega

end Splitting

/-- The parts between line feeds. -/
theorem splitLinesOnto_eq (line cs : List Char) :
    splitLinesOnto line cs = (cs.splitOn '\n').modifyHead (line.reverse ++ ·) := by
  fun_induction splitLinesOnto line cs with
  | case1 line => simp
  | case2 line rest ih =>
    rw [ih, List.splitOn_cons_eq_if_modifyHead]
    obtain ⟨first, parts, hsplit⟩ := List.exists_cons_of_ne_nil (List.splitOn_ne_nil '\n' rest)
    simp [hsplit]
  | case3 line c rest hc ih =>
    have hother : (c == '\n') = false := by simpa using hc
    obtain ⟨first, parts, hsplit⟩ := List.exists_cons_of_ne_nil (List.splitOn_ne_nil '\n' rest)
    rw [ih, List.splitOn_cons_eq_if_modifyHead, hother, hsplit]
    simp

theorem splitLinesOnto_nil (cs : List Char) : splitLinesOnto [] cs = cs.splitOn '\n' := by
  obtain ⟨first, parts, hsplit⟩ := List.exists_cons_of_ne_nil (List.splitOn_ne_nil '\n' cs)
  rw [splitLinesOnto_eq, hsplit]
  rfl

/-! ## Lines -/

theorem dropReturn_eq_self_iff {line : List Char} :
    dropReturn line = line ↔ line.getLast? ≠ some '\r' := by
  unfold dropReturn
  split
  · next hlast =>
    rw [hlast]
    refine iff_of_false (fun hsame => ?_) (fun hne => hne rfl)
    have hlength := congrArg List.length hsame
    rw [List.length_dropLast] at hlength
    cases line with
    | nil => contradiction
    | cons c line => simp at hlength
  · next hlast => exact iff_of_true rfl hlast

theorem dropReturn_subset (line : List Char) : dropReturn line ⊆ line := by
  unfold dropReturn
  split
  · exact List.dropLast_subset line
  · exact List.Subset.refl line

/-- The lines of a text by its parts between line feeds. -/
theorem lines_of_splitOn {text : String} {ended : List (List Char)} {last : List Char}
    (hsplit : text.toList.splitOn '\n' = ended ++ [last]) :
    lines text = ended.map (fun line => String.ofList (dropReturn line)) ++
      if last = [] then [] else [String.ofList last] := by
  unfold lines
  simp only [splitLinesOnto_nil, hsplit, List.dropLast_concat, List.getLast?_concat]
  cases last with
  | nil => simp
  | cons c last => simp

theorem not_mem_of_mem_lines {text line : String} (hline : line ∈ lines text) :
    '\n' ∉ line.toList := by
  obtain ⟨ended, last, hsplit⟩ :=
    (List.eq_nil_or_concat' _).resolve_left (List.splitOn_ne_nil '\n' text.toList)
  have hparts : ∀ part ∈ ended ++ [last], '\n' ∉ part := fun part hpart =>
    not_mem_of_mem_splitOn (hsplit ▸ hpart)
  rw [lines_of_splitOn hsplit] at hline
  rcases List.mem_append.1 hline with hended | hlast
  · obtain ⟨part, hpart, rfl⟩ := List.mem_map.1 hended
    rw [String.toList_ofList]
    exact fun hmem => hparts part (List.mem_append_left _ hpart) (dropReturn_subset part hmem)
  · split at hlast
    · contradiction
    · rw [List.mem_singleton.1 hlast, String.toList_ofList]
      exact hparts last (by simp)

/-! ## Lines written and read -/

/-- Texts that are lines of their own when they are written one below the
other. -/
structure Separable (texts : List String) : Prop where
  feeds : ∀ text ∈ texts, '\n' ∉ text.toList
  returns : ∀ text ∈ texts.dropLast, text.toList.getLast? ≠ some '\r'
  last : texts.getLast? ≠ some ""

variable {texts : List String}

theorem toList_intercalate_lines (texts : List String) :
    ("\n".intercalate texts).toList = ['\n'].intercalate (texts.map String.toList) :=
  String.toList_intercalate

theorem splitOn_intercalate_lines (hne : texts ≠ [])
    (hfeeds : ∀ text ∈ texts, '\n' ∉ text.toList) :
    ("\n".intercalate texts).toList.splitOn '\n' = texts.map String.toList := by
  rw [toList_intercalate_lines, List.splitOn_intercalate]
  · intro line hline
    obtain ⟨text, htext, rfl⟩ := List.mem_map.1 hline
    exact hfeeds text htext
  · simpa using hne

/-- Texts without line feeds are read back up to a carriage return at the end
of each, and up to the last if it is empty. -/
theorem lines_intercalate {first : List String} {last : String}
    (hfeeds : ∀ text ∈ first ++ [last], '\n' ∉ text.toList) :
    lines ("\n".intercalate (first ++ [last])) =
      first.map (fun text => String.ofList (dropReturn text.toList)) ++
        if last = "" then [] else [last] := by
  have hsplit : ("\n".intercalate (first ++ [last])).toList.splitOn '\n' =
      first.map String.toList ++ [last.toList] := by
    rw [splitOn_intercalate_lines (by simp) hfeeds, List.map_append, List.map_singleton]
  rw [lines_of_splitOn hsplit, List.map_map]
  simp only [String.toList_eq_nil_iff, String.ofList_toList]
  rfl

theorem map_dropReturn_eq_self_iff {first : List String} :
    first.map (fun text => String.ofList (dropReturn text.toList)) = first ↔
      ∀ text ∈ first, text.toList.getLast? ≠ some '\r' := by
  conv_lhs => rhs; rw [← List.map_id first]
  rw [List.map_inj_left]
  refine forall₂_congr fun text _ => ?_
  rw [← dropReturn_eq_self_iff, ← String.toList_inj, String.toList_ofList, id]

/-- Exactly the separable texts are read back. -/
theorem lines_intercalate_iff (hne : texts ≠ []) :
    lines ("\n".intercalate texts) = texts ↔ Separable texts := by
  obtain ⟨first, last, rfl⟩ := (List.eq_nil_or_concat' texts).resolve_left hne
  constructor
  · intro hlines
    have hfeeds : ∀ text ∈ first ++ [last], '\n' ∉ text.toList := fun text htext =>
      not_mem_of_mem_lines (hlines ▸ htext)
    rw [lines_intercalate hfeeds] at hlines
    have hlast : last ≠ "" := by
      intro hempty
      have hlength := congrArg List.length hlines
      simp [hempty] at hlength
    rw [if_neg hlast, List.append_cancel_right_eq, map_dropReturn_eq_self_iff] at hlines
    exact ⟨hfeeds, by rwa [List.dropLast_concat], by simpa using hlast⟩
  · rintro ⟨hfeeds, hreturns, hlast⟩
    rw [List.dropLast_concat] at hreturns
    rw [lines_intercalate hfeeds, map_dropReturn_eq_self_iff.2 hreturns,
      if_neg (by simpa using hlast)]

/-- As many parts as texts are between line feeds only if no text has any. -/
theorem feeds_of_length_splitOn (hne : texts ≠ [])
    (hlength : (("\n".intercalate texts).toList.splitOn '\n').length = texts.length) :
    ∀ text ∈ texts, '\n' ∉ text.toList := by
  rw [length_splitOn, toList_intercalate_lines, count_intercalate (by simpa using hne),
    List.length_map, Nat.add_eq_left, List.count_eq_zero] at hlength
  intro text htext hfeed
  exact hlength (List.mem_flatten.2 ⟨text.toList, List.mem_map_of_mem htext, hfeed⟩)

/-- Texts are read back if there are as many lines as texts, and these lines
make the same text. -/
theorem lines_intercalate_eq_iff (hne : texts ≠ []) :
    lines ("\n".intercalate texts) = texts ↔
      (lines ("\n".intercalate texts)).length = texts.length ∧
        "\n".intercalate (lines ("\n".intercalate texts)) = "\n".intercalate texts := by
  constructor
  · intro hlines
    rw [hlines]
    exact ⟨rfl, rfl⟩
  · rintro ⟨hlength, hjoined⟩
    have hsome : lines ("\n".intercalate texts) ≠ [] := by
      rw [← List.length_pos_iff, hlength, List.length_pos_iff]
      exact hne
    have hsplit := splitOn_intercalate_lines hsome fun _ => not_mem_of_mem_lines
    rw [hjoined] at hsplit
    have hfeeds := feeds_of_length_splitOn hne (by rw [hsplit, List.length_map, hlength])
    rw [splitOn_intercalate_lines hne hfeeds] at hsplit
    exact (List.map_injective_iff.2 (fun _ _ => String.toList_injective) hsplit).symm

end Rtti.Text
