import Mathlib.Data.List.Forall2
import Mathlib.Data.Nat.Digits.Defs
import Rtti.Address.Spelling

/-!
# Spellings of an address

`Hexadecimal.Spells` says that characters are the hexadecimal digits of a number, in
either letter case and with any number of leading zeros, and `Address.Spells` allows
one mark `0x` or `0X` before them.  `Address.parse_eq_ok_iff_spells` says that exactly
these texts are read, each as its number, as long as pointers can hold it; every other
text is refused.  A number of 64 bits that is too large for the pointers of the target
is refused with words of its own (`Address.misfit`).
-/

namespace Rtti

/-! ## Numerals -/

namespace Hexadecimal

/-- The character writes the digit, in one of the letter cases. -/
def Writes (c : Char) (digit : Nat) : Prop :=
  digit < 16 ∧ ∃ letters, digitChar letters digit = c

/-- The characters are one digit of the number or more, the most significant
first. -/
def Spells (chars : List Char) (n : Nat) : Prop :=
  chars ≠ [] ∧ ∃ digits, List.Forall₂ Writes chars digits ∧ Nat.ofDigits 16 digits.reverse = n

variable {c : Char} {chars : List Char} {digit n : Nat}

theorem writes_of_digitValue? (hvalue : digitValue? c = some digit) : Writes c digit := by
  refine ⟨digitValue?_lt hvalue, ?_⟩
  unfold digitValue? at hvalue
  simp only at hvalue
  split at hvalue
  · obtain rfl := Option.some.inj hvalue
    refine ⟨.lower, ?_⟩
    rw [digitChar, if_pos (by omega), Nat.add_sub_cancel' (by omega), Char.ofNat_toNat]
  · split at hvalue
    · obtain rfl := Option.some.inj hvalue
      refine ⟨.lower, ?_⟩
      rw [digitChar, if_neg (by omega), Nat.add_sub_cancel' (by omega), Char.ofNat_toNat]
    · split at hvalue
      · obtain rfl := Option.some.inj hvalue
        refine ⟨.upper, ?_⟩
        rw [digitChar, if_neg (by omega), Nat.add_sub_cancel' (by omega), Char.ofNat_toNat]
      · contradiction

theorem digitValue?_eq_some_iff : digitValue? c = some digit ↔ Writes c digit := by
  refine ⟨writes_of_digitValue?, ?_⟩
  rintro ⟨hdigit, letters, rfl⟩
  exact digitValue?_digitChar letters hdigit

/-- Digits read after a number append themselves to it. -/
theorem foldlM_digits_eq_some_iff (start : Nat) :
    chars.foldlM (fun n c => (digitValue? c).map (16 * n + ·)) start = some n ↔
      ∃ digits, List.Forall₂ Writes chars digits ∧
        start * 16 ^ chars.length + Nat.ofDigits 16 digits.reverse = n := by
  induction chars generalizing start with
  | nil =>
    simp only [List.foldlM_nil, List.forall₂_nil_left_iff, exists_eq_left, List.length_nil,
      List.reverse_nil, Nat.ofDigits_nil, Nat.pow_zero, Nat.mul_one, Nat.add_zero]
    exact Option.some_inj
  | cons c chars ih =>
    rw [List.foldlM_cons]
    constructor
    · intro hfold
      obtain ⟨next, hnext, hrest⟩ := Option.bind_eq_some_iff.1 hfold
      obtain ⟨digit, hdigit, rfl⟩ := Option.map_eq_some_iff.1 hnext
      obtain ⟨digits, hdigits, hvalue⟩ := (ih _).1 hrest
      refine ⟨digit :: digits, .cons (digitValue?_eq_some_iff.1 hdigit) hdigits, ?_⟩
      rw [List.reverse_cons, Nat.ofDigits_append, List.length_reverse, ← hdigits.length_eq,
        Nat.ofDigits_singleton, ← hvalue, List.length_cons]
      ring
    · rintro ⟨digits, hdigits, hvalue⟩
      cases hdigits with
      | @cons _ digit _ digits hdigit hdigits =>
        refine Option.bind_eq_some_iff.2 ⟨16 * start + digit, ?_, ?_⟩
        · rw [digitValue?_eq_some_iff.2 hdigit]
          rfl
        · refine (ih _).2 ⟨digits, hdigits, ?_⟩
          rw [List.reverse_cons, Nat.ofDigits_append, List.length_reverse, ← hdigits.length_eq,
            Nat.ofDigits_singleton, List.length_cons] at hvalue
          rw [← hvalue]
          ring

theorem spells_iff : Spells chars n ↔ chars ≠ [] ∧ value? chars = some n := by
  rw [Spells, value?, foldlM_digits_eq_some_iff]
  simp only [Nat.zero_mul, Nat.zero_add]

theorem spells_padded (letters : LetterCase) (width n : Nat) :
    Spells (padded letters width n).toList n := by
  refine spells_iff.2 ⟨?_, value?_padded letters width n⟩
  simp [padded, ← List.length_eq_zero_iff, digitCount]

/-- No letter of a mark is a digit. -/
theorem Spells.second_not_mark {first second : Char} {rest : List Char}
    (hspells : Spells (first :: second :: rest) n) : second ≠ 'x' ∧ second ≠ 'X' := by
  obtain ⟨-, digits, hdigits, -⟩ := hspells
  obtain ⟨digit, hdigit⟩ : ∃ digit, Writes second digit := by
    cases hdigits with
    | cons _ hrest =>
      cases hrest with
      | cons hsecond _ => exact ⟨_, hsecond⟩
  have hvalue := digitValue?_eq_some_iff.2 hdigit
  constructor <;> rintro rfl <;> exact nomatch hvalue

end Hexadecimal

/-! ## Addresses -/

namespace Address

/-- The text is the number in hexadecimal, after one mark or none. -/
def Spells (text : String) (n : Nat) : Prop :=
  ∃ mark ∈ ["", "0x", "0X"], ∃ numeral : String, text = mark ++ numeral ∧
    Hexadecimal.Spells numeral.toList n

/-- The complaint about an address that pointers cannot hold. -/
def misfit (text : String) (width : PointerWidth) : ScanError :=
  .malformedAddress s!"{text} does not fit in {width.bytes} bytes"

variable {text : String} {address : Address} {width : PointerWidth} {n : Nat}

/-- A numeral without a mark is left whole. -/
theorem spelledDigits_of_spells {chars : List Char} (hspells : Hexadecimal.Spells chars n) :
    spelledDigits chars = chars := by
  unfold spelledDigits
  split
  · exact absurd rfl hspells.second_not_mark.1
  · exact absurd rfl hspells.second_not_mark.2
  · rfl

theorem spells_iff : Spells text n ↔ Hexadecimal.Spells (spelledDigits text.toList) n := by
  constructor
  · rintro ⟨mark, hmark, numeral, rfl, hspells⟩
    simp only [List.mem_cons, List.not_mem_nil, or_false] at hmark
    rcases hmark with rfl | rfl | rfl
    · rwa [String.empty_append, spelledDigits_of_spells hspells]
    · simpa [spelledDigits] using hspells
    · simpa [spelledDigits] using hspells
  · intro hspells
    unfold spelledDigits at hspells
    split at hspells
    · next digits htext =>
      have hsplit : text = "0x" ++ String.ofList digits := by simp [← String.toList_inj, htext]
      exact ⟨"0x", by simp, _, hsplit, by simpa using hspells⟩
    · next digits htext =>
      have hsplit : text = "0X" ++ String.ofList digits := by simp [← String.toList_inj, htext]
      exact ⟨"0X", by simp, _, hsplit, by simpa using hspells⟩
    · exact ⟨"", by simp, text, (String.empty_append).symm, hspells⟩

/-- A text spells at most one number. -/
theorem Spells.unique {m : Nat} (hn : Spells text n) (hm : Spells text m) : n = m := by
  rw [spells_iff, Hexadecimal.spells_iff] at hn hm
  exact Option.some.inj (hn.2.symm.trans hm.2)

/-! ## Reading -/

/-- A number that is spelled is read, if the pointers can hold it. -/
theorem parse_of_spells (hspells : Spells text address.val) :
    parse text width =
      if address.val ≤ width.maxValue then .ok address else .error (misfit text width) := by
  obtain ⟨hsome, hvalue⟩ := Hexadecimal.spells_iff.1 (spells_iff.1 hspells)
  have haddress : ofNat? address.val = some address := dif_pos address.val_lt
  unfold parse
  split
  · contradiction
  · simp only [hvalue, Option.bind_some, haddress]
    rfl

/-- A text that spells no address at all is refused as it is. -/
theorem parse_of_not_spells (hnot : ∀ address : Address, ¬Spells text address.val) :
    parse text width = .error (.malformedAddress text) := by
  unfold parse
  split
  · rfl
  · next hsome =>
    have hnone : (Hexadecimal.value? (spelledDigits text.toList)).bind ofNat? = none := by
      rw [Option.bind_eq_none_iff]
      intro n hvalue
      refine dif_neg fun hn => hnot ⟨n, hn⟩ ?_
      exact spells_iff.2 (Hexadecimal.spells_iff.2 ⟨hsome, hvalue⟩)
    rw [hnone]

theorem parse_eq_ok_iff :
    parse text width = .ok address ↔
      Spells text address.val ∧ address.val ≤ width.maxValue := by
  constructor
  · intro hparse
    by_cases hspelled : ∃ found : Address, Spells text found.val
    · obtain ⟨found, hfound⟩ := hspelled
      rw [parse_of_spells hfound] at hparse
      split at hparse
      · next hfits =>
        obtain rfl := Except.ok.inj hparse
        exact ⟨hfound, hfits⟩
      · contradiction
    · rw [parse_of_not_spells (not_exists.1 hspelled)] at hparse
      contradiction
  · rintro ⟨hspells, hfits⟩
    rw [parse_of_spells hspells, if_pos hfits]

/-- A text that is not read is refused as malformed, either as it is or because its
number is too large for the pointers. -/
theorem exists_parse_eq_error (hnot : ∀ address : Address, address.val ≤ width.maxValue →
    ¬Spells text address.val) :
    ∃ reason ∈ [text, s!"{text} does not fit in {width.bytes} bytes"],
      parse text width = .error (.malformedAddress reason) := by
  by_cases hspelled : ∃ found : Address, Spells text found.val
  · obtain ⟨found, hfound⟩ := hspelled
    have hlarge : ¬found.val ≤ width.maxValue := fun hfits => hnot found hfits hfound
    refine ⟨_, List.mem_cons_of_mem _ List.mem_cons_self, ?_⟩
    rw [parse_of_spells hfound, if_neg hlarge]
    rfl
  · exact ⟨text, List.mem_cons_self, parse_of_not_spells (not_exists.1 hspelled)⟩

/-- There is no other reason to refuse a text. -/
theorem exists_reason_of_parse_eq_error {error : ScanError}
    (herror : parse text width = .error error) : ∃ reason, error = .malformedAddress reason := by
  have hnot : ∀ address : Address, address.val ≤ width.maxValue → ¬Spells text address.val := by
    intro address hfits hspells
    rw [parse_eq_ok_iff.2 ⟨hspells, hfits⟩] at herror
    contradiction
  obtain ⟨reason, -, hreason⟩ := exists_parse_eq_error hnot
  exact ⟨reason, Except.error.inj (herror.symm.trans hreason)⟩

/-! ## Spelled addresses -/

theorem spells_hex (address : Address) (letters : Hexadecimal.LetterCase) (digits : Nat) :
    Spells (address.hex letters digits) address.val :=
  ⟨"0x", by simp, _, rfl, Hexadecimal.spells_padded letters digits address.val⟩

/-- The numeral of an address, of any width, is read as the address if pointers can
hold it. -/
theorem parse_hex (address : Address) (letters : Hexadecimal.LetterCase) (digits : Nat)
    (width : PointerWidth) :
    parse (address.hex letters digits) width =
      if address.val ≤ width.maxValue then .ok address
      else .error (misfit (address.hex letters digits) width) :=
  parse_of_spells (spells_hex address letters digits)

/-- A mark before a numeral makes no difference to what is read. -/
theorem parse_mark_append {mark numeral : String} (hmark : mark ∈ ["0x", "0X"])
    (hspells : Hexadecimal.Spells numeral.toList n) :
    (parse (mark ++ numeral) width).toOption = (parse numeral width).toOption := by
  have hbare : Spells numeral n := ⟨"", by simp, numeral, String.empty_append.symm, hspells⟩
  have hmarked : Spells (mark ++ numeral) n :=
    ⟨mark, List.mem_cons_of_mem _ hmark, numeral, rfl, hspells⟩
  have hsame (m : Nat) : Spells (mark ++ numeral) m ↔ Spells numeral m :=
    ⟨fun h => hmarked.unique h ▸ hbare, fun h => hbare.unique h ▸ hmarked⟩
  by_cases hspelled : ∃ found : Address, Spells numeral found.val
  · obtain ⟨found, hfound⟩ := hspelled
    rw [parse_of_spells hfound, parse_of_spells ((hsame _).2 hfound)]
    split <;> rfl
  · have hnot := not_exists.1 hspelled
    rw [parse_of_not_spells hnot, parse_of_not_spells fun found => mt (hsame _).1 (hnot found)]
    rfl

/-- The texts that are read as an address are its spellings in hexadecimal, of which
the number is no larger than pointers can hold; every other text is malformed.  An
address is read back from its display, and from a numeral with a mark as from the
numeral alone. -/
theorem parse_eq_ok_iff_spells (width : PointerWidth) :
    (∀ text address, parse text width = .ok address ↔
      Spells text address.val ∧ address.val ≤ width.maxValue) ∧
    (∀ text, (¬∃ n ≤ width.maxValue, Spells text n) →
      ∃ reason ∈ [text, s!"{text} does not fit in {width.bytes} bytes"],
        parse text width = .error (.malformedAddress reason)) ∧
    (∀ address : Address, address.val ≤ width.maxValue →
      parse (address.display width) width = .ok address) ∧
    ∀ mark ∈ ["0x", "0X"], ∀ numeral n, Hexadecimal.Spells numeral.toList n →
      (parse (mark ++ numeral) width).toOption = (parse numeral width).toOption := by
  refine ⟨fun _ _ => parse_eq_ok_iff, fun text hnot => ?_, fun address hfits => ?_,
    fun mark hmark numeral n => parse_mark_append hmark⟩
  · exact exists_parse_eq_error fun address hfits hspells => hnot ⟨_, hfits, hspells⟩
  · rw [display, parse_hex, if_pos hfits]

/-- Letters of both cases, a mark that is repeated, the largest pointer of 32 bits, and
leading zeros. -/
theorem parse_edges :
    Spells "0XdeadBEEF" 0xDEADBEEF ∧
    parse "0XdeadBEEF" .bits32 = .ok (.ofNat 0xDEADBEEF) ∧
    (∃ reason, parse "0x0x1" .bits64 = .error (.malformedAddress reason)) ∧
    parse ((ofNat 0xFFFFFFFF).display .bits32) .bits32 = .ok (.ofNat 0xFFFFFFFF) ∧
    (parse ("0x" ++ "00000000000000000001") .bits64).toOption =
      (parse "00000000000000000001" .bits64).toOption := by
  obtain ⟨hread, -, hdisplay, -⟩ := parse_eq_ok_iff_spells .bits32
  obtain ⟨-, hrefused, -, hmark⟩ := parse_eq_ok_iff_spells .bits64
  have hletters : Spells "0XdeadBEEF" 0xDEADBEEF :=
    spells_iff.2 (Hexadecimal.spells_iff.2 ⟨by decide +kernel, by decide +kernel⟩)
  refine ⟨hletters, (hread _ _).2 ⟨hletters, by decide⟩, ?_, hdisplay _ (by decide),
    hmark "0x" (by decide) _ 1 (Hexadecimal.spells_iff.2 ⟨by decide +kernel, by decide +kernel⟩)⟩
  have hrepeated : ¬∃ n ≤ PointerWidth.maxValue .bits64, Spells "0x0x1" n := by
    rintro ⟨n, -, hspells⟩
    exact (spells_iff.1 hspells).second_not_mark.1 rfl
  obtain ⟨reason, -, herror⟩ := hrefused _ hrepeated
  exact ⟨reason, herror⟩

end Address

end Rtti
