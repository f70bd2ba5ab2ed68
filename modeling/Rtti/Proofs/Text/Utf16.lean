import Mathlib.Tactic.SplitIfs
import Rtti.Proofs.Text.Utf8
import Rtti.Text.Utf16

/-!
# UTF-16 code units of a text

`Utf16.encode` writes a text in code units: a character beyond U+FFFF takes a
surrogate pair, any other a unit of its own.  `decodeUnits?_eq_some_iff` says that
the reading of code units is strict, which accepts what is so written and nothing
else.  It follows from `decodeOnto_encodeChar`, which reads one character off the
front, and `eq_flatMap_of_decodeOnto`, which takes apart what was read.
-/

namespace Rtti.Utf16

/-- The code units of a character. -/
def encodeChar (c : Char) : List Nat :=
  if c.toNat < 0x10000 then [c.toNat]
  else [0xD800 + (c.toNat - 0x10000) / 0x400, 0xDC00 + (c.toNat - 0x10000) % 0x400]

/-- The code units of a text. -/
def encode (text : String) : List Nat :=
  text.toList.flatMap encodeChar

variable {c : Char} {units rest : List Nat} {done cs : List Char}

theorem isHigh_iff {unit : Nat} : isHigh unit = true ↔ 0xD800 ≤ unit ∧ unit < 0xDC00 := by
  simp [isHigh]

theorem isLow_iff {unit : Nat} : isLow unit = true ↔ 0xDC00 ≤ unit ∧ unit < 0xE000 := by
  simp [isLow]

/-- The number of a character is below the surrogates, or above them and at most
U+10FFFF. -/
theorem toNat_cases (c : Char) : c.toNat < 0xD800 ∨ 0xDFFF < c.toNat ∧ c.toNat < 0x110000 :=
  c.valid

theorem decodeOnto_encodeChar (done : List Char) (c : Char) (rest : List Nat) :
    decodeOnto done (encodeChar c ++ rest) = decodeOnto (c :: done) rest := by
  have hvalid := toNat_cases c
  unfold encodeChar
  split_ifs with hsingle
  · have hnot : ¬isHigh c.toNat = true := by
      rw [isHigh_iff]
      omega
    rw [List.singleton_append, decodeOnto.eq_def]
    simp only [if_neg hnot, Utf8.scalar?_toNat, Option.bind_some]
  · have hhigh : isHigh (0xD800 + (c.toNat - 0x10000) / 0x400) = true := by
      rw [isHigh_iff]
      omega
    have hlow : isLow (0xDC00 + (c.toNat - 0x10000) % 0x400) = true := by
      rw [isLow_iff]
      omega
    have hvalue : pairValue (0xD800 + (c.toNat - 0x10000) / 0x400)
        (0xDC00 + (c.toNat - 0x10000) % 0x400) = c.toNat := by
      unfold pairValue
      omega
    rw [List.cons_append, List.singleton_append, decodeOnto.eq_def]
    simp only [if_pos hhigh, if_pos hlow, hvalue, Utf8.scalar?_toNat, Option.bind_some]

/-- The code units of a list of characters are read as the characters. -/
theorem decodeOnto_flatMap (done cs : List Char) :
    decodeOnto done (cs.flatMap encodeChar) = some (done.reverse ++ cs) := by
  induction cs generalizing done with
  | nil => simp [decodeOnto]
  | cons c cs ih =>
    rw [List.flatMap_cons, decodeOnto_encodeChar, ih]
    simp

theorem encodeChar_of_scalar? {unit : Nat} (hunit : unit < 0x10000)
    (hchar : Utf8.scalar? unit = some c) : encodeChar c = [unit] := by
  obtain rfl := Utf8.toNat_of_scalar? hchar
  rw [encodeChar, if_pos hunit]

theorem encodeChar_of_pair {high low : Nat} (hhigh : isHigh high = true) (hlow : isLow low = true)
    (hchar : Utf8.scalar? (pairValue high low) = some c) : encodeChar c = [high, low] := by
  have hnumber := Utf8.toNat_of_scalar? hchar
  rw [isHigh_iff] at hhigh
  rw [isLow_iff] at hlow
  unfold pairValue at hnumber
  rw [encodeChar, if_neg (by omega), show 0xD800 + (c.toNat - 0x10000) / 0x400 = high by omega,
    show 0xDC00 + (c.toNat - 0x10000) % 0x400 = low by omega]

/-- What is read begins with the characters read before, and the units are those
of the others. -/
theorem eq_flatMap_of_decodeOnto (hunits : ∀ unit ∈ units, unit < 0x10000)
    (hread : decodeOnto done units = some cs) :
    ∃ more, cs = done.reverse ++ more ∧ units = more.flatMap encodeChar := by
  fun_induction decodeOnto done units with
  | case1 done =>
    obtain rfl := Option.some.inj hread
    exact ⟨[], by simp, rfl⟩
  | case2 done high hhigh low rest hlow ih =>
    obtain ⟨c, hchar, hrest⟩ := Option.bind_eq_some_iff.1 hread
    have hrestUnits := (List.forall_mem_cons.1 (List.forall_mem_cons.1 hunits).2).2
    exact Utf8.exists_cons_flatMap (encodeChar_of_pair hhigh hlow hchar) (ih c hrestUnits hrest)
  | case5 done unit rest _ ih =>
    obtain ⟨c, hchar, hrest⟩ := Option.bind_eq_some_iff.1 hread
    obtain ⟨hunit, hrestUnits⟩ := List.forall_mem_cons.1 hunits
    exact Utf8.exists_cons_flatMap (encodeChar_of_scalar? hunit hchar) (ih c hrestUnits hrest)
  | _ => contradiction

/-- Exactly the code units of a text are read as the text. -/
theorem decodeUnits?_eq_some_iff (hunits : ∀ unit ∈ units, unit < 0x10000) {text : String} :
    decodeUnits? units = some text ↔ encode text = units := by
  constructor
  · intro hread
    obtain ⟨cs, hcs, rfl⟩ := Option.map_eq_some_iff.1 hread
    obtain ⟨more, rfl, rfl⟩ := eq_flatMap_of_decodeOnto hunits hcs
    rw [encode, String.toList_ofList]
  · rintro rfl
    rw [decodeUnits?, encode, decodeOnto_flatMap]
    simp

/-- The code units of a byte string are 16-bit numbers. -/
theorem lt_of_mem_units {bytes : List UInt8} {unit : Nat} (hunit : unit ∈ Utf16.units bytes) :
    unit < 0x10000 := by
  fun_induction Utf16.units bytes with
  | case1 b₀ b₁ rest ih =>
    rcases List.mem_cons.1 hunit with rfl | hrest
    · have := b₀.toNat_lt
      have := b₁.toNat_lt
      omega
    · exact ih hrest
  | case2 => contradiction

/-- The code units of a character do not begin those of another. -/
theorem eq_of_prefix_encodeChar {d : Char} (hbegins : encodeChar c <+: encodeChar d) : c = d := by
  have hunits : ∀ unit ∈ encodeChar d, unit < 0x10000 := by
    have := toNat_cases d
    unfold encodeChar
    split_ifs
    · simpa
    · simp
      omega
  obtain ⟨rest, hrest⟩ := hbegins
  have hread := decodeOnto_flatMap [] [d]
  rw [List.flatMap_singleton, ← hrest, decodeOnto_encodeChar] at hread
  rw [← hrest, List.forall_mem_append] at hunits
  obtain ⟨more, hmore, -⟩ := eq_flatMap_of_decodeOnto hunits.2 hread
  exact (List.cons.inj hmore).1.symm

/-- Only the null character has a code unit that is zero. -/
theorem eq_null_of_zero_mem (hzero : 0 ∈ encodeChar c) : c = '\x00' := by
  unfold encodeChar at hzero
  split_ifs at hzero
  · exact Char.toNat_inj.1 (List.mem_singleton.1 hzero).symm
  · simp only [List.mem_cons, List.not_mem_nil, or_false] at hzero
    omega

end Rtti.Utf16
