import Mathlib.Data.List.Basic
import Mathlib.Data.List.TakeWhile
import Rtti.Bytes.Word
import Rtti.Proofs.Bytes.Occurrences
import Rtti.Proofs.Text.Utf16
import Rtti.Text.Encoding

/-!
# Texts in code units

What a text is in either encoding, in terms of code units: `TextEncoding.encode`
writes it, `TextEncoding.codeUnits` gives the units of a byte string, and
`TextEncoding.IsTextOf` says which text some units hold.

`TextEncoding.isTextOf_decode` says that this is the text that is decoded,
`TextEncoding.prefix_of_encode` that the units of a text begin those of
another only if the text begins the other, and
`TextEncoding.codeUnits_take_findAligned` that the search for a zero unit at
multiples of the unit size stops before the first unit that is zero.
-/

namespace Rtti.TextEncoding

/-! ## Code units -/

/-- The code units of a character. -/
def encodeChar : TextEncoding → Char → List Nat
  | utf8, c => (String.utf8EncodeChar c).map UInt8.toNat
  | utf16, c => Utf16.encodeChar c

/-- The code units of a text. -/
def encode (encoding : TextEncoding) (text : String) : List Nat :=
  text.toList.flatMap encoding.encodeChar

/-- The code units of a byte string.  An odd byte at the end is no unit of two
bytes. -/
def codeUnits : TextEncoding → List UInt8 → List Nat
  | utf8, bytes => bytes.map UInt8.toNat
  | utf16, bytes => Utf16.units bytes

/-- The text that code units hold is the one that is written with them; units
that no text is written with hold the empty text. -/
def IsTextOf (encoding : TextEncoding) (text : String) (units : List Nat) : Prop :=
  encoding.encode text = units ∨ text = "" ∧ ∀ other, encoding.encode other ≠ units

variable {encoding : TextEncoding} {text other : String} {bytes : List UInt8} {units : List Nat}
  {c d : Char}

theorem encode_utf8 (text : String) : utf8.encode text = (Utf8.encode text).map UInt8.toNat := by
  rw [encode, Utf8.encode, List.map_flatMap]
  rfl

theorem toNat_injective : Function.Injective UInt8.toNat := fun _ _ => UInt8.toNat_inj.1

/-- Decoding is strict. -/
theorem decode?_eq_some_iff :
    encoding.decode? bytes = some text ↔ encoding.encode text = encoding.codeUnits bytes := by
  cases encoding with
  | utf8 =>
    rw [encode_utf8, codeUnits, (List.map_injective_iff.2 toNat_injective).eq_iff, decode?,
      Utf8.decode?_eq_some_iff]
  | utf16 => exact Utf16.decodeUnits?_eq_some_iff fun _ => Utf16.lt_of_mem_units

/-- The text that is decoded is that of the code units. -/
theorem isTextOf_decode (encoding : TextEncoding) (bytes : List UInt8) :
    encoding.IsTextOf (encoding.decode bytes) (encoding.codeUnits bytes) := by
  unfold decode
  cases hread : encoding.decode? bytes with
  | some text => exact .inl (decode?_eq_some_iff.1 hread)
  | none =>
    refine .inr ⟨rfl, fun other hother => ?_⟩
    rw [← decode?_eq_some_iff, hread] at hother
    contradiction

/-! ## Prefixes -/

theorem eq_of_prefix_encodeChar (hbegins : encoding.encodeChar c <+: encoding.encodeChar d) :
    c = d := by
  cases encoding with
  | utf8 =>
    apply Utf8.eq_of_prefix_encodeChar
    rwa [encodeChar, encodeChar, List.prefix_map_iff_of_injective toNat_injective] at hbegins
  | utf16 => exact Utf16.eq_of_prefix_encodeChar hbegins

theorem encodeChar_ne_nil : encoding.encodeChar c ≠ [] := by
  intro hnil
  obtain rfl : c = 'a' := @eq_of_prefix_encodeChar encoding c 'a' (hnil ▸ List.nil_prefix)
  revert hnil
  cases encoding <;> decide

/-- Of two characters that begin the same units, the first units are those of
both. -/
theorem prefix_of_flatMap {cs ds : List Char}
    (hbegins : cs.flatMap encoding.encodeChar <+: ds.flatMap encoding.encodeChar) : cs <+: ds := by
  induction cs generalizing ds with
  | nil => exact List.nil_prefix
  | cons c cs ih =>
    cases ds with
    | nil =>
      rw [List.flatMap_cons, List.flatMap_nil, List.prefix_nil, List.append_eq_nil_iff] at hbegins
      exact absurd hbegins.1 encodeChar_ne_nil
    | cons d ds =>
      rw [List.flatMap_cons, List.flatMap_cons] at hbegins
      have hfirst : c = d := by
        rcases List.prefix_or_prefix_of_prefix ((List.prefix_append _ _).trans hbegins)
          (List.prefix_append _ _) with h | h
        · exact eq_of_prefix_encodeChar h
        · exact (eq_of_prefix_encodeChar h).symm
      subst hfirst
      rw [List.prefix_append_right_inj] at hbegins
      exact List.cons_prefix_cons.2 ⟨rfl, ih hbegins⟩

/-- The units of a text begin those of another only if the text begins the
other. -/
theorem prefix_of_encode (hbegins : encoding.encode text <+: encoding.encode other) :
    text.toList <+: other.toList :=
  prefix_of_flatMap hbegins

theorem encode_injective (encoding : TextEncoding) : Function.Injective encoding.encode := by
  intro text other heq
  apply String.toList_injective
  have hunits : encoding.encode text <+: encoding.encode other := by
    simp only [heq, List.prefix_rfl]
  have hunits' : encoding.encode other <+: encoding.encode text := by
    simp only [heq, List.prefix_rfl]
  have hle := prefix_of_encode hunits
  have hge := prefix_of_encode hunits'
  exact hle.eq_of_length (Nat.le_antisymm hle.length_le hge.length_le)

/-- Code units hold one text. -/
theorem IsTextOf.unique (htext : encoding.IsTextOf text units)
    (hother : encoding.IsTextOf other units) : text = other := by
  rcases htext with htext | ⟨rfl, hnone⟩
  · rcases hother with hother | ⟨rfl, hnone⟩
    · exact encoding.encode_injective (htext.trans hother.symm)
    · exact absurd htext (hnone text)
  · rcases hother with hother | ⟨rfl, -⟩
    · exact absurd hother (hnone other)
    · rfl

/-! ## Zero units -/

/-- A text without the null character has no unit that is zero. -/
theorem zero_not_mem_encode (hnull : '\x00' ∉ text.toList) : 0 ∉ encoding.encode text := by
  intro hmem
  obtain ⟨c, hc, hzero⟩ := List.mem_flatMap.1 hmem
  suffices c = '\x00' from hnull (this ▸ hc)
  cases encoding with
  | utf8 =>
    obtain ⟨b, hb, hzero⟩ := List.mem_map.1 hzero
    obtain rfl : b = 0 := UInt8.toNat_inj.1 hzero
    exact Utf8.eq_null_of_zero_mem hb
  | utf16 => exact Utf16.eq_null_of_zero_mem hzero

/-! ## Whole units -/

theorem unitSize_pos (encoding : TextEncoding) : 0 < encoding.unitSize := by
  cases encoding <;> decide

theorem length_unit_append {count : Nat} {first rest : List UInt8}
    (hfirst : first.length = encoding.unitSize) (hrest : rest.length = count * encoding.unitSize) :
    (first ++ rest).length = (count + 1) * encoding.unitSize := by
  rw [List.length_append, hfirst, hrest, Nat.succ_mul, Nat.add_comm]

/-- A byte string of whole units is empty or begins with one. -/
@[elab_as_elim]
theorem units_induction
    {motive : (count : Nat) → (bytes : List UInt8) →
      bytes.length = count * encoding.unitSize → Prop}
    (nil : motive 0 [] (Nat.zero_mul _).symm)
    (append : ∀ count first rest (hfirst : first.length = encoding.unitSize)
      (hrest : rest.length = count * encoding.unitSize), motive count rest hrest →
        motive (count + 1) (first ++ rest) (length_unit_append hfirst hrest))
    {count : Nat} {bytes : List UInt8} (hbytes : bytes.length = count * encoding.unitSize) :
    motive count bytes hbytes := by
  induction count generalizing bytes with
  | zero =>
    obtain rfl : bytes = [] := by simpa using hbytes
    exact nil
  | succ count ih =>
    have hsize := hbytes
    rw [Nat.succ_mul] at hsize
    have hfirst : (bytes.take encoding.unitSize).length = encoding.unitSize := by
      rw [List.length_take]
      omega
    have hrest : (bytes.drop encoding.unitSize).length = count * encoding.unitSize := by
      rw [List.length_drop]
      omega
    have hwhole := append count _ _ hfirst hrest (ih hrest)
    simpa only [List.take_append_drop] using hwhole

theorem codeUnits_append {first : List UInt8} (hfirst : first.length = encoding.unitSize)
    (rest : List UInt8) :
    encoding.codeUnits (first ++ rest) = Word.ofBytes first :: encoding.codeUnits rest := by
  cases encoding with
  | utf8 =>
    obtain ⟨b, rfl⟩ := List.length_eq_one_iff.1 hfirst
    rfl
  | utf16 =>
    obtain ⟨b₀, b₁, rfl⟩ := List.length_eq_two.1 hfirst
    rfl

theorem codeUnits_nil (encoding : TextEncoding) : encoding.codeUnits [] = [] := by
  cases encoding <;> rfl

/-- The units after whole units are those of the bytes after them. -/
theorem codeUnits_whole_append {count : Nat} (hbytes : bytes.length = count * encoding.unitSize)
    (rest : List UInt8) :
    encoding.codeUnits (bytes ++ rest) = encoding.codeUnits bytes ++ encoding.codeUnits rest := by
  induction hbytes using units_induction with
  | nil => rw [codeUnits_nil, List.nil_append, List.nil_append]
  | append count first later hfirst _ ih =>
    rw [List.append_assoc, codeUnits_append hfirst, codeUnits_append hfirst, ih, List.cons_append]

theorem length_codeUnits {count : Nat} (hbytes : bytes.length = count * encoding.unitSize) :
    (encoding.codeUnits bytes).length = count := by
  induction hbytes using units_induction with
  | nil => rw [codeUnits_nil, List.length_nil]
  | append count first rest hfirst hrest ih =>
    rw [codeUnits_append hfirst, List.length_cons, ih]

/-- The first units are those of the first bytes. -/
theorem codeUnits_take {count : Nat} (hbytes : bytes.length = count * encoding.unitSize)
    (kept : Nat) :
    encoding.codeUnits (bytes.take (encoding.unitSize * kept)) =
      (encoding.codeUnits bytes).take kept := by
  induction hbytes using units_induction generalizing kept with
  | nil => rw [List.take_nil, codeUnits_nil, List.take_nil]
  | append count first rest hfirst hrest ih =>
    cases kept with
    | zero => rw [Nat.mul_zero, List.take_zero, List.take_zero, codeUnits_nil]
    | succ kept =>
      rw [Nat.mul_succ, Nat.add_comm, ← hfirst, List.take_length_add_append,
        codeUnits_append hfirst, codeUnits_append hfirst, List.take_succ_cons, hfirst, ih]

/-! ## The first zero unit -/

open Pattern

theorem zeros_unitSize_ne_nil (encoding : TextEncoding) : zeros encoding.unitSize ≠ [] := by
  cases encoding <;> decide

theorem codeUnits_zeros_append (encoding : TextEncoding) (rest : List UInt8) :
    encoding.codeUnits (zeros encoding.unitSize ++ rest) = 0 :: encoding.codeUnits rest := by
  cases encoding <;> rfl

theorem zeros_prefix_unit_append_iff {first : List UInt8}
    (hfirst : first.length = encoding.unitSize) (rest : List UInt8) :
    zeros encoding.unitSize <+: first ++ rest ↔ Word.ofBytes first = 0 := by
  cases encoding with
  | utf8 =>
    obtain ⟨b, rfl⟩ := List.length_eq_one_iff.1 hfirst
    simp [unitSize, zeros, List.cons_prefix_cons, Word.ofBytes, ← UInt8.toNat_inj, eq_comm]
  | utf16 =>
    obtain ⟨b₀, b₁, rfl⟩ := List.length_eq_two.1 hfirst
    simp only [unitSize, zeros, List.replicate, List.cons_append, List.nil_append,
      List.cons_prefix_cons, List.nil_prefix, and_true, Word.ofBytes, ← UInt8.toNat_inj]
    simp only [UInt8.toNat_zero]
    omega

/-- A search that does not end where a unit begins goes on where the next one
does. -/
theorem findFrom_zeros_unit_append {first : List UInt8} {index : Nat}
    (hfirst : first.length = encoding.unitSize) (hindex : index % encoding.unitSize = 0)
    (hunit : Word.ofBytes first ≠ 0) (rest : List UInt8) :
    findFrom (zeros encoding.unitSize) encoding.unitSize index (first ++ rest) =
      findFrom (zeros encoding.unitSize) encoding.unitSize (index + encoding.unitSize) rest := by
  have hmiss : ¬(index % encoding.unitSize = 0 ∧ zeros encoding.unitSize <+: first ++ rest) :=
    fun h => hunit ((zeros_prefix_unit_append_iff hfirst rest).1 h.2)
  cases encoding with
  | utf8 =>
    obtain ⟨b, rfl⟩ := List.length_eq_one_iff.1 hfirst
    exact findFrom_cons_of_not hmiss
  | utf16 =>
    obtain ⟨b₀, b₁, rfl⟩ := List.length_eq_two.1 hfirst
    refine (findFrom_cons_of_not hmiss).trans (findFrom_cons_of_not fun h => ?_)
    have hodd := h.1
    simp only [unitSize] at hindex hodd
    omega

/-- The search ends before the first unit that is zero, or at the end. -/
theorem getD_findFrom_zeros {count index : Nat} (hbytes : bytes.length = count * encoding.unitSize)
    (hindex : index % encoding.unitSize = 0) :
    (findFrom (zeros encoding.unitSize) encoding.unitSize index bytes).getD
        (index + bytes.length) =
      index + encoding.unitSize * ((encoding.codeUnits bytes).takeWhile (· ≠ 0)).length := by
  induction hbytes using units_induction generalizing index with
  | nil =>
    have hmiss : ¬zeros encoding.unitSize <+: [] :=
      mt List.prefix_nil.1 encoding.zeros_unitSize_ne_nil
    rw [codeUnits_nil, findFrom_nil_of_not fun hbegins => hmiss hbegins.2]
    rfl
  | append count first rest hfirst hrest ih =>
    rw [codeUnits_append hfirst]
    by_cases hunit : Word.ofBytes first = 0
    · have hbegins := (zeros_prefix_unit_append_iff hfirst rest).2 hunit
      rw [findFrom_eq_some hindex hbegins, List.takeWhile_cons_of_neg (by simpa using hunit)]
      rfl
    · have hnext := @ih (index + encoding.unitSize) (by rwa [Nat.add_mod_right])
      rw [findFrom_zeros_unit_append hfirst hindex hunit,
        List.takeWhile_cons_of_pos (by simpa using hunit), List.length_append, hfirst,
        ← Nat.add_assoc, hnext, List.length_cons, Nat.mul_succ]
      omega

/-- The bytes before the first zero unit are those of the units before it. -/
theorem codeUnits_take_findAligned {count : Nat}
    (hbytes : bytes.length = count * encoding.unitSize) :
    encoding.codeUnits (bytes.take ((findAligned (zeros encoding.unitSize) bytes
      encoding.unitSize).getD bytes.length)) = (encoding.codeUnits bytes).takeWhile (· ≠ 0) := by
  have hlength := getD_findFrom_zeros hbytes (Nat.zero_mod _)
  rw [Nat.zero_add, Nat.zero_add] at hlength
  rw [findAligned_of_ne_nil encoding.zeros_unitSize_ne_nil,
    Nat.max_eq_left encoding.unitSize_pos, hlength, codeUnits_take hbytes]
  exact (List.prefix_iff_eq_take.1 (List.takeWhile_prefix _)).symm

/-- Units that begin with a text and a zero unit, as far as they fit, hold the text up to
the first zero unit, as far as it fits. -/
theorem takeWhile_of_begins {stored held : List Nat} (hzero : 0 ∉ stored)
    (hbegins : (stored ++ [0]).take held.length <+: held) :
    held.takeWhile (· ≠ 0) = stored.take held.length := by
  rcases Nat.lt_or_ge stored.length held.length with hwhole | hcut
  · rw [List.take_of_length_le (by simpa using Nat.succ_le_of_lt hwhole)] at hbegins
    rw [List.take_of_length_le (Nat.le_of_lt hwhole)]
    obtain ⟨rest, rfl⟩ := hbegins
    have hstored : ∀ unit ∈ stored, decide (unit ≠ 0) = true := fun unit hunit => by
      simpa using ne_of_mem_of_not_mem hunit hzero
    rw [List.append_assoc, List.singleton_append, List.takeWhile_append_of_pos hstored,
      List.takeWhile_cons_of_neg (by simp), List.append_nil]
  · rw [List.take_append_of_le_length hcut] at hbegins
    have hheld := hbegins.eq_of_length (by rw [List.length_take, Nat.min_eq_left hcut])
    rw [hheld, List.takeWhile_eq_self_iff]
    intro unit hunit
    rw [← hheld] at hunit
    simpa using ne_of_mem_of_not_mem (List.mem_of_mem_take hunit) hzero

end Rtti.TextEncoding
