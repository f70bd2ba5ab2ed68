import Mathlib.Tactic.SplitIfs
import Rtti.Text.Utf8

/-!
# Reading UTF-8 back

`decode?_encode` says that the bytes of every text are read as the text, by
`decodeOnto_encodeChar`, which reads one character off the front.  Only the null
character has a zero byte (`eq_null_of_zero_mem`), so a zero byte after a text
without it marks the end of the text.

`decode?_eq_some_iff` says that the reading is strict: no other bytes are read as
a text.  `eq_flatMap_of_decodeOnto` follows the four lengths that a character can
have.
-/

namespace Rtti.Utf8

/-- The number of a character gives the character. -/
theorem scalar?_toNat (c : Char) : scalar? c.toNat = some c := by
  have hvalid : c.toNat.isValidChar := c.valid
  rw [scalar?, dif_pos hvalid]
  rfl

/-- A continuation byte adds its six bits. -/
theorem assemble?_cons {lead bits : Nat} {continuation : List UInt8} (hbits : bits < 64) :
    assemble? lead (UInt8.ofNat (bits + 0x80) :: continuation) =
      assemble? (64 * lead + bits) continuation := by
  have hbyte : (UInt8.ofNat (bits + 0x80)).toNat = bits + 0x80 :=
    UInt8.toNat_ofNat_of_lt' (by simp only [UInt8.size]; omega)
  have hrange : 0x80 ≤ UInt8.ofNat (bits + 0x80) ∧ UInt8.ofNat (bits + 0x80) < 0xC0 := by
    rw [UInt8.le_iff_toNat_le, UInt8.lt_iff_toNat_lt, hbyte]
    simp
    omega
  simp only [assemble?, List.foldlM_cons, hrange, and_self, if_true, hbyte]
  simp

/-- Continuation bytes that add up to the number of a character encode it. -/
theorem char?_eq_some {least lead : Nat} {continuation : List UInt8} {c : Char}
    (hvalue : assemble? lead continuation = some c.toNat) (hleast : least ≤ c.toNat) :
    char? least lead continuation = some c := by
  simp [char?, hvalue, hleast, scalar?_toNat]

/-- The number of a byte that is made of a mark and of bits below it. -/
theorem toNat_ofNat_byte {n : Nat} (hn : n < 256) : (UInt8.ofNat n).toNat = n :=
  UInt8.toNat_ofNat_of_lt' hn

theorem decodeOnto_one {done : List Char} {b : UInt8} {rest : List UInt8} (hb : b.toNat < 0x80) :
    decodeOnto done (b :: rest) = decodeOnto (Char.ofNat b.toNat :: done) rest := by
  rw [decodeOnto.eq_def]
  simp only [UInt8.lt_iff_toNat_lt]
  rw [if_pos (by simpa using hb)]

theorem decodeOnto_two {done : List Char} {b b₁ : UInt8} {rest : List UInt8} {c : Char}
    (hlow : 0xC0 ≤ b.toNat) (hhigh : b.toNat < 0xE0)
    (hchar : char? 0x80 (b.toNat - 0xC0) [b₁] = some c) :
    decodeOnto done (b :: b₁ :: rest) = decodeOnto (c :: done) rest := by
  rw [decodeOnto.eq_def]
  simp only [UInt8.lt_iff_toNat_lt, hchar]
  rw [if_neg (by simp; omega), if_neg (by simp; omega), if_pos (by simpa using hhigh)]

theorem decodeOnto_three {done : List Char} {b b₁ b₂ : UInt8} {rest : List UInt8} {c : Char}
    (hlow : 0xE0 ≤ b.toNat) (hhigh : b.toNat < 0xF0)
    (hchar : char? 0x800 (b.toNat - 0xE0) [b₁, b₂] = some c) :
    decodeOnto done (b :: b₁ :: b₂ :: rest) = decodeOnto (c :: done) rest := by
  rw [decodeOnto.eq_def]
  simp only [UInt8.lt_iff_toNat_lt, hchar]
  rw [if_neg (by simp; omega), if_neg (by simp; omega), if_neg (by simp; omega),
    if_pos (by simpa using hhigh)]

theorem decodeOnto_four {done : List Char} {b b₁ b₂ b₃ : UInt8} {rest : List UInt8} {c : Char}
    (hlow : 0xF0 ≤ b.toNat) (hhigh : b.toNat < 0xF8)
    (hchar : char? 0x10000 (b.toNat - 0xF0) [b₁, b₂, b₃] = some c) :
    decodeOnto done (b :: b₁ :: b₂ :: b₃ :: rest) = decodeOnto (c :: done) rest := by
  rw [decodeOnto.eq_def]
  simp only [UInt8.lt_iff_toNat_lt, hchar]
  rw [if_neg (by simp; omega), if_neg (by simp; omega), if_neg (by simp; omega),
    if_neg (by simp; omega), if_pos (by simpa using hhigh)]

/-- The bytes of a character are read as the character. -/
theorem decodeOnto_encodeChar (done : List Char) (c : Char) (rest : List UInt8) :
    decodeOnto done (String.utf8EncodeChar c ++ rest) = decodeOnto (c :: done) rest := by
  have hmax : c.toNat < 0x110000 := by
    rcases c.valid with h | h
    · exact Nat.lt_trans h (by decide)
    · exact h.2
  unfold String.utf8EncodeChar
  simp only [show c.val.toNat = c.toNat from rfl]
  split_ifs with h₁ h₂ h₃
  · have hlead := toNat_ofNat_byte (n := c.toNat) (by omega)
    rw [List.singleton_append, decodeOnto_one (by omega), hlead, Char.ofNat_toNat]
  · have hlead := toNat_ofNat_byte (n := c.toNat / 64 % 0x20 + 0xC0) (by omega)
    refine decodeOnto_two (by omega) (by omega) (char?_eq_some ?_ (by omega))
    rw [hlead, assemble?_cons (by omega)]
    simp only [assemble?, List.foldlM_nil, Option.pure_def, Option.some.injEq]
    omega
  · have hlead := toNat_ofNat_byte (n := c.toNat / 4096 % 0x10 + 0xE0) (by omega)
    refine decodeOnto_three (by omega) (by omega) (char?_eq_some ?_ (by omega))
    rw [hlead, assemble?_cons (by omega), assemble?_cons (by omega)]
    simp only [assemble?, List.foldlM_nil, Option.pure_def, Option.some.injEq]
    omega
  · have hlead := toNat_ofNat_byte (n := c.toNat / 262144 % 0x08 + 0xF0) (by omega)
    refine decodeOnto_four (by omega) (by omega) (char?_eq_some ?_ (by omega))
    rw [hlead, assemble?_cons (by omega), assemble?_cons (by omega), assemble?_cons (by omega)]
    simp only [assemble?, List.foldlM_nil, Option.pure_def, Option.some.injEq]
    omega

/-- The bytes of a list of characters are read as the characters. -/
theorem decodeOnto_flatMap (done cs : List Char) :
    decodeOnto done (cs.flatMap String.utf8EncodeChar) = some (done.reverse ++ cs) := by
  induction cs generalizing done with
  | nil => simp [decodeOnto]
  | cons c cs ih => rw [List.flatMap_cons, decodeOnto_encodeChar, ih]; simp

/-- The bytes of a text are read as the text. -/
theorem decode?_encode (text : String) : decode? (encode text) = some text := by
  rw [decode?, encode, decodeOnto_flatMap]
  simp

/-- Only the null character has a zero byte. -/
theorem eq_null_of_zero_mem {c : Char} (hzero : 0 ∈ String.utf8EncodeChar c) : c = '\x00' := by
  have hbyte : ∀ n < 256, (0 : UInt8) = UInt8.ofNat n → n = 0 := by
    intro n hn h
    rw [← toNat_ofNat_byte hn, ← h]
    rfl
  have hnumber : c.toNat = 0 := by
    unfold String.utf8EncodeChar at hzero
    simp only [show c.val.toNat = c.toNat from rfl] at hzero
    split_ifs at hzero <;> simp only [List.mem_cons, List.not_mem_nil, or_false] at hzero
    · exact hbyte _ (by omega) hzero
    · rcases hzero with h | h <;> have := hbyte _ (by omega) h <;> omega
    · rcases hzero with h | h | h <;> have := hbyte _ (by omega) h <;> omega
    · rcases hzero with h | h | h | h <;> have := hbyte _ (by omega) h <;> omega
  exact Char.toNat_inj.1 hnumber

/-! ## Strictness -/

theorem toNat_of_scalar? {n : Nat} {c : Char} (hchar : scalar? n = some c) : c.toNat = n := by
  by_cases hvalid : n.isValidChar
  · rw [scalar?, dif_pos hvalid] at hchar
    obtain rfl := Option.some.inj hchar
    rfl
  · rw [scalar?, dif_neg hvalid] at hchar
    contradiction

/-- A byte that is made of a mark and of fewer than `limit` above it. -/
theorem exists_eq_ofNat_add {b : UInt8} {mark : Nat} (limit : Nat) (hmark : mark ≤ b.toNat)
    (hlimit : b.toNat < mark + limit) :
    ∃ bits < limit, b = UInt8.ofNat (bits + mark) ∧ b.toNat - mark = bits := by
  refine ⟨b.toNat - mark, by omega, ?_, rfl⟩
  rw [Nat.sub_add_cancel hmark, UInt8.ofNat_toNat]

/-- Only a continuation byte adds six bits. -/
theorem of_assemble?_cons {lead n : Nat} {b : UInt8} {continuation : List UInt8}
    (hvalue : assemble? lead (b :: continuation) = some n) :
    ∃ bits < 64, b = UInt8.ofNat (bits + 0x80) ∧
      assemble? (64 * lead + bits) continuation = some n := by
  simp only [assemble?, List.foldlM_cons] at hvalue
  split at hvalue
  · next hrange =>
    rw [UInt8.le_iff_toNat_le, UInt8.lt_iff_toNat_lt] at hrange
    obtain ⟨bits, hbits, hb, rfl⟩ := exists_eq_ofNat_add 64 hrange.1 hrange.2
    exact ⟨_, hbits, hb, hvalue⟩
  · contradiction

theorem of_char?_eq_some {least lead : Nat} {continuation : List UInt8} {c : Char}
    (hchar : char? least lead continuation = some c) :
    assemble? lead continuation = some c.toNat ∧ least ≤ c.toNat := by
  obtain ⟨n, hvalue, hscalar⟩ := Option.bind_eq_some_iff.1 hchar
  split at hscalar
  · next hleast =>
    rw [toNat_of_scalar? hscalar]
    exact ⟨hvalue, hleast⟩
  · contradiction

theorem encodeChar_of_one {b : UInt8} (hb : b.toNat < 0x80) :
    String.utf8EncodeChar (Char.ofNat b.toNat) = [b] := by
  have hnumber : (Char.ofNat b.toNat).val.toNat = b.toNat := by
    rw [Char.ofNat, dif_pos (.inl (by omega))]
    rfl
  unfold String.utf8EncodeChar
  simp only [hnumber]
  rw [if_pos (by omega), UInt8.ofNat_toNat]

theorem encodeChar_of_two {b b₁ : UInt8} {c : Char} (hlow : 0xC0 ≤ b.toNat)
    (hhigh : b.toNat < 0xE0) (hchar : char? 0x80 (b.toNat - 0xC0) [b₁] = some c) :
    String.utf8EncodeChar c = [b, b₁] := by
  obtain ⟨hvalue, hleast⟩ := of_char?_eq_some hchar
  obtain ⟨lead, hlead, rfl, hb⟩ := exists_eq_ofNat_add 0x20 hlow hhigh
  obtain ⟨bits, hbits, rfl, hvalue₁⟩ := of_assemble?_cons hvalue
  rw [hb] at hvalue₁
  have hnumber : 64 * lead + bits = c.val.toNat := Option.some.inj hvalue₁
  change 0x80 ≤ c.val.toNat at hleast
  unfold String.utf8EncodeChar
  simp only
  rw [if_neg (by omega), if_pos (by omega), ← hnumber,
    show (64 * lead + bits) / 64 % 0x20 = lead by omega,
    show (64 * lead + bits) % 0x40 = bits by omega]

theorem encodeChar_of_three {b b₁ b₂ : UInt8} {c : Char} (hlow : 0xE0 ≤ b.toNat)
    (hhigh : b.toNat < 0xF0) (hchar : char? 0x800 (b.toNat - 0xE0) [b₁, b₂] = some c) :
    String.utf8EncodeChar c = [b, b₁, b₂] := by
  obtain ⟨hvalue, hleast⟩ := of_char?_eq_some hchar
  obtain ⟨lead, hlead, rfl, hb⟩ := exists_eq_ofNat_add 0x10 hlow hhigh
  obtain ⟨bits₁, hbits₁, rfl, hvalue₁⟩ := of_assemble?_cons hvalue
  obtain ⟨bits₂, hbits₂, rfl, hvalue₂⟩ := of_assemble?_cons hvalue₁
  rw [hb] at hvalue₂
  have hnumber : 64 * (64 * lead + bits₁) + bits₂ = c.val.toNat := Option.some.inj hvalue₂
  change 0x800 ≤ c.val.toNat at hleast
  unfold String.utf8EncodeChar
  simp only
  rw [if_neg (by omega), if_neg (by omega), if_pos (by omega), ← hnumber,
    show (64 * (64 * lead + bits₁) + bits₂) / 4096 % 0x10 = lead by omega,
    show (64 * (64 * lead + bits₁) + bits₂) / 64 % 0x40 = bits₁ by omega,
    show (64 * (64 * lead + bits₁) + bits₂) % 0x40 = bits₂ by omega]

theorem encodeChar_of_four {b b₁ b₂ b₃ : UInt8} {c : Char} (hlow : 0xF0 ≤ b.toNat)
    (hhigh : b.toNat < 0xF8) (hchar : char? 0x10000 (b.toNat - 0xF0) [b₁, b₂, b₃] = some c) :
    String.utf8EncodeChar c = [b, b₁, b₂, b₃] := by
  obtain ⟨hvalue, hleast⟩ := of_char?_eq_some hchar
  obtain ⟨lead, hlead, rfl, hb⟩ := exists_eq_ofNat_add 0x08 hlow hhigh
  obtain ⟨bits₁, hbits₁, rfl, hvalue₁⟩ := of_assemble?_cons hvalue
  obtain ⟨bits₂, hbits₂, rfl, hvalue₂⟩ := of_assemble?_cons hvalue₁
  obtain ⟨bits₃, hbits₃, rfl, hvalue₃⟩ := of_assemble?_cons hvalue₂
  rw [hb] at hvalue₃
  have hnumber : 64 * (64 * (64 * lead + bits₁) + bits₂) + bits₃ = c.val.toNat :=
    Option.some.inj hvalue₃
  change 0x10000 ≤ c.val.toNat at hleast
  unfold String.utf8EncodeChar
  simp only
  rw [if_neg (by omega), if_neg (by omega), if_neg (by omega), ← hnumber,
    show (64 * (64 * (64 * lead + bits₁) + bits₂) + bits₃) / 262144 % 0x08 = lead by omega,
    show (64 * (64 * (64 * lead + bits₁) + bits₂) + bits₃) / 4096 % 0x40 = bits₁ by omega,
    show (64 * (64 * (64 * lead + bits₁) + bits₂) + bits₃) / 64 % 0x40 = bits₂ by omega,
    show (64 * (64 * (64 * lead + bits₁) + bits₂) + bits₃) % 0x40 = bits₃ by omega]

/-- One character is read before the others. -/
theorem exists_cons_flatMap {α : Type} {code : Char → List α} {done cs : List Char} {c : Char}
    {first rest : List α} (hc : code c = first)
    (hrest : ∃ more, cs = (c :: done).reverse ++ more ∧ rest = more.flatMap code) :
    ∃ more, cs = done.reverse ++ more ∧ first ++ rest = more.flatMap code := by
  obtain ⟨more, rfl, rfl⟩ := hrest
  exact ⟨c :: more, by simp, by rw [List.flatMap_cons, hc]⟩

/-- What is read begins with the characters read before, and the bytes are those
of the others. -/
theorem eq_flatMap_of_decodeOnto {done cs : List Char} {bytes : List UInt8}
    (hread : decodeOnto done bytes = some cs) :
    ∃ more, cs = done.reverse ++ more ∧ bytes = more.flatMap String.utf8EncodeChar := by
  fun_induction decodeOnto done bytes with
  | case1 done =>
    obtain rfl := Option.some.inj hread
    exact ⟨[], by simp, rfl⟩
  | case2 done b rest hb ih => exact exists_cons_flatMap (encodeChar_of_one hb) (ih hread)
  | case4 done b _ hlow hhigh b₁ rest c hchar ih =>
    exact exists_cons_flatMap (encodeChar_of_two (UInt8.not_lt.1 hlow) hhigh hchar) (ih hread)
  | case7 done b _ _ hlow hhigh b₁ b₂ rest c hchar ih =>
    exact exists_cons_flatMap (encodeChar_of_three (UInt8.not_lt.1 hlow) hhigh hchar) (ih hread)
  | case10 done b _ _ _ hlow hhigh b₁ b₂ b₃ rest c hchar ih =>
    exact exists_cons_flatMap (encodeChar_of_four (UInt8.not_lt.1 hlow) hhigh hchar) (ih hread)
  | _ => contradiction

/-- Exactly the bytes of a text are read as the text. -/
theorem decode?_eq_some_iff {bytes : List UInt8} {text : String} :
    decode? bytes = some text ↔ encode text = bytes := by
  constructor
  · intro hread
    obtain ⟨cs, hcs, rfl⟩ := Option.map_eq_some_iff.1 hread
    obtain ⟨more, rfl, rfl⟩ := eq_flatMap_of_decodeOnto hcs
    rw [encode, String.toList_ofList]
  · rintro rfl
    exact decode?_encode text

/-- The bytes of a character do not begin those of another. -/
theorem eq_of_prefix_encodeChar {c d : Char}
    (hbegins : String.utf8EncodeChar c <+: String.utf8EncodeChar d) : c = d := by
  obtain ⟨rest, hrest⟩ := hbegins
  have hread := decodeOnto_flatMap [] [d]
  rw [List.flatMap_singleton, ← hrest, decodeOnto_encodeChar] at hread
  obtain ⟨more, hmore, -⟩ := eq_flatMap_of_decodeOnto hread
  exact (List.cons.inj hmore).1.symm

end Rtti.Utf8
