import Rtti.ScanError
import Rtti.Text.Utf8

/-!
# Byte strings in hexadecimal

Two digits for each byte.  `HexBytes.decode` accepts digits of either case
and reports the first fault; `decode_encode` says that every byte string is
read back from its own text.
-/

namespace Rtti.HexBytes

/-- The two digits of a byte. -/
def ofByte (b : UInt8) : List Char :=
  [Hexadecimal.digitChar .lower (b.toNat / 16), Hexadecimal.digitChar .lower (b.toNat % 16)]

/-- The byte string as text. -/
def encode (bytes : List UInt8) : String :=
  String.ofList (bytes.flatMap ofByte)

/-- The value of a digit that is given as the byte of its character. -/
def digit? (b : UInt8) : Option Nat :=
  Hexadecimal.digitValue? (Char.ofNat b.toNat)

/-- Reads pairs of digits as bytes after those of `done`, which is held in
reverse order; `position` is the number of digits read before. -/
def decodeOnto (done : List UInt8) (position : Nat) : List UInt8 → Except HexFault (List UInt8)
  | high :: low :: rest =>
    match digit? high, digit? low with
    | some h, some l => decodeOnto (UInt8.ofNat (16 * h + l) :: done) (position + 2) rest
    | some _, none => .error (.invalidByte low (position + 1))
    | none, _ => .error (.invalidByte high position)
  | _ => .ok done.reverse

/-- The byte string that a text spells. -/
def decode (text : String) : Except HexFault (List UInt8) :=
  let digits := Utf8.encode text
  if digits.length % 2 = 1 then .error .oddLength else decodeOnto [] 0 digits

theorem digit?_digitChar {d : Nat} (h : d < 16) :
    ∃ b, String.utf8EncodeChar (Hexadecimal.digitChar .lower d) = [b] ∧ digit? b = some d := by
  have : ∀ d < 16, ∃ b, String.utf8EncodeChar (Hexadecimal.digitChar .lower d) = [b] ∧
      digit? b = some d := by
    intro d hd
    match d with
    | 0 | 1 | 2 | 3 | 4 | 5 | 6 | 7 | 8 | 9 | 10 | 11 | 12 | 13 | 14 | 15 => exact ⟨_, rfl, rfl⟩
    | _ + 16 => omega
  exact this d h

theorem exists_utf8_ofByte (b : UInt8) :
    ∃ h l, (ofByte b).flatMap String.utf8EncodeChar = [h, l] ∧
      digit? h = some (b.toNat / 16) ∧ digit? l = some (b.toNat % 16) := by
  have := b.toNat_lt
  obtain ⟨h, hh, hv⟩ := digit?_digitChar (d := b.toNat / 16) (by omega)
  obtain ⟨l, hl, lv⟩ := digit?_digitChar (d := b.toNat % 16) (by omega)
  exact ⟨h, l, by simp [ofByte, hh, hl], hv, lv⟩

theorem utf8_encode (bytes : List UInt8) :
    Utf8.encode (encode bytes) =
      bytes.flatMap fun b => (ofByte b).flatMap String.utf8EncodeChar := by
  simp [Utf8.encode, encode, List.flatMap_assoc]

/-- Every byte string is read back from its text. -/
theorem decode_encode (bytes : List UInt8) : decode (encode bytes) = .ok bytes := by
  have even : ∀ bytes : List UInt8, (Utf8.encode (encode bytes)).length % 2 = 0 := by
    intro bytes
    rw [utf8_encode]
    induction bytes with
    | nil => rfl
    | cons b rest ih =>
      obtain ⟨h, l, e, -⟩ := exists_utf8_ofByte b
      simp only [List.flatMap_cons, List.length_append, e, List.length_cons, List.length_nil]
      omega
  have read : ∀ (bytes done : List UInt8) (position : Nat),
      decodeOnto done position (Utf8.encode (encode bytes)) = .ok (done.reverse ++ bytes) := by
    intro bytes
    simp only [utf8_encode]
    induction bytes with
    | nil => simp [decodeOnto]
    | cons b rest ih =>
      intro done position
      obtain ⟨h, l, e, hv, lv⟩ := exists_utf8_ofByte b
      have := b.toNat_lt
      have hb : UInt8.ofNat (16 * (b.toNat / 16) + b.toNat % 16) = b := by
        rw [Nat.div_add_mod]
        exact UInt8.ofNat_toNat
      simp [List.flatMap_cons, e, decodeOnto, hv, lv, hb, ih]
  simp only [decode]
  rw [if_neg (by have := even bytes; omega), read]
  simp

end Rtti.HexBytes
