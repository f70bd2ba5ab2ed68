/-!
# UTF-8

The bytes of a text, and the strict reading of bytes as text: overlong
forms, surrogates and numbers above U+10FFFF are refused, as are stray and
missing continuation bytes.
-/

namespace Rtti.Utf8

/-- The bytes of a text. -/
def encode (text : String) : List UInt8 :=
  text.toList.flatMap String.utf8EncodeChar

/-- The character of the number `n`, if `n` is a Unicode scalar value. -/
def scalar? (n : Nat) : Option Char :=
  if h : n.isValidChar then some (Char.ofNatAux n h) else none

/-- The number whose highest bits are `lead` and whose further bits are six
from each of the continuation bytes. -/
def assemble? (lead : Nat) (continuation : List UInt8) : Option Nat :=
  continuation.foldlM
    (fun n b => if 0x80 ≤ b ∧ b < 0xC0 then some (64 * n + (b.toNat - 0x80)) else none) lead

/-- The character that a lead byte's bits and its continuation bytes encode.
`least` is the smallest number that may take a form of this length. -/
def char? (least lead : Nat) (continuation : List UInt8) : Option Char := do
  let n ← assemble? lead continuation
  if least ≤ n then scalar? n else none

/-- Reads bytes as characters after those of `done`, which is held in
reverse order. -/
def decodeOnto (done : List Char) : List UInt8 → Option (List Char)
  | [] => some done.reverse
  | b :: rest =>
    if b < 0x80 then decodeOnto (Char.ofNat b.toNat :: done) rest
    else if b < 0xC0 then none
    else if b < 0xE0 then
      match rest with
      | b₁ :: rest =>
        match char? 0x80 (b.toNat - 0xC0) [b₁] with
        | some c => decodeOnto (c :: done) rest
        | none => none
      | _ => none
    else if b < 0xF0 then
      match rest with
      | b₁ :: b₂ :: rest =>
        match char? 0x800 (b.toNat - 0xE0) [b₁, b₂] with
        | some c => decodeOnto (c :: done) rest
        | none => none
      | _ => none
    else if b < 0xF8 then
      match rest with
      | b₁ :: b₂ :: b₃ :: rest =>
        match char? 0x10000 (b.toNat - 0xF0) [b₁, b₂, b₃] with
        | some c => decodeOnto (c :: done) rest
        | none => none
      | _ => none
    else none

/-- The text of a UTF-8 byte string; nothing if the bytes are not UTF-8. -/
def decode? (bytes : List UInt8) : Option String :=
  (decodeOnto [] bytes).map String.ofList

end Rtti.Utf8
