import Rtti.Text.Utf8

/-!
# UTF-16

Little-endian 16-bit code units, and the strict reading of code units as
text: a surrogate counts only as half of a pair.
-/

namespace Rtti.Utf16

/-- Whether a code unit is the first half of a surrogate pair. -/
def isHigh (unit : Nat) : Bool := 0xD800 ≤ unit && unit < 0xDC00

/-- Whether a code unit is the second half of a surrogate pair. -/
def isLow (unit : Nat) : Bool := 0xDC00 ≤ unit && unit < 0xE000

/-- The number encoded by a surrogate pair. -/
def pairValue (high low : Nat) : Nat :=
  0x10000 + 0x400 * (high - 0xD800) + (low - 0xDC00)

/-- The code units of a byte string; an odd byte at its end is dropped. -/
def units : List UInt8 → List Nat
  | b₀ :: b₁ :: rest => (b₀.toNat + 256 * b₁.toNat) :: units rest
  | _ => []

/-- Reads code units as characters after those of `done`, which is held in
reverse order. -/
def decodeOnto (done : List Char) : List Nat → Option (List Char)
  | [] => some done.reverse
  | unit :: rest =>
    if isHigh unit then
      match rest with
      | low :: rest =>
        if isLow low then
          (Utf8.scalar? (pairValue unit low)).bind fun c => decodeOnto (c :: done) rest
        else none
      | [] => none
    else (Utf8.scalar? unit).bind fun c => decodeOnto (c :: done) rest

/-- The text of a run of code units; nothing if they are not UTF-16. -/
def decodeUnits? (codeUnits : List Nat) : Option String :=
  (decodeOnto [] codeUnits).map String.ofList

/-- The text of a little-endian UTF-16 byte string. -/
def decode? (bytes : List UInt8) : Option String :=
  decodeUnits? (units bytes)

end Rtti.Utf16
