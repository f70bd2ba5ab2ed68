import Rtti.ScanError
import Rtti.Text.Utf16

/-!
# Encodings of text in memory

A text in a target's memory is a run of code units of one or two bytes.
-/

namespace Rtti

/-- How a target stores text. -/
inductive TextEncoding where
  | utf8
  | utf16
  deriving Repr, DecidableEq, Inhabited

namespace TextEncoding

/-- The number of bytes of a code unit. -/
def unitSize : TextEncoding → Nat
  | utf8 => 1
  | utf16 => 2

/-- The encoding with code units of `size` bytes. -/
def ofUnitSize (size : Nat) : Except ScanError TextEncoding :=
  match size with
  | 1 => .ok utf8
  | 2 => .ok utf16
  | _ => .error (.unsupportedPlatform s!"{size}-byte string code units")

/-- The text that the bytes hold; nothing if they hold none. -/
def decode? : TextEncoding → List UInt8 → Option String
  | utf8, bytes => Utf8.decode? bytes
  | utf16, bytes => Utf16.decode? bytes

/-- The text that the bytes hold; the empty text if they hold none. -/
def decode (encoding : TextEncoding) (bytes : List UInt8) : String :=
  (encoding.decode? bytes).getD ""

end TextEncoding

end Rtti
