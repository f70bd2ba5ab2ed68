import Rtti.ScanError

/-!
# Addresses in text, and arithmetic that reports

An address is spelled in hexadecimal, with or without a leading `0x` or
`0X`; a number that the pointer width cannot hold is refused.  `Address.add`
and `Address.sub` are the checked operations of `Rtti.Address` with the
failure as an error of the scan.
-/

namespace Rtti

/-- The width with pointers of `n` bytes; there is none but four and eight. -/
def PointerWidth.ofBytes (n : Nat) : Except ScanError PointerWidth :=
  match ofBytes? n with
  | some width => .ok width
  | none => .error (.unsupportedPlatform s!"pointer width of {n} bytes")

namespace Address

/-! ## Spelling -/

/-- The characters after a leading `0x` or `0X`, which is taken off once. -/
def spelledDigits : List Char → List Char
  | '0' :: 'x' :: digits => digits
  | '0' :: 'X' :: digits => digits
  | digits => digits

/-- The address spelled by `text` for a target of the given width. -/
def parse (text : String) (width : PointerWidth) : Except ScanError Address :=
  match spelledDigits text.toList with
  | [] => .error (.malformedAddress text)
  | digits =>
    match (Hexadecimal.value? digits).bind ofNat? with
    | none => .error (.malformedAddress text)
    | some address =>
      if address.val ≤ width.maxValue then .ok address
      else .error (.malformedAddress s!"{text} does not fit in {width.bytes} bytes")

/-! ## Arithmetic -/

/-- The address `offset` bytes above. -/
def add (a : Address) (offset : Nat) : Except ScanError Address :=
  match a.add? offset with
  | some sum => .ok sum
  | none => .error (.unknownStructure (.overflow a offset))

/-- The address `offset` bytes below. -/
def sub (a : Address) (offset : Nat) : Except ScanError Address :=
  match a.sub? offset with
  | some difference => .ok difference
  | none => .error (.unknownStructure (.underflow a offset))

theorem add_eq_ok_iff {a b : Address} {offset : Nat} :
    a.add offset = .ok b ↔ b.val = a.val + offset := by
  rw [← add?_eq_some_iff, add]
  split <;> simp_all

theorem sub_eq_ok_iff {a b : Address} {offset : Nat} :
    a.sub offset = .ok b ↔ a.val = b.val + offset := by
  rw [← sub?_eq_some_iff, sub]
  split <;> simp_all

end Address

end Rtti
