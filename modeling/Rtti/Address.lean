import Rtti.Key
import Rtti.Text.Hexadecimal

/-!
# Addresses of a target process

A target has pointers of four or eight bytes (`PointerWidth`).  An `Address`
is a 64-bit number whatever the width; the width decides how it is displayed,
which addresses can be spelled, and which lie in the range that a user
process may use (`Address.isPlausible`).
-/

namespace Rtti

/-! ## Pointer widths -/

/-- The size of a pointer in the target. -/
inductive PointerWidth where
  | bits32
  | bits64
  deriving Repr, DecidableEq, Inhabited

namespace PointerWidth

/-- The number of bytes of a pointer. -/
def bytes : PointerWidth → Nat
  | bits32 => 4
  | bits64 => 8

/-- The width with pointers of the given number of bytes. -/
def ofBytes? : Nat → Option PointerWidth
  | 4 => some bits32
  | 8 => some bits64
  | _ => none

/-- The largest value of a pointer. -/
def maxValue : PointerWidth → Nat
  | bits32 => 0xFFFFFFFF
  | bits64 => 0xFFFFFFFFFFFFFFFF

/-- The lowest address that a user process maps: the first 64 KiB stay
unmapped. -/
def lowestUser : PointerWidth → Nat
  | _ => 0x10000

/-- The highest address of user space. -/
def highestUser : PointerWidth → Nat
  | bits32 => 0xFFF00000
  | bits64 => 0x000FFFFFFFFFFFFF

end PointerWidth

/-! ## Addresses -/

/-- A 64-bit address. -/
@[ext] structure Address where
  /-- The address as a number. -/
  val : Nat
  val_lt : val < 0x10000000000000000 := by omega
  deriving Repr, DecidableEq

namespace Address

/-- The null address. -/
def null : Address := ⟨0, by omega⟩

instance : Inhabited Address := ⟨null⟩

/-- The address with the low 64 bits of `n`. -/
def ofNat (n : Nat) : Address := ⟨n % 0x10000000000000000, Nat.mod_lt _ (by omega)⟩

/-- The address with exactly the value `n`, if 64 bits hold it. -/
def ofNat? (n : Nat) : Option Address :=
  if h : n < 0x10000000000000000 then some ⟨n, h⟩ else none

theorem val_ofNat {n : Nat} (h : n < 0x10000000000000000) : (ofNat n).val = n := Nat.mod_eq_of_lt h

/-! ### Order -/

instance : LT Address := ⟨fun a b => a.val < b.val⟩

instance : LE Address := ⟨fun a b => a.val ≤ b.val⟩

instance : DecidableLT Address := fun a b => inferInstanceAs (Decidable (a.val < b.val))

instance : DecidableLE Address := fun a b => inferInstanceAs (Decidable (a.val ≤ b.val))

theorem lt_def {a b : Address} : a < b ↔ a.val < b.val := Iff.rfl

theorem le_def {a b : Address} : a ≤ b ↔ a.val ≤ b.val := Iff.rfl

instance : Key Address where
  precedes a b := a < b
  irrefl a := by simp [lt_def]
  trans h₁ h₂ := by
    simp only [lt_def, decide_eq_true_eq] at *
    omega
  trichotomy a b := by
    simp only [lt_def, decide_eq_true_eq, Address.ext_iff]
    omega

/-! ### Arithmetic -/

/-- The address `offset` bytes above, unless that lies beyond 64 bits. -/
def add? (a : Address) (offset : Nat) : Option Address :=
  ofNat? (a.val + offset)

/-- The address `offset` bytes below, unless that lies below zero. -/
def sub? (a : Address) (offset : Nat) : Option Address :=
  if offset ≤ a.val then some ⟨a.val - offset, by have := a.val_lt; omega⟩ else none

/-- A sum is found exactly when it is an address. -/
theorem add?_eq_some_iff {a b : Address} {offset : Nat} :
    a.add? offset = some b ↔ b.val = a.val + offset := by
  have := b.val_lt
  unfold add? ofNat?
  split
  · simp only [Option.some.injEq, Address.ext_iff]
    omega
  · simp only [reduceCtorEq, false_iff]
    omega

/-- A difference is found exactly when it is an address. -/
theorem sub?_eq_some_iff {a b : Address} {offset : Nat} :
    a.sub? offset = some b ↔ a.val = b.val + offset := by
  unfold sub?
  split
  · simp only [Option.some.injEq, Address.ext_iff]
    omega
  · simp only [reduceCtorEq, false_iff]
    omega

/-- Whether a pointer of this value can belong to a user process: it is not
null and lies in the user space of the width. -/
def isPlausible (a : Address) (width : PointerWidth) : Bool :=
  a ≠ null && width.lowestUser ≤ a.val && a.val ≤ width.highestUser

/-! ### Display -/

/-- The address as a numeral of at least `width` digits. -/
def hex (a : Address) (letters : Hexadecimal.LetterCase) (digits : Nat) : String :=
  "0x" ++ Hexadecimal.padded letters digits a.val

/-- The address with two digits for each byte of a pointer. -/
def display (a : Address) (width : PointerWidth) : String :=
  a.hex .upper (2 * width.bytes)

instance : ToString Address := ⟨fun a => a.display .bits64⟩

end Address

end Rtti
