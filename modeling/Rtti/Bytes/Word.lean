/-!
# Little-endian words

Unsigned words as numbers, lowest byte first, and the two's complement
reading of a word as a signed number.
-/

namespace Rtti.Word

/-- The number that the bytes hold. -/
def ofBytes : List UInt8 → Nat
  | [] => 0
  | b :: rest => b.toNat + 256 * ofBytes rest

/-- The low `size` bytes of a number. -/
def toBytes : (size n : Nat) → List UInt8
  | 0, _ => []
  | size + 1, n => UInt8.ofNat (n % 256) :: toBytes size (n / 256)

/-- The number of different words of `size` bytes. -/
def count : (size : Nat) → Nat
  | 0 => 1
  | size + 1 => 256 * count size

/-- The signed number whose two's complement word of `size` bytes is `n`. -/
def toSigned (size n : Nat) : Int :=
  if 2 * n < count size then n else (n : Int) - count size

/-- The two's complement word of `size` bytes of a signed number; bits that
do not fit are cut off. -/
def ofSigned (size : Nat) (n : Int) : Nat :=
  (n % count size).toNat

@[simp] theorem count_four : count 4 = 0x100000000 := rfl

@[simp] theorem count_eight : count 8 = 0x10000000000000000 := rfl

theorem count_pos (size : Nat) : 0 < count size := by
  induction size with
  | zero => exact Nat.one_pos
  | succ size ih =>
    rw [count]
    omega

@[simp] theorem length_toBytes (size n : Nat) : (toBytes size n).length = size := by
  induction size generalizing n with
  | zero => rfl
  | succ size ih => simp [toBytes, ih]

theorem ofBytes_lt (bytes : List UInt8) : ofBytes bytes < count bytes.length := by
  induction bytes with
  | nil => exact Nat.one_pos
  | cons b rest ih =>
    have := b.toNat_lt
    simp only [ofBytes, List.length_cons, count]
    omega

/-- Reading a word back gives the number cut to the size of the word. -/
theorem ofBytes_toBytes (size n : Nat) : ofBytes (toBytes size n) = n % count size := by
  induction size generalizing n with
  | zero => simp [toBytes, ofBytes, count, Nat.mod_one]
  | succ size ih =>
    have h : n % 256 < 256 := Nat.mod_lt _ (by omega)
    rw [toBytes, ofBytes, ih, UInt8.toNat_ofNat_of_lt' h, count, Nat.mod_mul]

/-- Every byte string is the word of the number that it holds. -/
theorem toBytes_ofBytes (bytes : List UInt8) : toBytes bytes.length (ofBytes bytes) = bytes := by
  induction bytes with
  | nil => rfl
  | cons b rest ih =>
    have h := b.toNat_lt
    have h₁ : (b.toNat + 256 * ofBytes rest) % 256 = b.toNat := by omega
    have h₂ : (b.toNat + 256 * ofBytes rest) / 256 = ofBytes rest := by omega
    simp only [List.length_cons, ofBytes, toBytes, h₁, h₂, ih, UInt8.ofNat_toNat]

/-- Reading a signed word back gives the number cut to the size of the word, of which
the highest bit is the sign. -/
theorem toSigned_ofSigned_eq_bmod (size : Nat) (n : Int) :
    toSigned size (ofSigned size n) = n.bmod (count size) := by
  have hpos := count_pos size
  rw [toSigned, ofSigned, Int.bmod_def]
  generalize count size = m at *
  have hlow := Int.emod_nonneg n (b := m) (by omega)
  split <;> split <;> omega

/-- A signed number that fits the word is read back from it. -/
theorem toSigned_ofSigned {size : Nat} {n : Int} (low : -(count size : Int) ≤ 2 * n)
    (high : 2 * n < count size) : toSigned size (ofSigned size n) = n := by
  rw [toSigned_ofSigned_eq_bmod]
  exact Int.bmod_eq_of_le_mul_two (by omega) (by omega)

end Rtti.Word
