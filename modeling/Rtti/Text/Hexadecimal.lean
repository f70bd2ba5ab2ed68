/-!
# Hexadecimal numerals

Numbers in base sixteen: the digits of a number, most significant first, and
the number that a run of digits spells.  Digits are read in either letter
case and written in the case that the caller chooses.
-/

namespace Rtti.Hexadecimal

/-- The letter case of the digits ten to fifteen. -/
inductive LetterCase where
  | lower
  | upper
  deriving Repr, DecidableEq

/-! ## Single digits -/

/-- The character that writes the digit `d`. -/
def digitChar (letters : LetterCase) (d : Nat) : Char :=
  if d < 10 then Char.ofNat (48 + d)
  else match letters with
    | .lower => Char.ofNat (87 + d)
    | .upper => Char.ofNat (55 + d)

/-- The digit that a character writes, in either letter case. -/
def digitValue? (c : Char) : Option Nat :=
  let n := c.toNat
  if 48 ≤ n ∧ n ≤ 57 then some (n - 48)
  else if 97 ≤ n ∧ n ≤ 102 then some (n - 87)
  else if 65 ≤ n ∧ n ≤ 70 then some (n - 55)
  else none

/-- Whether a character is a hexadecimal digit. -/
def isDigit (c : Char) : Bool :=
  (digitValue? c).isSome

theorem digitValue?_digitChar (letters : LetterCase) {d : Nat} (h : d < 16) :
    digitValue? (digitChar letters d) = some d := by
  cases letters <;> revert d <;> decide

theorem digitValue?_lt {c : Char} {d : Nat} (h : digitValue? c = some d) : d < 16 := by
  unfold digitValue? at h
  grind

/-! ## Numerals -/

/-- The lowest `count` digits of `n`, most significant first. -/
def lowDigits : (count n : Nat) → List Nat
  | 0, _ => []
  | count + 1, n => lowDigits count (n / 16) ++ [n % 16]

/-- The number of digits that `n` needs; zero needs one. -/
def digitCount (n : Nat) : Nat :=
  n.log2 / 4 + 1

/-- The numeral of `n` with at least `width` digits, filled up with leading
zeros. -/
def padded (letters : LetterCase) (width n : Nat) : String :=
  String.ofList ((lowDigits (max width (digitCount n)) n).map (digitChar letters))

/-- The shortest numeral of `n`. -/
def shortest (letters : LetterCase) (n : Nat) : String :=
  padded letters 0 n

/-- The number spelled by a run of digits; any other character spells
nothing, and the empty run is zero. -/
def value? (digits : List Char) : Option Nat :=
  digits.foldlM (fun n c => (digitValue? c).map (16 * n + ·)) 0

@[simp] theorem length_lowDigits (count n : Nat) : (lowDigits count n).length = count := by
  induction count generalizing n with
  | zero => rfl
  | succ count ih => simp [lowDigits, ih]

/-- The lowest digits of a number spell the number again, if they are all of
its digits. -/
theorem value?_lowDigits (letters : LetterCase) (count n : Nat) (rest : List Char)
    (fits : n < Nat.pow 16 count) :
    ((lowDigits count n).map (digitChar letters) ++ rest).foldlM
      (fun n c => (digitValue? c).map (16 * n + ·)) 0 =
    rest.foldlM (fun n c => (digitValue? c).map (16 * n + ·)) n := by
  induction count generalizing n rest with
  | zero =>
    have : n = 0 := by simpa using fits
    simp [lowDigits, this]
  | succ count ih =>
    have fits' : n / 16 < Nat.pow 16 count := by
      simp only [Nat.pow_eq, Nat.pow_succ] at fits ⊢
      omega
    rw [lowDigits, List.map_append, List.append_assoc, ih _ _ fits']
    have digit := digitValue?_digitChar letters (d := n % 16) (Nat.mod_lt _ (by omega))
    simp [List.foldlM_cons, digit, Nat.div_add_mod]

theorem lt_pow_of_digitCount_le {n count : Nat} (h : digitCount n ≤ count) :
    n < Nat.pow 16 count := by
  have lt : n < 2 ^ (n.log2 + 1) := Nat.lt_log2_self
  have pow : Nat.pow 16 count = 2 ^ (4 * count) := by
    rw [Nat.pow_mul]
    rfl
  rw [pow]
  exact Nat.lt_of_lt_of_le lt
    (Nat.pow_le_pow_right (by omega) (by unfold digitCount at h; omega))

/-- A numeral spells its number, whatever its letter case and width. -/
theorem value?_padded (letters : LetterCase) (width n : Nat) :
    value? (padded letters width n).toList = some n := by
  have := value?_lowDigits letters (max width (digitCount n)) n []
    (lt_pow_of_digitCount_le (Nat.le_max_right _ _))
  simpa [value?, padded] using this

end Rtti.Hexadecimal
