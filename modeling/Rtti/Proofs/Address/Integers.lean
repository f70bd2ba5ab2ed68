import Rtti.Address.Spelling

/-!
# Addresses among the integers

Sums, differences and displacements are reckoned in integers, of which 64 bits hold
some.  `Address.ofInt?` finds the address with exactly the value of an integer.
`Address.MovedBy` relates two addresses that lie a displacement apart, and what lies
between addresses that can be moved can be moved as well
(`Address.Movable.of_between`).
-/

namespace Rtti.Address

variable {a a' low high sum difference : Address} {d n : Int} {offset : Nat}

/-! ## Exact values -/

/-- The address with exactly the value `n`, if 64 bits hold it. -/
def ofInt? (n : Int) : Option Address :=
  if 0 ≤ n then ofNat? n.toNat else none

theorem ofInt?_eq_some_iff : ofInt? n = some a ↔ (a.val : Int) = n := by
  have hlt := a.val_lt
  unfold ofInt? ofNat?
  split
  · split
    · simp only [Option.some.injEq, Address.ext_iff]
      omega
    · simp only [reduceCtorEq, false_iff]
      omega
  · simp only [reduceCtorEq, false_iff]
    omega

theorem ofInt?_eq_none_iff : ofInt? n = none ↔ n < 0 ∨ 0x10000000000000000 ≤ n := by
  unfold ofInt? ofNat?
  split
  · split
    · simp only [reduceCtorEq, false_iff]
      omega
    · simp only [true_iff]
      omega
  · simp only [true_iff]
    omega

/-! ## Sums and differences that are no addresses -/

theorem add_eq_error (htop : 0x10000000000000000 ≤ a.val + offset) :
    a.add offset = .error (.unknownStructure (.overflow a offset)) := by
  rw [add, add?, ofNat?, dif_neg (Nat.not_lt.2 htop)]

theorem sub_eq_error (hbelow : a.val < offset) :
    a.sub offset = .error (.unknownStructure (.underflow a offset)) := by
  rw [sub, sub?, if_neg (Nat.not_le.2 hbelow)]

/-! ## Displacements -/

/-- The second address lies `d` bytes above the first one. -/
def MovedBy (a : Address) (d : Int) (a' : Address) : Prop :=
  (a'.val : Int) = a.val + d

/-- There is an address `d` bytes above. -/
def Movable (d : Int) (a : Address) : Prop :=
  ∃ a', a.MovedBy d a'

theorem movable_iff : a.Movable d ↔ 0 ≤ a.val + d ∧ a.val + d < 0x10000000000000000 := by
  constructor
  · rintro ⟨a', hmoved⟩
    have hlt := a'.val_lt
    rw [MovedBy] at hmoved
    omega
  · rintro ⟨hlow, hhigh⟩
    refine ⟨⟨(a.val + d).toNat, by omega⟩, ?_⟩
    show ((a.val + d).toNat : Int) = _
    omega

instance : Decidable (a.Movable d) :=
  decidable_of_iff _ movable_iff.symm

theorem MovedBy.movable (hmoved : a.MovedBy d a') : a.Movable d :=
  ⟨a', hmoved⟩

/-- What lies between addresses that can be moved can be moved. -/
theorem Movable.of_between (hlow : low.Movable d) (hhigh : high.Movable d) (habove : low ≤ a)
    (hbelow : a ≤ high) : a.Movable d := by
  rw [movable_iff] at *
  rw [le_def] at habove hbelow
  omega

theorem MovedBy.add_eq_ok {sum' : Address} (hmoved : a.MovedBy d a')
    (hsum : sum.val = a.val + offset) (hsum' : sum.MovedBy d sum') :
    a'.add offset = .ok sum' := by
  rw [add_eq_ok_iff]
  unfold MovedBy at hmoved hsum'
  omega

theorem MovedBy.sub_eq_ok {difference' : Address} (hmoved : a.MovedBy d a')
    (hdifference : a.val = difference.val + offset)
    (hdifference' : difference.MovedBy d difference') : a'.sub offset = .ok difference' := by
  rw [sub_eq_ok_iff]
  unfold MovedBy at hmoved hdifference'
  omega

end Rtti.Address
