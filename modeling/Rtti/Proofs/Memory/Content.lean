import Rtti.Address.Spelling
import Rtti.Proofs.Memory.TextReads

/-!
# What a memory holds

`Target.Holds` says that a memory answers a read of a range with given bytes.
`Target.HoldsWord` and `Target.HoldsText` say it of little-endian words and of
texts that end with a zero byte.  Positions are plain numbers, so what is held
at the sum of a base and an offset lies at an address without a wrap.

The lemmas `run_word`, `run_pointer`, `run_long` and `run_text` turn each of
them into the value of the typed read.
-/

namespace Rtti

namespace Target

/-- The memory answers with the bytes when asked for their range. -/
def Holds (target : Target) (position : Nat) (bytes : List UInt8) : Prop :=
  ∃ address : Address, address.val = position ∧
    target.memory address bytes.length = .ok bytes

/-- The memory holds a little-endian word of `size` bytes. -/
def HoldsWord (target : Target) (position size value : Nat) : Prop :=
  value < Word.count size ∧ target.Holds position (Word.toBytes size value)

/-- The memory holds a UTF-8 text of at most `units` bytes in a window of
`units` bytes.  A text that does not fill the window has a zero byte after
it. -/
def HoldsText (target : Target) (position units : Nat) (text : String) : Prop :=
  (Utf8.encode text).length ≤ units ∧ ∃ window, window.length = units ∧
    (Utf8.encode text ++ [0]).take units <+: window ∧ target.Holds position window

variable {target : Target} {address : Address} {position : Nat} {bytes : List UInt8}

/-! Whether a memory holds something can be computed from its answers. -/

theorem holds_iff : target.Holds position bytes ↔
    ∃ h : position < 0x10000000000000000,
      target.memory ⟨position, h⟩ bytes.length = .ok bytes := by
  constructor
  · rintro ⟨address, rfl, hanswer⟩
    exact ⟨address.val_lt, hanswer⟩
  · rintro ⟨h, hanswer⟩
    exact ⟨⟨position, h⟩, rfl, hanswer⟩

theorem holdsText_iff {units : Nat} {text : String} : target.HoldsText position units text ↔
    (Utf8.encode text).length ≤ units ∧ ∃ h : position < 0x10000000000000000,
      ∃ window ∈ (target.memory ⟨position, h⟩ units).toOption, window.length = units ∧
        (Utf8.encode text ++ [0]).take units <+: window := by
  refine and_congr_right fun _ => ?_
  constructor
  · rintro ⟨window, rfl, hwindow, hholds⟩
    obtain ⟨h, hanswer⟩ := holds_iff.1 hholds
    exact ⟨h, window, by rw [hanswer]; rfl, rfl, hwindow⟩
  · rintro ⟨h, window, hanswer, rfl, hwindow⟩
    refine ⟨window, rfl, hwindow, holds_iff.2 ⟨h, ?_⟩⟩
    cases hmemory : target.memory ⟨position, h⟩ window.length with
    | error => simp [hmemory, Except.toOption] at hanswer
    | ok bytes => simpa [hmemory, Except.toOption] using hanswer

instance : Decidable (target.Holds position bytes) :=
  decidable_of_iff _ holds_iff.symm

instance {size value : Nat} : Decidable (target.HoldsWord position size value) :=
  inferInstanceAs (Decidable (_ ∧ _))

instance {units : Nat} {text : String} : Decidable (target.HoldsText position units text) :=
  decidable_of_iff _ holdsText_iff.symm

theorem read_of_holds (hholds : target.Holds address.val bytes) :
    target.read address bytes.length = .ok bytes := by
  obtain ⟨found, hposition, hanswer⟩ := hholds
  obtain rfl : found = address := Address.ext hposition
  rw [read, hanswer]
  simp

/-- What is read is held. -/
theorem holdsWord_of_read {size : Nat} (hread : target.read address size = .ok bytes) :
    target.HoldsWord address.val size (Word.ofBytes bytes) := by
  obtain ⟨hanswer, rfl⟩ := read_eq_ok_iff.1 hread
  refine ⟨Word.ofBytes_lt bytes, address, rfl, ?_⟩
  rw [Word.toBytes_ofBytes]
  exact hanswer

/-- What is held lies at an address. -/
theorem Holds.exists_address (hholds : target.Holds position bytes) :
    ∃ address : Address, address.val = position :=
  hholds.imp fun _ h => h.1

theorem HoldsWord.exists_address {size value : Nat}
    (hholds : target.HoldsWord position size value) :
    ∃ address : Address, address.val = position :=
  hholds.2.exists_address

theorem HoldsText.exists_address {units : Nat} {text : String}
    (hholds : target.HoldsText position units text) :
    ∃ address : Address, address.val = position := by
  obtain ⟨-, window, -, -, hwindow⟩ := hholds
  exact hwindow.exists_address

end Target

/-! ## Typed reads of what is held -/

namespace Inspection

variable {target : Target} {width : PointerWidth} {address pointed : Address} {size value : Nat}

theorem run_word (hholds : target.HoldsWord address.val size value) :
    (word address size).run target = .ok value := by
  have hread := Target.read_of_holds hholds.2
  rw [Word.length_toBytes] at hread
  rw [word, run, hread]
  simp only [run, Word.ofBytes_toBytes, Nat.mod_eq_of_lt hholds.1]

theorem reads_word (target : Target) (address : Address) (size : Nat) :
    (word address size).reads target = [⟨address, size, false⟩] := by
  rw [word, reads]
  cases target.read address size <;> rfl

theorem run_word32 (hholds : target.HoldsWord address.val 4 value) :
    (word32 address).run target = .ok value :=
  run_word hholds

theorem run_word? (hholds : target.HoldsWord address.val size value) :
    (word? address size).run target = .ok (some value) := by
  have hread := Target.read_of_holds hholds.2
  rw [Word.length_toBytes] at hread
  rw [word?, run, hread]
  show Except.ok (some (Word.ofBytes (Word.toBytes size value))) = _
  rw [Word.ofBytes_toBytes, Nat.mod_eq_of_lt hholds.1]

theorem run_pointer (hholds : target.HoldsWord address.val width.bytes pointed.val) :
    (pointer width address).run target = .ok pointed := by
  simp only [pointer, bind_eq, run_bind, run_word hholds]
  exact congrArg Except.ok (Address.ext (Address.val_ofNat pointed.val_lt))

/-- A pointer is read exactly where it is held. -/
theorem run_pointer_eq_ok_iff :
    (pointer width address).run target = .ok pointed ↔
      target.HoldsWord address.val width.bytes pointed.val := by
  refine ⟨fun hrun => ?_, run_pointer⟩
  obtain ⟨value, hvalue, hresult⟩ := exists_of_run_bind_eq_ok hrun
  obtain rfl := Except.ok.inj hresult
  rw [word, run] at hvalue
  split at hvalue
  · next bytes hread =>
    obtain rfl := Except.ok.inj hvalue
    have hholds := Target.holdsWord_of_read hread
    have hcount : Word.count width.bytes ≤ 0x10000000000000000 := by cases width <;> decide
    rwa [Address.val_ofNat (Nat.lt_of_lt_of_le hholds.1 hcount)]
  · contradiction

theorem run_long (hholds : target.HoldsWord address.val width.bytes value) :
    (long width address).run target = .ok (Word.toSigned width.bytes value) := by
  simp only [long, bind_eq, run_bind, run_word hholds]
  rfl

/-- A text that is held is read, if it has no null character and the size of
its window is a 64-bit number. -/
theorem run_text {units : Nat} {text : String} (hholds : target.HoldsText address.val units text)
    (hnull : '\x00' ∉ text.toList) (hunits : units < 0x10000000000000000) :
    (Inspection.text address units .utf8).run target = .ok text := by
  obtain ⟨hfits, window, rfl, hwindow, hwindowHolds⟩ := hholds
  have hanswer := (Target.read_eq_ok_iff.1 (Target.read_of_holds hwindowHolds)).1
  have hunitsBegin := hwindow.map UInt8.toNat
  rw [List.map_take, List.map_append, ← TextEncoding.encode_utf8] at hunitsBegin
  have hstores : target.StoresText .utf8 address window.length text :=
    ⟨window, hanswer, (Nat.mul_one _).symm, hunits, hunitsBegin⟩
  obtain ⟨read, hrun, hread⟩ := exists_run_text_of_stores hstores hnull
  rw [List.take_of_length_le (by rwa [TextEncoding.encode_utf8, List.length_map])] at hread
  rw [hrun, hread.unique (.inl rfl)]

/-! ## Reads at an offset -/

variable {α β : Type} {base : Address} {offset : Nat}

/-- The address of what is read is a sum, which is known to be an address. -/
theorem run_add_bind {f : Address → Inspection β} (hsum : address.val = base.val + offset) :
    (liftM (base.add offset) >>= f).run target = (f address).run target :=
  run_bind_of_ok (run_lift (Address.add_eq_ok_iff.2 hsum))

/-- A sequence that begins with a sum and ends with a value has found its address. -/
theorem exists_of_run_add_bind_eq_ok {f : Address → Inspection β} {value : β}
    (hrun : (liftM (base.add offset) >>= f).run target = .ok value) :
    ∃ sum : Address, sum.val = base.val + offset ∧ (f sum).run target = .ok value := by
  obtain ⟨sum, hsum, hrest⟩ := exists_of_run_bind_eq_ok hrun
  rw [run_lift rfl, Address.add_eq_ok_iff] at hsum
  exact ⟨sum, hsum, hrest⟩

theorem reads_add_bind {f : Address → Inspection β} (hsum : address.val = base.val + offset) :
    (liftM (base.add offset) >>= f).reads target = (f address).reads target := by
  rw [reads_bind_of_ok (run_lift (Address.add_eq_ok_iff.2 hsum))]
  exact congrArg (· ++ _) (reads_ofExcept target _)

theorem run_word32_add_bind {f : Nat → Inspection β}
    (hheld : target.HoldsWord (base.val + offset) 4 value) :
    (liftM (base.add offset) >>= fun address => word32 address >>= f).run target =
      (f value).run target := by
  obtain ⟨address, hsum⟩ := hheld.exists_address
  rw [← hsum] at hheld
  rw [run_add_bind hsum, run_bind_of_ok (run_word32 hheld)]

theorem run_word?_add_bind {f : Option Nat → Inspection β}
    (hheld : target.HoldsWord (base.val + offset) size value) :
    (liftM (base.add offset) >>= fun address => word? address size >>= f).run target =
      (f (some value)).run target := by
  obtain ⟨address, hsum⟩ := hheld.exists_address
  rw [← hsum] at hheld
  rw [run_add_bind hsum, run_bind_of_ok (run_word? hheld)]

theorem run_pointer_add_bind {f : Address → Inspection β}
    (hheld : target.HoldsWord (base.val + offset) width.bytes pointed.val) :
    (liftM (base.add offset) >>= fun address => pointer width address >>= f).run target =
      (f pointed).run target := by
  obtain ⟨address, hsum⟩ := hheld.exists_address
  rw [← hsum] at hheld
  rw [run_add_bind hsum, run_bind_of_ok (run_pointer hheld)]

theorem run_text_add_bind {units : Nat} {text : String} {f : String → Inspection β}
    (hheld : target.HoldsText (base.val + offset) units text) (hnull : '\x00' ∉ text.toList)
    (hunits : units < 0x10000000000000000) :
    (liftM (base.add offset) >>= fun address =>
      Inspection.text address units .utf8 >>= f).run target = (f text).run target := by
  obtain ⟨address, hsum⟩ := hheld.exists_address
  rw [← hsum] at hheld
  rw [run_add_bind hsum, run_bind_of_ok (run_text hheld hnull hunits)]

end Inspection

end Rtti
