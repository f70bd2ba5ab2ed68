import Mathlib.Data.List.Pairwise
import Rtti.Memory.Blocks
import Rtti.Proofs.SortedMap.Lookup

/-!
# Reads of captured regions

A read of a snapshot is answered from one region only, the one that begins at
or next below the address (`Snapshot.Nearest`).  So a range that a region spans
is read from it as long as no other region begins between the base of the
region and the address; a region that does, be it empty, hides what lies
behind its base (`Snapshot.HiddenAt`).

`Snapshot.read_of_spanning_regions` says for every snapshot which reads succeed
and with which bytes.  In a snapshot whose regions lie apart nothing is hidden, so
the region that spans a range answers (`Snapshot.read_of_apart`).
-/

namespace Rtti

/-- Two elements of a list whose elements are related in order. -/
theorem rel_or_rel_of_pairwise {α : Type} {R : α → α → Prop} {list : List α} {a b : α}
    (hlist : list.Pairwise R) (ha : a ∈ list) (hb : b ∈ list) (hne : a ≠ b) : R a b ∨ R b a := by
  have : Std.Symm fun a b => R a b ∨ R b a := ⟨fun _ _ => Or.symm⟩
  have heither : list.Pairwise fun a b => R a b ∨ R b a := hlist.imp .inl
  exact heither.forall ha hb hne

namespace Block

/-- The position after the last byte of the block. -/
def stop (block : Block) : Nat := block.base.val + block.bytes.length

/-- The position is that of a byte of the block. -/
def Covers (block : Block) (position : Nat) : Prop :=
  block.base.val ≤ position ∧ position < block.stop

/-- The whole range lies in the block. -/
def Spans (block : Block) (address : Address) (size : Nat) : Prop :=
  block.base ≤ address ∧ address.val + size ≤ block.stop

/-- The byte of the block at a position. -/
def byteAt? (block : Block) (position : Nat) : Option UInt8 :=
  if block.base.val ≤ position then block.bytes[position - block.base.val]? else none

/-- The bytes are those of the block in the range. -/
structure Supplies (block : Block) (address : Address) (size : Nat) (bytes : List UInt8) :
    Prop where
  length : bytes.length = size
  byte (i : Nat) (hi : i < size) : bytes[i]? = block.byteAt? (address.val + i)

instance (block : Block) (position : Nat) : Decidable (block.Covers position) :=
  inferInstanceAs (Decidable (_ ∧ _))

instance (block : Block) (address : Address) (size : Nat) : Decidable (block.Spans address size) :=
  inferInstanceAs (Decidable (_ ∧ _))

variable {block : Block} {address : Address} {size position : Nat}

/-- A block has a byte where it covers a position. -/
theorem covers_iff_exists_byteAt? :
    block.Covers position ↔ ∃ byte, block.byteAt? position = some byte := by
  rw [← Option.isSome_iff_exists]
  unfold byteAt? Covers stop
  split
  · rw [Option.isSome_iff_ne_none, ne_eq, List.getElem?_eq_none_iff]
    omega
  · simp
    omega

theorem covers_of_spans (hspans : block.Spans address size) {i : Nat} (hi : i < size) :
    block.Covers (address.val + i) := by
  obtain ⟨hbase, hstop⟩ := hspans
  rw [Address.le_def] at hbase
  exact ⟨by omega, by omega⟩

theorem spans_iff (hbase : block.base ≤ address) :
    block.Spans address size ↔ address.val - block.base.val ≤ block.bytes.length ∧
      ((block.bytes.drop (address.val - block.base.val)).take size).length = size := by
  rw [List.length_take, List.length_drop, Spans, stop, Address.le_def]
  rw [Address.le_def] at hbase
  omega

/-- What is cut from a block are its bytes in the range. -/
theorem supplies_slice (hspans : block.Spans address size) :
    block.Supplies address size
      ((block.bytes.drop (address.val - block.base.val)).take size) := by
  obtain ⟨hbase, hstop⟩ := hspans
  rw [Address.le_def] at hbase
  unfold stop at hstop
  constructor
  · rw [List.length_take, List.length_drop]
    omega
  · intro i hi
    rw [byteAt?, if_pos (by omega), List.getElem?_take_of_lt hi, List.getElem?_drop]
    congr 1
    omega

end Block

namespace Snapshot

/-- The regions of the snapshot in ascending order. -/
def blocks (s : Snapshot) : List Block :=
  s.regions.entries.map fun entry => ⟨entry.1, entry.2⟩

/-- Another region begins after the base of the region, at or below the
address. -/
def HiddenAt (s : Snapshot) (region : Block) (address : Address) : Prop :=
  ∃ other ∈ s.blocks, region.base < other.base ∧ other.base ≤ address

instance (s : Snapshot) (region : Block) (address : Address) :
    Decidable (s.HiddenAt region address) :=
  inferInstanceAs (Decidable (∃ other ∈ s.blocks, _))

/-- The region begins at or next below the address. -/
structure Nearest (s : Snapshot) (address : Address) (region : Block) : Prop where
  mem : region ∈ s.blocks
  le : region.base ≤ address
  visible : ¬s.HiddenAt region address

variable {s : Snapshot} {region : Block} {address : Address} {size : Nat}

theorem mem_blocks_iff : region ∈ s.blocks ↔ (region.base, region.bytes) ∈ s.regions.entries := by
  simp only [blocks, List.mem_map]
  constructor
  · rintro ⟨entry, hentry, rfl⟩
    exact hentry
  · intro hentry
    exact ⟨_, hentry, rfl⟩

theorem not_precedes_iff {a b : Address} : Key.precedes a b = false ↔ b ≤ a := by
  simp [Key.precedes, Address.lt_def, Address.le_def]

theorem precedes_iff {a b : Address} : Key.precedes a b = true ↔ a < b := by
  simp [Key.precedes]

/-- A read looks at the nearest region. -/
theorem nearest_of_floor? {base : Address} {bytes : List UInt8}
    (hfound : s.regions.floor? address = some (base, bytes)) :
    s.Nearest address ⟨base, bytes⟩ := by
  obtain ⟨hmem, hle, hgreatest⟩ := SortedMap.floor?_eq_some_iff.1 hfound
  refine ⟨mem_blocks_iff.2 hmem, not_precedes_iff.1 hle, ?_⟩
  rintro ⟨other, hother, hafter, hbelow⟩
  have habove := hgreatest _ (mem_blocks_iff.1 hother) (precedes_iff.2 hafter)
  exact Nat.not_lt.2 hbelow (precedes_iff.1 habove)

theorem floor?_of_nearest (hnearest : s.Nearest address region) :
    s.regions.floor? address = some (region.base, region.bytes) := by
  refine SortedMap.floor?_eq_some_iff.2
    ⟨mem_blocks_iff.1 hnearest.mem, not_precedes_iff.2 hnearest.le, fun entry hentry hafter => ?_⟩
  rw [precedes_iff] at hafter ⊢
  by_contra hnot
  refine hnearest.visible ⟨⟨entry.1, entry.2⟩, mem_blocks_iff.2 hentry, hafter, ?_⟩
  rw [Address.lt_def] at hnot
  exact Nat.not_lt.1 hnot

/-- A read below all regions fails. -/
theorem read_of_floor?_eq_none (hfound : s.regions.floor? address = none) :
    s.read address size =
      .error (.readFault (address.display s.width) size "address not captured") := by
  unfold read
  simp only [hfound]

/-- A read that succeeds looks at a region. -/
theorem exists_nearest_of_read {answer : List UInt8} (hread : s.read address size = .ok answer) :
    ∃ region, s.Nearest address region := by
  cases hfound : s.regions.floor? address with
  | none =>
    rw [read_of_floor?_eq_none hfound] at hread
    contradiction
  | some entry => exact ⟨_, nearest_of_floor? hfound⟩

/-- The nearest region alone decides about a read. -/
theorem read_eq_of_nearest (hnearest : s.Nearest address region) :
    s.read address size =
      if 0x10000000000000000 ≤ address.val - region.base.val + size then
        .error (.readFault (address.display s.width) size "size overflows")
      else if region.Spans address size then
        .ok ((region.bytes.drop (address.val - region.base.val)).take size)
      else .error (.readFault (address.display s.width) size "range not captured") := by
  unfold read
  simp only [floor?_of_nearest hnearest, Block.spans_iff hnearest.le]

/-- The nearest region answers for the ranges that it spans. -/
theorem read_of_nearest (hnearest : s.Nearest address region)
    (hsized : region.bytes.length < 0x10000000000000000) :
    (region.Spans address size → s.read address size =
      .ok ((region.bytes.drop (address.val - region.base.val)).take size)) ∧
    (¬region.Spans address size → ∃ reason,
      s.read address size = .error (.readFault (address.display s.width) size reason)) := by
  rw [read_eq_of_nearest hnearest]
  constructor
  · intro hspans
    have hle := hnearest.le
    rw [Address.le_def] at hle
    have hstop := hspans.2
    unfold Block.stop at hstop
    rw [if_neg (by omega), if_pos hspans]
  · intro hspans
    rw [if_neg hspans]
    split
    · exact ⟨_, rfl⟩
    · exact ⟨_, rfl⟩

theorem read_eq_ok_iff_of_nearest (hnearest : s.Nearest address region) {answer : List UInt8} :
    s.read address size = .ok answer ↔
      address.val - region.base.val + size < 0x10000000000000000 ∧ region.Spans address size ∧
        (region.bytes.drop (address.val - region.base.val)).take size = answer := by
  rw [read_eq_of_nearest hnearest]
  split_ifs with hlarge hspans
  · simp [Nat.not_lt.2 hlarge]
  · simp [Nat.not_le.1 hlarge, hspans]
  · simp [hspans]

/-- A region answers for the ranges that it spans, unless it is hidden. -/
theorem read_of_visible (hsized : region.bytes.length < 0x10000000000000000)
    (hregion : region ∈ s.blocks) (hspans : region.Spans address size)
    (hvisible : ¬s.HiddenAt region address) :
    ∃ bytes, s.read address size = .ok bytes ∧ region.Supplies address size bytes :=
  ⟨_, (read_of_nearest ⟨hregion, hspans.1, hvisible⟩ hsized).1 hspans, Block.supplies_slice hspans⟩

/-- A read fails if every region that spans its range is hidden. -/
theorem read_of_hidden
    (hsized : ∀ region ∈ s.blocks, region.bytes.length < 0x10000000000000000)
    (hhidden : ∀ region ∈ s.blocks, region.Spans address size → s.HiddenAt region address) :
    ∃ reason, s.read address size = .error (.readFault (address.display s.width) size reason) := by
  cases hfound : s.regions.floor? address with
  | none => exact ⟨_, read_of_floor?_eq_none hfound⟩
  | some entry =>
    have hnearest := nearest_of_floor? hfound
    refine (read_of_nearest hnearest (hsized _ hnearest.mem)).2 fun hspans => ?_
    exact hnearest.visible (hhidden _ hnearest.mem hspans)

/-! ## Regions that lie apart -/

/-- Nothing is hidden in regions that lie apart. -/
theorem not_hiddenAt_of_apart
    (hapart : s.blocks.Pairwise fun region next => region.stop ≤ next.base.val)
    (hregion : region ∈ s.blocks) (hcovers : region.Covers address.val) :
    ¬s.HiddenAt region address := by
  rintro ⟨other, hother, hafter, hbelow⟩
  rw [Address.lt_def] at hafter
  rw [Address.le_def] at hbelow
  have hne : region ≠ other := by
    rintro rfl
    exact Nat.lt_irrefl _ hafter
  have hcovered := hcovers.2
  rcases rel_or_rel_of_pairwise hapart hregion hother hne with hbefore | hbehind
  · omega
  · unfold Block.stop at hbehind
    omega

/-- Among regions that lie apart the one that spans a range answers, and the
read fails where none does. -/
theorem read_of_apart
    (hapart : s.blocks.Pairwise fun region next => region.stop ≤ next.base.val)
    (hsized : ∀ region ∈ s.blocks, region.bytes.length < 0x10000000000000000)
    (address : Address) {size : Nat} (hsize : 1 ≤ size) :
    (∃ region ∈ s.blocks, region.Spans address size ∧
      ∃ bytes, s.read address size = .ok bytes ∧ region.Supplies address size bytes) ∨
    (∀ region ∈ s.blocks, ¬region.Spans address size) ∧
      ∃ reason,
        s.read address size = .error (.readFault (address.display s.width) size reason) := by
  by_cases hspanned : ∃ region ∈ s.blocks, region.Spans address size
  · obtain ⟨region, hregion, hspans⟩ := hspanned
    have hvisible := not_hiddenAt_of_apart hapart hregion (Block.covers_of_spans hspans hsize)
    exact .inl ⟨region, hregion, hspans,
      read_of_visible (hsized region hregion) hregion hspans hvisible⟩
  · have hnone : ∀ region ∈ s.blocks, ¬region.Spans address size := fun region hregion hspans =>
      hspanned ⟨region, hregion, hspans⟩
    exact .inr ⟨hnone, read_of_hidden hsized fun region hregion hspans =>
      absurd hspans (hnone region hregion)⟩

/-! ## All reads -/

/-- Which reads succeed: a region that spans the range answers with its bytes
unless it is hidden, and the read fails if every region that spans the range is
hidden, as it does if there is none. -/
theorem read_of_spanning_regions (s : Snapshot)
    (hsized : ∀ region ∈ s.blocks, region.bytes.length < 0x10000000000000000)
    (address : Address) (size : Nat) :
    (∀ region ∈ s.blocks, region.Spans address size → ¬s.HiddenAt region address →
      ∃ bytes, s.read address size = .ok bytes ∧ region.Supplies address size bytes) ∧
    ((∀ region ∈ s.blocks, region.Spans address size → s.HiddenAt region address) →
      ∃ reason,
        s.read address size = .error (.readFault (address.display s.width) size reason)) :=
  ⟨fun _ hregion => read_of_visible (hsized _ hregion) hregion, read_of_hidden hsized⟩

/-! ## An example -/

/-- A region of eight bytes, with an empty region at its third byte. -/
def notched : Snapshot :=
  (addRegion ⟨.bits64, none, .empty⟩ (.ofNat 0x10000) [1, 2, 3, 4, 5, 6, 7, 8]).addRegion
    (.ofNat 0x10002) []

/-- The example is read before the empty region and not behind it. -/
theorem read_notched :
    let region : Block := ⟨.ofNat 0x10000, [1, 2, 3, 4, 5, 6, 7, 8]⟩
    region ∈ notched.blocks ∧ region.Spans (.ofNat 0x10000) 2 ∧ region.Spans (.ofNat 0x10004) 2 ∧
    (∃ bytes, notched.read (.ofNat 0x10000) 2 = .ok bytes ∧
      region.Supplies (.ofNat 0x10000) 2 bytes) ∧
    ∃ reason, notched.read (.ofNat 0x10004) 2 =
      .error (.readFault "0x0000000000010004" 2 reason) := by
  intro region
  have hsized : ∀ region ∈ notched.blocks, region.bytes.length < 0x10000000000000000 := by
    decide +kernel
  have hregion : region ∈ notched.blocks := by decide +kernel
  have hhidden : ∀ region ∈ notched.blocks, region.Spans (.ofNat 0x10004) 2 →
      notched.HiddenAt region (.ofNat 0x10004) := by
    decide +kernel
  have hspans : region.Spans (.ofNat 0x10000) 2 := by decide +kernel
  exact ⟨hregion, hspans, by decide +kernel,
    (read_of_spanning_regions notched hsized (.ofNat 0x10000) 2).1 region hregion hspans
      (by decide +kernel),
    (read_of_spanning_regions notched hsized (.ofNat 0x10004) 2).2 hhidden⟩

end Snapshot

end Rtti
