import Rtti.Memory.Minidump
import Rtti.Proofs.Memory.Regions
import Rtti.Proofs.SortedMap.Filling

/-!
# Reads of joined blocks

A snapshot of blocks loses none of their bytes and invents none.  Joining keeps
the byte of every position (`Block.exists_byteAt?_join`) and leaves a gap
between any two regions (`Block.gaps_join`), so a range without a gap lies in
one region (`Block.exists_spans_of_covered`), from which it is read.

`Snapshot.captures_ofBlocks` says so for the snapshot of a list of blocks and
for that of a dump.

The inductions follow `Block.joinFrom`.  Their invariant is that the block
joined so far and the blocks to come are laid out as the blocks were
(`Block.Laid.joined`).
-/

namespace Rtti

namespace Block

/-- The blocks come in ascending order, none is empty, no two overlap, and each
ends below 64 bits. -/
structure Laid (blocks : List Block) : Prop where
  nonempty : ∀ block ∈ blocks, block.bytes ≠ []
  apart : blocks.Pairwise fun block next => block.stop ≤ next.base.val
  bounded : ∀ block ∈ blocks, block.stop < 0x10000000000000000

variable {current next block region : Block} {rest blocks regions : List Block} {position : Nat}
  {byte : UInt8}

/-! ## Two blocks -/

theorem isFollowedBy_iff : current.isFollowedBy next ↔ current.stop = next.base.val := by
  simp [isFollowedBy, stop]

theorem base_lt_stop (hnonempty : block.bytes ≠ []) : block.base.val < block.stop := by
  have hlength := List.length_pos_of_ne_nil hnonempty
  unfold stop
  omega

theorem stop_joined (hfollows : current.stop = next.base.val) :
    stop ⟨current.base, current.bytes ++ next.bytes⟩ = next.stop := by
  unfold stop at hfollows ⊢
  show current.base.val + (current.bytes ++ next.bytes).length = _
  rw [List.length_append]
  omega

/-- A block joined with the next has the bytes of both. -/
theorem byteAt?_joined (hfollows : current.stop = next.base.val) :
    byteAt? ⟨current.base, current.bytes ++ next.bytes⟩ position = some byte ↔
      current.byteAt? position = some byte ∨ next.byteAt? position = some byte := by
  unfold stop at hfollows
  simp only [byteAt?]
  by_cases hbelow : current.base.val ≤ position
  · rw [if_pos hbelow, if_pos hbelow]
    by_cases hcurrent : position < next.base.val
    · rw [if_neg (by omega), List.getElem?_append_left (by omega)]
      simp
    · rw [if_pos (by omega), List.getElem?_append_right (by omega),
        List.getElem?_eq_none (l := current.bytes) (by omega),
        show position - current.base.val - current.bytes.length = position - next.base.val by omega]
      simp
  · rw [if_neg hbelow, if_neg hbelow, if_neg (by omega)]
    simp

theorem Laid.tail (hlaid : Laid (current :: rest)) : Laid rest where
  nonempty block hblock := hlaid.nonempty block (List.mem_cons_of_mem _ hblock)
  apart := (List.pairwise_cons.1 hlaid.apart).2
  bounded block hblock := hlaid.bounded block (List.mem_cons_of_mem _ hblock)

/-- With its first two blocks joined a list stays laid out. -/
theorem Laid.joined (hlaid : Laid (current :: next :: rest))
    (hfollows : current.stop = next.base.val) :
    Laid (⟨current.base, current.bytes ++ next.bytes⟩ :: rest) where
  nonempty := by
    refine List.forall_mem_cons.2 ⟨fun hnil => ?_, hlaid.tail.tail.nonempty⟩
    exact hlaid.nonempty current List.mem_cons_self (List.append_eq_nil_iff.1 hnil).1
  apart := by
    refine List.pairwise_cons.2 ⟨fun block hblock => ?_, hlaid.tail.tail.apart⟩
    rw [stop_joined hfollows]
    exact (List.pairwise_cons.1 hlaid.tail.apart).1 block hblock
  bounded := by
    refine List.forall_mem_cons.2 ⟨?_, hlaid.tail.tail.bounded⟩
    rw [stop_joined hfollows]
    exact hlaid.bounded next (List.mem_cons_of_mem _ List.mem_cons_self)

/-! ## All blocks -/

/-- A region begins with one of the blocks. -/
theorem exists_base_of_mem_joinFrom (hregion : region ∈ joinFrom current rest) :
    ∃ block ∈ current :: rest, block.base = region.base := by
  fun_induction joinFrom current rest with
  | case1 current => exact ⟨region, hregion, rfl⟩
  | case2 current next rest _ ih =>
    obtain ⟨block, hblock, hbase⟩ := ih hregion
    rcases List.mem_cons.1 hblock with rfl | hblock
    · exact ⟨current, List.mem_cons_self, hbase⟩
    · exact ⟨block, by simp [hblock], hbase⟩
  | case3 current next rest _ ih =>
    rcases List.mem_cons.1 hregion with rfl | hregion
    · exact ⟨region, List.mem_cons_self, rfl⟩
    · obtain ⟨block, hblock, hbase⟩ := ih hregion
      exact ⟨block, List.mem_cons_of_mem _ hblock, hbase⟩

/-- A region ends below 64 bits. -/
theorem bounded_joinFrom (hlaid : Laid (current :: rest))
    (hregion : region ∈ joinFrom current rest) : region.stop < 0x10000000000000000 := by
  fun_induction joinFrom current rest with
  | case1 current => exact hlaid.bounded region hregion
  | case2 current next rest hfollows ih =>
    exact ih (hlaid.joined (isFollowedBy_iff.1 hfollows)) hregion
  | case3 current next rest _ ih =>
    rcases List.mem_cons.1 hregion with rfl | hregion
    · exact hlaid.bounded region List.mem_cons_self
    · exact ih hlaid.tail hregion

/-- There is a gap between any two regions. -/
theorem gaps_joinFrom (hlaid : Laid (current :: rest)) :
    (joinFrom current rest).Pairwise fun region next => region.stop < next.base.val := by
  fun_induction joinFrom current rest with
  | case1 current => exact List.pairwise_singleton _ _
  | case2 current next rest hfollows ih => exact ih (hlaid.joined (isFollowedBy_iff.1 hfollows))
  | case3 current next rest hapart ih =>
    rw [isFollowedBy_iff] at hapart
    refine List.pairwise_cons.2 ⟨fun region hregion => ?_, ih hlaid.tail⟩
    obtain ⟨block, hblock, hbase⟩ := exists_base_of_mem_joinFrom hregion
    have hnext := (List.pairwise_cons.1 hlaid.apart).1 next List.mem_cons_self
    rw [← hbase]
    rcases List.mem_cons.1 hblock with rfl | hblock
    · omega
    · have hlater := (List.pairwise_cons.1 hlaid.tail.apart).1 block hblock
      have hfilled := base_lt_stop (hlaid.tail.nonempty next List.mem_cons_self)
      omega

/-- The regions have the bytes of the blocks and no others. -/
theorem exists_byteAt?_joinFrom :
    (∃ region ∈ joinFrom current rest, region.byteAt? position = some byte) ↔
      ∃ block ∈ current :: rest, block.byteAt? position = some byte := by
  fun_induction joinFrom current rest with
  | case1 current => rfl
  | case2 current next rest hfollows ih =>
    rw [ih]
    simp only [List.exists_mem_cons_iff, byteAt?_joined (isFollowedBy_iff.1 hfollows), or_assoc]
  | case3 current next rest _ ih =>
    rw [List.exists_mem_cons_iff, List.exists_mem_cons_iff, ih]

theorem bounded_join (hlaid : Laid blocks) (hregion : region ∈ join blocks) :
    region.stop < 0x10000000000000000 := by
  cases blocks with
  | nil => contradiction
  | cons first rest => exact bounded_joinFrom hlaid hregion

theorem gaps_join (hlaid : Laid blocks) :
    (join blocks).Pairwise fun region next => region.stop < next.base.val := by
  cases blocks with
  | nil => exact List.Pairwise.nil
  | cons first rest => exact gaps_joinFrom hlaid

theorem exists_byteAt?_join :
    (∃ region ∈ join blocks, region.byteAt? position = some byte) ↔
      ∃ block ∈ blocks, block.byteAt? position = some byte := by
  cases blocks with
  | nil => rfl
  | cons first rest => exact exists_byteAt?_joinFrom

/-- The regions cover the positions of the blocks and no others. -/
theorem exists_covers_join :
    (∃ region ∈ join blocks, region.Covers position) ↔ ∃ block ∈ blocks, block.Covers position := by
  simp only [covers_iff_exists_byteAt?]
  constructor
  · rintro ⟨region, hregion, byte, hbyte⟩
    obtain ⟨block, hblock, hheld⟩ := exists_byteAt?_join.1 ⟨region, hregion, hbyte⟩
    exact ⟨block, hblock, byte, hheld⟩
  · rintro ⟨block, hblock, byte, hbyte⟩
    obtain ⟨region, hregion, hheld⟩ := exists_byteAt?_join.2 ⟨block, hblock, hbyte⟩
    exact ⟨region, hregion, byte, hheld⟩

/-- No position is covered twice. -/
theorem eq_of_covers {a b : Block}
    (hgaps : regions.Pairwise fun region next => region.stop < next.base.val) (ha : a ∈ regions)
    (hb : b ∈ regions) (hcoversA : a.Covers position) (hcoversB : b.Covers position) : a = b := by
  by_contra hne
  obtain ⟨hfromA, htoA⟩ := hcoversA
  obtain ⟨hfromB, htoB⟩ := hcoversB
  rcases rel_or_rel_of_pairwise hgaps ha hb hne with hbefore | hbehind <;> omega

/-- Where all positions of a range are covered and any two regions have a gap
between them, one region spans the range. -/
theorem exists_spans_of_covered {address : Address} {size : Nat} (hsize : 1 ≤ size)
    (hgaps : regions.Pairwise fun region next => region.stop < next.base.val)
    (hcovered : ∀ position, address.val ≤ position → position < address.val + size →
      ∃ region ∈ regions, region.Covers position) :
    ∃ region ∈ regions, region.Spans address size := by
  obtain ⟨region, hregion, hbase, hstop⟩ := hcovered address.val (Nat.le_refl _) (by omega)
  refine ⟨region, hregion, hbase, ?_⟩
  by_contra hshort
  -- the position after the region would be covered by a region that touches it
  obtain ⟨other, hother, hotherBase, hotherStop⟩ := hcovered region.stop (by omega) (by omega)
  have hne : region ≠ other := by
    rintro rfl
    exact Nat.lt_irrefl _ hotherStop
  rcases rel_or_rel_of_pairwise hgaps hregion hother hne with hbefore | hbehind
  · omega
  · have hfilled : region.base.val ≤ region.stop := Nat.le_add_right _ _
    omega

end Block

/-! ## Snapshots of blocks -/

namespace Snapshot

variable {s : Snapshot} {blocks regions : List Block} {width : PointerWidth}
  {imageName : Option String}

/-- The snapshot has the bytes of the blocks and no others, and there is a gap
between any two of its regions. -/
structure Captures (s : Snapshot) (blocks : List Block) : Prop where
  gaps : s.blocks.Pairwise fun region next => region.stop < next.base.val
  /-- A read succeeds exactly if the blocks cover its range. -/
  succeeds (address : Address) (size : Nat) (hsize : 1 ≤ size) :
    (∃ bytes, s.read address size = .ok bytes) ↔
      ∀ position, address.val ≤ position → position < address.val + size →
        ∃ block ∈ blocks, block.Covers position
  /-- It gives the byte that a block has at each position. -/
  bytes (address : Address) (size : Nat) (hsize : 1 ≤ size) (bytes : List UInt8)
    (hread : s.read address size = .ok bytes) : bytes.length = size ∧
      ∀ i < size, ∀ block ∈ blocks, block.Covers (address.val + i) →
        bytes[i]? = block.byteAt? (address.val + i)
  /-- Every other read is a read fault. -/
  faults (address : Address) (size : Nat) (hsize : 1 ≤ size) (error : ScanError)
    (hread : s.read address size = .error error) :
      ∃ reason, error = .readFault (address.display s.width) size reason

theorem regions_foldl_addRegion :
    (regions.foldl (fun s block => s.addRegion block.base block.bytes) s).regions =
      (regions.map fun block => (block.base, block.bytes)).foldl
        (fun m entry => m.insert entry.1 entry.2) s.regions := by
  induction regions generalizing s with
  | nil => rfl
  | cons region regions ih =>
    rw [List.foldl_cons, ih]
    rfl

/-- The regions of a snapshot of blocks are the joined blocks. -/
theorem blocks_ofBlocks (hlaid : Block.Laid blocks) :
    (ofBlocks width imageName blocks).blocks = Block.join blocks := by
  have hascending : ((Block.join blocks).map fun block => (block.base, block.bytes)).Pairwise
      fun p q => Key.precedes p.1 q.1 := by
    rw [List.pairwise_map]
    refine (Block.gaps_join hlaid).imp fun {region next} hgap => precedes_iff.2 ?_
    exact Nat.lt_of_le_of_lt (Nat.le_add_right _ _) hgap
  have hregions : (ofBlocks width imageName blocks).regions =
      .ofList ((Block.join blocks).map fun block => (block.base, block.bytes)) :=
    regions_foldl_addRegion
  rw [Snapshot.blocks, hregions, SortedMap.entries_ofList hascending, List.map_map]
  exact List.map_id _

section Joined

variable {address : Address} {size : Nat} {bytes : List UInt8}

theorem gaps_of_eq_join (hlaid : Block.Laid blocks) (hjoin : s.blocks = Block.join blocks) :
    s.blocks.Pairwise fun region next => region.stop < next.base.val := by
  rw [hjoin]
  exact Block.gaps_join hlaid

/-- The region that spans a range answers, and the read fails where none
does. -/
theorem read_of_eq_join (hlaid : Block.Laid blocks) (hjoin : s.blocks = Block.join blocks)
    (hsize : 1 ≤ size) :
    (∃ region ∈ s.blocks, region.Spans address size ∧
      ∃ bytes, s.read address size = .ok bytes ∧ region.Supplies address size bytes) ∨
    (∀ region ∈ s.blocks, ¬region.Spans address size) ∧
      ∃ reason,
        s.read address size = .error (.readFault (address.display s.width) size reason) := by
  have hsized : ∀ region ∈ s.blocks, region.bytes.length < 0x10000000000000000 := by
    rw [hjoin]
    intro region hregion
    exact Nat.lt_of_le_of_lt (Nat.le_add_left _ _) (Block.bounded_join hlaid hregion)
  exact read_of_apart ((gaps_of_eq_join hlaid hjoin).imp fun hgap => Nat.le_of_lt hgap) hsized
    address hsize

/-- A read succeeds exactly if the blocks cover its range. -/
theorem exists_read_iff (hlaid : Block.Laid blocks) (hjoin : s.blocks = Block.join blocks)
    (hsize : 1 ≤ size) :
    (∃ bytes, s.read address size = .ok bytes) ↔
      ∀ position, address.val ≤ position → position < address.val + size →
        ∃ block ∈ blocks, block.Covers position := by
  have hcovers : ∀ position, (∃ region ∈ s.blocks, region.Covers position) ↔
      ∃ block ∈ blocks, block.Covers position := by
    rw [hjoin]
    exact fun position => Block.exists_covers_join
  constructor
  · rintro ⟨bytes, hread⟩ position hfrom hto
    obtain ⟨region, hregion, hspans, -⟩ | ⟨-, reason, hfault⟩ := read_of_eq_join hlaid hjoin hsize
    · have hcovered := Block.covers_of_spans hspans (i := position - address.val) (by omega)
      rw [show address.val + (position - address.val) = position by omega] at hcovered
      exact (hcovers position).1 ⟨region, hregion, hcovered⟩
    · rw [hread] at hfault
      contradiction
  · intro hcovered
    obtain ⟨region, hregion, hspans⟩ := Block.exists_spans_of_covered hsize
      (gaps_of_eq_join hlaid hjoin) fun position hfrom hto =>
        (hcovers position).2 (hcovered position hfrom hto)
    obtain ⟨-, -, -, bytes, hread, -⟩ | ⟨hnone, -⟩ := read_of_eq_join hlaid hjoin hsize
    · exact ⟨bytes, hread⟩
    · exact absurd hspans (hnone region hregion)

/-- A read gives the byte that a block has at each position. -/
theorem bytes_of_read (hlaid : Block.Laid blocks) (hjoin : s.blocks = Block.join blocks)
    (hsize : 1 ≤ size) (hread : s.read address size = .ok bytes) :
    bytes.length = size ∧
      ∀ i < size, ∀ block ∈ blocks, block.Covers (address.val + i) →
        bytes[i]? = block.byteAt? (address.val + i) := by
  obtain ⟨region, hregion, hspans, found, hfound, hsupplies⟩ | ⟨-, reason, hfault⟩ :=
    read_of_eq_join hlaid hjoin hsize
  · obtain rfl : bytes = found := Except.ok.inj (hread.symm.trans hfound)
    refine ⟨hsupplies.length, fun i hi block hblock hcovered => ?_⟩
    rw [hsupplies.byte i hi]
    -- the region that has the byte of the block covers the position, as the spanning one does
    obtain ⟨byte, hbyte⟩ := Block.covers_iff_exists_byteAt?.1 hcovered
    obtain ⟨holder, hholder, hheld⟩ := Block.exists_byteAt?_join.2 ⟨block, hblock, hbyte⟩
    rw [← hjoin] at hholder
    obtain rfl : holder = region := Block.eq_of_covers (gaps_of_eq_join hlaid hjoin) hholder hregion
      (Block.covers_iff_exists_byteAt?.2 ⟨byte, hheld⟩) (Block.covers_of_spans hspans hi)
    rw [hheld, hbyte]
  · rw [hread] at hfault
    contradiction

/-- A snapshot whose regions are the joined blocks captures them. -/
theorem captures_of_eq_join (hlaid : Block.Laid blocks) (hjoin : s.blocks = Block.join blocks) :
    s.Captures blocks where
  gaps := gaps_of_eq_join hlaid hjoin
  succeeds _ _ hsize := exists_read_iff hlaid hjoin hsize
  bytes _ _ hsize _ hread := bytes_of_read hlaid hjoin hsize hread
  faults address size hsize error hread := by
    obtain ⟨-, -, -, bytes, hfound, -⟩ | ⟨-, reason, hfault⟩ := read_of_eq_join hlaid hjoin hsize
    · rw [hread] at hfound
      contradiction
    · exact ⟨reason, Except.error.inj (hread.symm.trans hfault)⟩

end Joined

end Snapshot

/-! ## Snapshots of dumps -/

/-- The blocks of a dump that have bytes, in ascending order. -/
def Minidump.blocks (dump : Minidump) : List Block :=
  (dump.memory.entries.map fun entry => Block.mk entry.1 entry.2).filter
    fun block => !block.bytes.isEmpty

namespace Snapshot

/-- The snapshot of laid out blocks captures them, and so does that of a dump
that has these blocks. -/
theorem captures_ofBlocks {blocks : List Block} (hlaid : Block.Laid blocks) :
    (∀ width imageName, (ofBlocks width imageName blocks).Captures blocks) ∧
    ∀ (dump : Minidump) (fallback : Option String), dump.blocks = blocks →
      (dump.snapshot fallback).Captures blocks := by
  have hsnapshot : ∀ width imageName, (ofBlocks width imageName blocks).Captures blocks :=
    fun _ _ => captures_of_eq_join hlaid (blocks_ofBlocks hlaid)
  refine ⟨hsnapshot, ?_⟩
  rintro dump fallback rfl
  exact hsnapshot dump.width (dump.imageName?.or fallback)

/-- A dump with two blocks that follow each other, an empty one and one behind
a gap of a byte. -/
def gappedDump : Minidump where
  width := .bits64
  memory := .ofList [(.ofNat 0x1000, [1, 2, 3, 4]), (.ofNat 0x1004, [5, 6]), (.ofNat 0x1005, []),
    (.ofNat 0x1007, [9])]
  modules := []

theorem captures_gappedDump :
    Block.Laid gappedDump.blocks ∧ (gappedDump.snapshot none).Captures gappedDump.blocks ∧
    (gappedDump.snapshot none).regionCount = 2 ∧
    (gappedDump.snapshot none).read (.ofNat 0x1002) 4 = .ok [3, 4, 5, 6] := by
  have hlaid : Block.Laid gappedDump.blocks :=
    ⟨by decide +kernel, by decide +kernel, by decide +kernel⟩
  exact ⟨hlaid, (captures_ofBlocks hlaid).2 gappedDump none rfl, by decide +kernel,
    by decide +kernel⟩

end Snapshot

end Rtti
