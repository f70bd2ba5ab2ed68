import Rtti.Memory.Reader
import Rtti.Proofs.Memory.Regions
import Rtti.Proofs.Memory.Run

/-!
# Targets with more memory

A target is extended by another that answers every read that succeeds on it,
with the same bytes (`Target.ExtendedBy`).  A snapshot, for example, is
extended by the snapshot with one more region that lies apart from the others
(`Snapshot.extendedBy_addRegion`).

An inspection that ends with a value on a target ends with the same value on
an extension, as long as its optional reads succeed on the target itself
(`Inspection.run_eq_of_extendedBy`).  One that fails may succeed on the
extension, and the values may then differ.  `Inspection.Carries` compares them
by a relation; it is proved along the definition of an inspection, one lemma
for each kind of step before the rest.
-/

namespace Rtti

/-! ## Extensions -/

/-- Every read that succeeds on the first target with the requested number of
bytes gives the same bytes on the second. -/
structure Target.ExtendedBy (small large : Target) : Prop where
  width_eq : small.width = large.width
  memory_eq (address : Address) (size : Nat) (bytes : List UInt8) :
    small.memory address size = .ok bytes → bytes.length = size →
      large.memory address size = .ok bytes

namespace Target

variable {small large : Target} {address : Address} {size : Nat} {bytes : List UInt8}

theorem ExtendedBy.read_eq (hextended : small.ExtendedBy large)
    (hread : small.read address size = .ok bytes) : large.read address size = .ok bytes := by
  rw [read_eq_ok_iff] at hread ⊢
  exact ⟨hextended.memory_eq address size bytes hread.1 hread.2, hread.2⟩

end Target

/-! ## Snapshots with one more region -/

namespace Snapshot

variable {s : Snapshot} {base address : Address} {bytes : List UInt8} {size : Nat}
  {region : Block}

/-- The new region is not looked at below its base, nor behind another region
that begins above it. -/
theorem nearest_addRegion (hnearest : s.Nearest address region) (hother : region.base ≠ base)
    (hbetween : ¬(region.base < base ∧ base ≤ address)) :
    (s.addRegion base bytes).Nearest address region where
  mem := mem_blocks_iff.2 (SortedMap.mem_entries_insert.2
    (.inr ⟨mem_blocks_iff.1 hnearest.mem, hother⟩))
  le := hnearest.le
  visible := by
    rintro ⟨next, hnext, hafter, hbelow⟩
    rcases SortedMap.mem_entries_insert.1 (mem_blocks_iff.1 hnext) with hadded | ⟨hmem, -⟩
    · obtain rfl : next.base = base := congrArg Prod.fst hadded
      exact hbetween ⟨hafter, hbelow⟩
    · exact hnearest.visible ⟨next, mem_blocks_iff.2 hmem, hafter, hbelow⟩

/-- The new region is looked at from its base on, up to the next region. -/
theorem nearest_addRegion_self (hnearest : s.Nearest address region) (hafter : region.base < base)
    (hbelow : base ≤ address) : (s.addRegion base bytes).Nearest address ⟨base, bytes⟩ where
  mem := mem_blocks_iff.2 (SortedMap.mem_entries_insert.2 (.inl rfl))
  le := hbelow
  visible := by
    rintro ⟨next, hnext, hlater, hnextBelow⟩
    rcases SortedMap.mem_entries_insert.1 (mem_blocks_iff.1 hnext) with hadded | ⟨hmem, -⟩
    · obtain rfl : next.base = base := congrArg Prod.fst hadded
      exact Nat.lt_irrefl _ hlater
    · exact hnearest.visible ⟨next, mem_blocks_iff.2 hmem, Nat.lt_trans hafter hlater, hnextBelow⟩

/-- A region that begins neither inside another one nor at its base adds to
what can be read and changes nothing else. -/
theorem extendedBy_addRegion
    (hapart : ∀ region ∈ s.blocks, region.base < base → region.stop ≤ base.val)
    (hnew : ∀ region ∈ s.blocks, region.base ≠ base) :
    s.target.ExtendedBy (s.addRegion base bytes).target := by
  refine ⟨rfl, fun address size answer hread _ => ?_⟩
  show (s.addRegion base bytes).read address size = .ok answer
  change s.read address size = .ok answer at hread
  obtain ⟨region, hnearest⟩ := exists_nearest_of_read hread
  obtain ⟨hsize, hspans, hanswer⟩ := (read_eq_ok_iff_of_nearest hnearest).1 hread
  by_cases hbetween : region.base < base ∧ base ≤ address
  · -- the read asks for no byte at the end of its region
    obtain ⟨hafter, hbelow⟩ := hbetween
    have hstop : region.stop ≤ base.val := hapart region hnearest.mem hafter
    have hwithin : address.val + size ≤ region.stop := hspans.2
    have hle : base.val ≤ address.val := hbelow
    have hnone : size = 0 := by omega
    have hsize' : address.val - base.val + size < 0x10000000000000000 := by omega
    have hspans' : Block.Spans ⟨base, bytes⟩ address size := by
      refine ⟨hbelow, ?_⟩
      show address.val + size ≤ base.val + bytes.length
      omega
    refine (read_eq_ok_iff_of_nearest (nearest_addRegion_self hnearest hafter hbelow)).2
      ⟨hsize', hspans', ?_⟩
    rw [← hanswer, hnone, List.take_zero, List.take_zero]
  · have hother := hnew region hnearest.mem
    exact (read_eq_ok_iff_of_nearest (nearest_addRegion hnearest hother hbetween)).2
      ⟨hsize, hspans, hanswer⟩

end Snapshot

/-! ## Inspections on an extension -/

namespace Inspection

variable {α β : Type} {small large : Target}

/-- An inspection ends with the same value on an extension if its optional
reads succeed on the target. -/
theorem run_eq_of_extendedBy (hextended : small.ExtendedBy large) {x : Inspection α} {value : α}
    (hoptional : ∀ access ∈ x.reads small, access.isOptional = true →
      ∃ bytes, small.read access.address access.size = .ok bytes)
    (hrun : x.run small = .ok value) : x.run large = .ok value := by
  induction x with
  | done => exact hrun
  | fail => exact hrun
  | read address size next ih =>
    unfold run at hrun ⊢
    unfold reads at hoptional
    cases hread : small.read address size with
    | error error =>
      rw [hread] at hrun
      contradiction
    | ok bytes =>
      rw [hread] at hrun hoptional
      rw [hextended.read_eq hread]
      exact ih bytes (fun access haccess => hoptional access (List.mem_cons_of_mem _ haccess)) hrun
  | tryRead address size next ih =>
    unfold run at hrun ⊢
    unfold reads at hoptional
    obtain ⟨bytes, hread⟩ := hoptional _ List.mem_cons_self rfl
    rw [hread] at hrun hoptional
    rw [hextended.read_eq hread]
    exact ih (some bytes)
      (fun access haccess => hoptional access (List.mem_cons_of_mem _ haccess)) hrun

/-- If the first inspection ends with a value on `small`, the second ends on
`large` with a value related to it. -/
def Carries (small large : Target) (rel : α → α → Prop) (x y : Inspection α) : Prop :=
  ∀ value, x.run small = .ok value → ∃ other, y.run large = .ok other ∧ rel value other

variable {rel : α → α → Prop} {relf : β → β → Prop} {x y : Inspection α} {f g : α → Inspection β}

theorem carries_done {value other : α} (hrel : rel value other) :
    (done value).Carries small large rel (done other) := by
  intro _ hvalue
  obtain rfl := Except.ok.inj hvalue
  exact ⟨other, rfl, hrel⟩

theorem carries_fail {error : ScanError} : (fail error).Carries small large rel y :=
  fun _ hrun => nomatch hrun

theorem Carries.bind (hx : x.Carries small large rel y)
    (hf : ∀ value other, rel value other → (f value).Carries small large relf (g other)) :
    (x >>= f).Carries small large relf (y >>= g) := by
  intro result hrun
  obtain ⟨value, hvalue, hrest⟩ := exists_of_run_bind_eq_ok hrun
  obtain ⟨other, hother, hrel⟩ := hx value hvalue
  obtain ⟨result', hresult, hrelf⟩ := hf value other hrel result hrest
  exact ⟨result', by rw [run_bind_of_ok hother, hresult], hrelf⟩

theorem carries_lift_bind {result : Except ScanError α}
    (hf : ∀ value, (f value).Carries small large relf (g value)) :
    (liftM result >>= f).Carries small large relf (liftM result >>= g) := by
  cases result with
  | ok value => exact hf value
  | error error => exact carries_fail

section Reads

variable {address : Address} {size : Nat}

theorem carries_read (hextended : small.ExtendedBy large) {next next' : List UInt8 → Inspection α}
    (hnext : ∀ bytes, (next bytes).Carries small large rel (next' bytes)) :
    (read address size next).Carries small large rel (read address size next') := by
  intro value hrun
  unfold run at hrun ⊢
  cases hread : small.read address size with
  | error error =>
    rw [hread] at hrun
    contradiction
  | ok bytes =>
    rw [hread] at hrun
    rw [hextended.read_eq hread]
    exact hnext bytes value hrun

theorem carries_word32_bind (hextended : small.ExtendedBy large) {f g : Nat → Inspection β}
    (hf : ∀ value, (f value).Carries small large relf (g value)) :
    (word32 address >>= f).Carries small large relf (word32 address >>= g) :=
  carries_read hextended fun _ => hf _

theorem carries_pointer_bind (hextended : small.ExtendedBy large) {width : PointerWidth}
    {f g : Address → Inspection β}
    (hf : ∀ value, (f value).Carries small large relf (g value)) :
    (pointer width address >>= f).Carries small large relf (pointer width address >>= g) :=
  carries_read hextended fun _ => hf _

theorem carries_text_bind (hextended : small.ExtendedBy large) {units : Nat}
    {encoding : TextEncoding} {f g : String → Inspection β}
    (hf : ∀ value, (f value).Carries small large relf (g value)) :
    (text address units encoding >>= f).Carries small large relf
      (text address units encoding >>= g) := by
  rcases Nat.lt_or_ge (units * encoding.unitSize) 0x10000000000000000 with hsize | hlarge
  · rw [text_eq hsize]
    exact carries_read hextended fun _ => hf _
  · rw [text_eq_fail hlarge]
    exact carries_fail

/-- An optional word may be found on one target only. -/
theorem carries_word?_bind {f g : Option Nat → Inspection β}
    (hf : ∀ value other, (f value).Carries small large relf (g other)) :
    (word? address size >>= f).Carries small large relf (word? address size >>= g) :=
  hf _ _

end Reads

end Inspection

end Rtti
