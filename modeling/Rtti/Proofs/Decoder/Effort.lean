import Rtti.Proofs.Decoder.Reads
import Rtti.Settings

/-!
# The effort of a scan

However hostile the memory is, a scan ends after a number of reads that its
limits determine, and each read is small.  `Decoder.reads_decodeObject_le`
gives the number and the sizes; with settings that pass their check no read
asks for more than 4096 bytes.

Both follow from the rule that the reads of a scan keep to.
-/

namespace Rtti

namespace Inspection

variable {α : Type} {rule : Rule} {breaks : String → Prop}
  {post : List Access → α → Prop} {x : Inspection α}

/-- A rule that allows no read after `bound` reads bounds the reads of a
run. -/
theorem KeepsTo.length_reads_le (hx : x.KeepsTo rule breaks post []) {bound : Nat}
    (hfew : ∀ before access, rule before access → before.length < bound) (target : Target) :
    (x.reads target).length ≤ bound := by
  rcases List.eq_nil_or_concat (x.reads target) with hnone | ⟨before, access, hlast⟩
  · simp [hnone]
  · rw [List.concat_eq_append] at hlast
    have hroom := hfew before access (hx.rule_of_reads hlast)
    rw [hlast, List.length_append, List.length_singleton]
    omega

end Inspection

/-- Names that may be set have at most 4096 code units. -/
theorem Settings.nameUnits_le_of_check {settings : Settings} (hcheck : settings.check = .ok ()) :
    settings.scanner.limits.nameUnits ≤ 4096 := by
  cases hscanner : settings.scanner.check with
  | error error =>
    unfold Settings.check at hcheck
    rw [hscanner] at hcheck
    contradiction
  | ok _ =>
    unfold ScannerSettings.check at hscanner
    split at hscanner
    · contradiction
    · next hlength =>
      show settings.scanner.maxNameLength ≤ ScannerSettings.longestName
      omega

namespace Decoder

variable {decoder : Decoder} {undecorate : Msvc.Undecorator} {target : Target} {text : String}

/-- The number of reads of a scan is within what the limits allow. -/
theorem length_reads_decodeObject_le :
    ((decoder.decodeObject target.width undecorate text).reads target).length ≤
      2 + decoder.readsOfAbi target.width :=
  (keepsTo_decodeObject text).length_reads_le (fun _ _ hrule => hrule.few) target

theorem readSize_of_mem_reads {access : Access}
    (hmem : access ∈ (decoder.decodeObject target.width undecorate text).reads target) :
    decoder.limits.ReadSize target.width access.size := by
  obtain ⟨_, hrule⟩ := (keepsTo_decodeObject text).exists_rule_of_mem_reads hmem
  exact hrule.size

/-- Under checked settings every read of a scan is small. -/
theorem size_le_of_check {settings : Settings} (hcheck : settings.check = .ok ())
    (hlimits : decoder.limits = settings.scanner.limits) {access : Access}
    (hmem : access ∈ (decoder.decodeObject target.width undecorate text).reads target) :
    access.size ≤ 4096 := by
  have hname : decoder.limits.nameUnits ≤ 4096 := hlimits ▸ Settings.nameUnits_le_of_check hcheck
  have hunit : decoder.limits.encoding.unitSize = 1 := hlimits ▸ rfl
  have hpointer : target.width.bytes ≤ 8 := by
    cases target.width <;> decide
  have hsize : decoder.limits.ReadSize target.width access.size := readSize_of_mem_reads hmem
  rw [Limits.ReadSize, hunit] at hsize
  omega

/-- A scan makes a bounded number of reads of few sizes, whatever the memory
holds. -/
theorem reads_decodeObject_le (decoder : Decoder) (undecorate : Msvc.Undecorator) (target : Target)
    (text : String) :
    let limits := decoder.limits
    let reads := (decoder.decodeObject target.width undecorate text).reads target
    (decoder.binding = .bound .itanium →
      reads.length ≤ 4 + limits.nodes * (7 + 4 * max 1 limits.itaniumBases)) ∧
    (decoder.binding = .bound .msvc → reads.length ≤ 6 + 4 * limits.msvcBases) ∧
    (∀ access ∈ reads, access.size = 4 ∨ access.size = target.width.bytes ∨
      access.size = 64 * limits.encoding.unitSize ∨
      access.size = limits.nameUnits * limits.encoding.unitSize) ∧
    ∀ settings : Settings, settings.check = .ok () → limits = settings.scanner.limits →
      ∀ access ∈ reads, access.size ≤ 4096 := by
  intro limits reads
  have hlength : reads.length ≤ 2 + decoder.readsOfAbi target.width := length_reads_decodeObject_le
  refine ⟨?_, ?_, fun _ => readSize_of_mem_reads,
    fun settings hcheck hlimits _ => size_le_of_check hcheck hlimits⟩
  · intro hbinding
    simp only [readsOfAbi, hbinding, Itanium.readsPerClass] at hlength
    show reads.length ≤ 4 + decoder.limits.nodes * (7 + 4 * max 1 decoder.limits.itaniumBases)
    omega
  · intro hbinding
    have hlinks : Msvc.linkReads target.width ≤ 4 := by
      cases target.width <;> decide
    simp only [readsOfAbi, hbinding] at hlength
    show reads.length ≤ 6 + 4 * decoder.limits.msvcBases
    omega

/-! ## An example -/

/-- A memory in which every pointer leads to one class, which inherits
itself. -/
def mirror : Target where
  width := .bits64
  imageName := none
  memory _ size :=
    .ok <| match size with
      | 4 => Word.toBytes 4 1
      | 8 => Word.toBytes 8 0x10000
      | 64 => (Utf8.encode "N10__cxxabiv121__vmi_class_type_infoE").rightpad 64 0
      | size => (Utf8.encode "4Self").rightpad size 0

/-- The scan of the example makes as many reads as it may. -/
theorem reads_mirror_le :
    let settings : Settings := { scanner := { maxItaniumBases := 1, maxNodes := 1 } }
    let decoder : Decoder := ⟨.bound .itanium, settings.scanner.limits⟩
    let reads := (decoder.decodeObject .bits64 .ok "10000").reads mirror
    reads.length = 15 ∧ reads.length ≤ 4 + 1 * (7 + 4 * max 1 1) ∧
      (∀ access ∈ reads, access.size = 4 ∨ access.size = 8 ∨ access.size = 64 ∨
        access.size = 60) ∧ ∀ access ∈ reads, access.size ≤ 4096 := by
  intro settings decoder reads
  have hcheck : Settings.check { scanner := { maxItaniumBases := 1, maxNodes := 1 } } = .ok () :=
    rfl
  obtain ⟨hitanium, -, hsizes, hsmall⟩ := reads_decodeObject_le decoder .ok mirror "10000"
  exact ⟨by decide +kernel, hitanium rfl, hsizes, hsmall settings hcheck rfl⟩

end Decoder

end Rtti
