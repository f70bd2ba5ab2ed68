import Rtti.Memory.Reader
import Rtti.Proofs.Memory.Course
import Rtti.Proofs.Text.CodeUnits

/-!
# Reads of zero-terminated texts

A text is read at once, with all the code units that it may have.
`Inspection.reads_and_run_text` says what becomes of the
window, whatever its bytes are: the text is that of the code units before the first
one that is zero, so what follows this unit is of no account, and zero bytes of two
neighbouring units do not end the text.  For a window that begins with a text
(`Target.StoresText`), these are the units of the text that fit in it
(`Inspection.exists_run_text_of_stores`).
-/

namespace Rtti

/-- The memory answers for a window of so many code units, which begins with the text
and a zero unit after it, as far as they fit. -/
def Target.StoresText (target : Target) (encoding : TextEncoding) (address : Address)
    (units : Nat) (text : String) : Prop :=
  ∃ window, target.memory address window.length = .ok window ∧
    window.length = units * encoding.unitSize ∧ window.length < 0x10000000000000000 ∧
    (encoding.encode text ++ [0]).take units <+: encoding.codeUnits window

namespace Inspection

variable {target other : Target} {address : Address} {encoding : TextEncoding} {units : Nat}
  {window : List UInt8}

theorem reads_text (hsize : units * encoding.unitSize < 0x10000000000000000) :
    (Inspection.text address units encoding).reads target =
      [⟨address, units * encoding.unitSize, false⟩] := by
  rw [text_eq hsize, reads]
  cases target.read address (units * encoding.unitSize) <;> rfl

theorem run_text_eq_error_iff (hsize : units * encoding.unitSize < 0x10000000000000000)
    {error : ScanError} : (Inspection.text address units encoding).run target = .error error ↔
      target.read address (units * encoding.unitSize) = .error error := by
  rw [text_eq hsize, run]
  cases target.read address (units * encoding.unitSize) with
  | ok window => simp [run]
  | error cause => simp

/-- The text of a window is that of the units before the first zero unit. -/
theorem exists_run_text (hsize : units * encoding.unitSize < 0x10000000000000000)
    (hread : target.read address (units * encoding.unitSize) = .ok window) :
    ∃ text, (Inspection.text address units encoding).run target = .ok text ∧
      encoding.IsTextOf text ((encoding.codeUnits window).takeWhile (· ≠ 0)) := by
  have hwindow := Target.length_of_read hread
  rw [text_eq hsize, run, hread]
  refine ⟨_, rfl, ?_⟩
  rw [← TextEncoding.codeUnits_take_findAligned hwindow]
  exact encoding.isTextOf_decode _

/-- A text is read exactly where the memory answers for the window and the text is that
of the units before the first zero unit. -/
theorem run_text_eq_ok_iff {text : String} :
    (Inspection.text address units encoding).run target = .ok text ↔
      units * encoding.unitSize < 0x10000000000000000 ∧
        ∃ window, target.read address (units * encoding.unitSize) = .ok window ∧
          encoding.IsTextOf text ((encoding.codeUnits window).takeWhile (· ≠ 0)) := by
  constructor
  · intro hrun
    rcases Nat.lt_or_ge (units * encoding.unitSize) 0x10000000000000000 with hsize | hlarge
    · refine ⟨hsize, ?_⟩
      cases hread : target.read address (units * encoding.unitSize) with
      | error error =>
        rw [(run_text_eq_error_iff hsize).2 hread] at hrun
        contradiction
      | ok window =>
        obtain ⟨found, hfound, htext⟩ := exists_run_text hsize hread
        obtain rfl : found = text := Except.ok.inj (hfound.symm.trans hrun)
        exact ⟨window, rfl, htext⟩
    · rw [text_eq_fail hlarge] at hrun
      contradiction
  · rintro ⟨hsize, window, hread, htext⟩
    obtain ⟨found, hfound, hfoundText⟩ := exists_run_text hsize hread
    rw [hfound, hfoundText.unique htext]

/-- The text that is read has the units of the stored text that fit in the window. -/
theorem exists_run_text_of_stores {text : String}
    (hstores : target.StoresText encoding address units text) (hnull : '\x00' ∉ text.toList) :
    ∃ read, (Inspection.text address units encoding).run target = .ok read ∧
      encoding.IsTextOf read ((encoding.encode text).take units) := by
  obtain ⟨window, hanswer, hlength, hsize, hbegins⟩ := hstores
  rw [hlength] at hanswer hsize
  have hcount := TextEncoding.length_codeUnits hlength
  obtain ⟨read, hrun, hread⟩ :=
    exists_run_text hsize (Target.read_eq_ok_iff.2 ⟨hanswer, hlength⟩)
  rw [TextEncoding.takeWhile_of_begins (TextEncoding.zero_not_mem_encode hnull)
    (hcount.symm ▸ hbegins), hcount] at hread
  exact ⟨read, hrun, hread⟩

/-- A window is read as another that agrees with it up to a unit that is zero. -/
theorem run_text_congr {other : Target} {before after after' : List UInt8} {count : Nat}
    (hsize : units * encoding.unitSize < 0x10000000000000000)
    (hbefore : before.length = count * encoding.unitSize)
    (hread : target.read address (units * encoding.unitSize) =
      .ok (before ++ (Pattern.zeros encoding.unitSize ++ after)))
    (hother : other.read address (units * encoding.unitSize) =
      .ok (before ++ (Pattern.zeros encoding.unitSize ++ after'))) :
    (Inspection.text address units encoding).run target =
      (Inspection.text address units encoding).run other := by
  obtain ⟨text, hrun, htext⟩ := exists_run_text hsize hread
  obtain ⟨text', hrun', htext'⟩ := exists_run_text hsize hother
  rw [TextEncoding.codeUnits_whole_append hbefore, TextEncoding.codeUnits_zeros_append,
    List.takeWhile_append, List.takeWhile_cons_of_neg (by simp)] at htext htext'
  rw [hrun, hrun', htext.unique htext']

/-- A text is read at once.  The reading fails as its read does, and otherwise
gives the text of the units before the first zero unit, or of all units if none is
zero.  What follows a zero unit makes no difference. -/
theorem reads_and_run_text (target : Target) (address : Address) (encoding : TextEncoding)
    (units : Nat) (hsize : units * encoding.unitSize < 0x10000000000000000) :
    let access : Access := ⟨address, units * encoding.unitSize, false⟩
    let exchange := Exchange.ofTarget target access
    let text := Inspection.text address units encoding
    text.reads target = [access] ∧
    (∀ error, text.run target = .error error ↔ exchange.FailsWith target.width error) ∧
    (∀ window, exchange.answer = .ok window → window.length = access.size →
      ∃ s, text.run target = .ok s ∧
        encoding.IsTextOf s ((encoding.codeUnits window).takeWhile (· ≠ 0)) ∧
        (0 ∉ encoding.codeUnits window → encoding.IsTextOf s (encoding.codeUnits window))) ∧
    ∀ (other : Target) (before after after' : List UInt8),
      encoding.unitSize ∣ before.length →
      let window := before ++ (Pattern.zeros encoding.unitSize ++ after)
      let window' := before ++ (Pattern.zeros encoding.unitSize ++ after')
      exchange.answer = .ok window → window.length = access.size →
      (Exchange.ofTarget other access).answer = .ok window' → window'.length = access.size →
      text.run target = text.run other := by
  intro access exchange text
  have hread {target : Target} {window : List UInt8}
      (hanswer : (Exchange.ofTarget target access).answer = .ok window)
      (hlength : window.length = access.size) : target.read address access.size = .ok window :=
    Target.read_eq_ok_iff.2 ⟨hanswer, hlength⟩
  refine ⟨reads_text hsize, fun error => ?_, fun window hanswer hlength => ?_, ?_⟩
  · rw [← Exchange.outcome_eq_error_iff]
    exact run_text_eq_error_iff hsize
  · obtain ⟨s, hrun, hs⟩ := exists_run_text hsize (hread hanswer hlength)
    refine ⟨s, hrun, hs, fun hnonzero => ?_⟩
    rwa [List.takeWhile_eq_self_iff.2] at hs
    intro unit hunit
    simpa using ne_of_mem_of_not_mem hunit hnonzero
  · rintro other before after after' ⟨count, hbefore⟩ window window' hanswer hlength hanswer'
      hlength'
    rw [Nat.mul_comm] at hbefore
    exact run_text_congr hsize hbefore (hread hanswer hlength) (hread hanswer' hlength')

/-! ## An example -/

/-- A memory that answers every read with the same bytes. -/
def uniform (bytes : List UInt8) : Target :=
  ⟨.bits64, none, fun _ _ => .ok bytes⟩

/-- The zero bytes of `A` and `Ā` do not end the text, and the surrogate behind the
zero unit does not spoil it. -/
theorem reads_and_run_text_straddled :
    let text := Inspection.text (.ofNat 0x10000) 4 .utf16
    let target := uniform [0x41, 0, 0, 1, 0, 0, 0, 0xD8]
    text.reads target = [⟨.ofNat 0x10000, 8, false⟩] ∧ text.run target = .ok "AĀ" ∧
      text.run target = text.run (uniform [0x41, 0, 0, 1, 0, 0, 0x42, 0]) ∧
      text.run (uniform [0x41, 0, 0]) =
        .error (.readFault "0x0000000000010000" 8 "backend returned 3 bytes") := by
  intro text target
  have hsize : 4 * TextEncoding.utf16.unitSize < 0x10000000000000000 := by decide
  obtain ⟨hreads, -, hwindow, htail⟩ := reads_and_run_text target (.ofNat 0x10000) .utf16 4 hsize
  obtain ⟨s, hrun, hs, -⟩ := hwindow _ rfl rfl
  obtain rfl : s = "AĀ" := hs.unique (.inl (by decide +kernel))
  have hother := htail (uniform [0x41, 0, 0, 1, 0, 0, 0x42, 0]) [0x41, 0, 0, 1] [0, 0xD8]
    [0x42, 0] (by decide) rfl rfl rfl rfl
  obtain ⟨-, herror, -⟩ := reads_and_run_text (uniform [0x41, 0, 0]) (.ofNat 0x10000) .utf16 4 hsize
  refine ⟨hreads, hrun, hother, (herror _).2 (.inr ⟨_, rfl, by decide, by decide +kernel⟩)⟩

end Inspection

end Rtti
