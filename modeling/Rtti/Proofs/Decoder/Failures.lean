import Rtti.Memory.Snapshot
import Rtti.Proofs.Decoder.Reads
import Rtti.Proofs.Memory.Run

/-!
# Failing reads of a scan

A scan swallows no failing read and makes up no failure.  A read that fails
ends the scan with its own error, and a scan without a failing read ends
without a read fault.  The numbers of contained bases of an MSVC base class
array are the one exception: one that cannot be read counts as zero.

`Inspection.ReportsFailures` states this for a course of an inspection, and
`Decoder.reportsFailures_of_scan` proves it for the scans of every decoder.
-/

namespace Rtti

/-- What a course tells of failing reads, if those with the numbers of
`tolerated` are not to end it. -/
structure Inspection.ReportsFailures {α : Type} (width : PointerWidth) (tolerated : Nat → Prop)
    (x : Inspection α) (exchanges : List Exchange) (result : Except ScanError α) : Prop where
  /-- A failing read is the last, and its error is the result. -/
  ends {before after : List Exchange} {exchange : Exchange} {error : ScanError}
    (hsplit : exchanges = before ++ exchange :: after) (hrequired : ¬ tolerated before.length)
    (hfails : exchange.FailsWith width error) : after = [] ∧ result = .error error
  /-- Without a failing read there is no read fault. -/
  honest (hsucceeds : ∀ before exchange after error, exchanges = before ++ exchange :: after →
      exchange.FailsWith width error → tolerated before.length) (error : ScanError)
    (hresult : result = .error error) : error.isReadFault = false
  /-- After a tolerated failure the course goes on as after zeros. -/
  zeros {before after : List Exchange} {exchange : Exchange} {error : ScanError}
    (hsplit : exchanges = before ++ exchange :: after) (htolerated : tolerated before.length)
    (hfails : exchange.FailsWith width error) :
    x.Course width
      (before ++ exchange.withAnswer (.ok (List.replicate exchange.access.size 0)) :: after) result

namespace Decoder

variable {decoder : Decoder} {width : PointerWidth} {undecorate : Msvc.Undecorator} {lead : Nat}
  {x : Inspection ClassHierarchy} {exchanges : List Exchange}
  {result : Except ScanError ClassHierarchy}

/-- The scans of a decoder, each with the number of reads that find the type
information. -/
inductive Scan (decoder : Decoder) (width : PointerWidth) (undecorate : Msvc.Undecorator) :
    Nat → Inspection ClassHierarchy → Prop where
  | ofObject (text : String) :
    Scan decoder width undecorate 2 (decoder.decodeObject width undecorate text)
  | ofVtable (vtable : Address) :
    Scan decoder width undecorate 1 (decoder.decode width undecorate vtable)

theorem Scan.keepsTo (hscan : decoder.Scan width undecorate lead x) :
    x.KeepsTo (decoder.rule width lead) (decoder.limits.BreaksWith undecorate) (fun _ _ => True)
      [] := by
  cases hscan with
  | ofObject text => exact keepsTo_decodeObject text
  | ofVtable vtable => exact keepsTo_decode vtable

/-- The optional reads are those that ask for a number of contained bases. -/
theorem Scan.isOptional_iff (hscan : decoder.Scan width undecorate lead x)
    (hcourse : x.Course width exchanges result) {before after : List Exchange}
    {exchange : Exchange} (hsplit : exchanges = before ++ exchange :: after) :
    exchange.access.isOptional = true ↔ decoder.AsksContained width lead before.length := by
  have hrule := hscan.keepsTo.rule_of_course hcourse hsplit
  simpa using hrule.isOptional

theorem Scan.honest (hscan : decoder.Scan width undecorate lead x) {error : ScanError}
    (hcourse : x.Course width exchanges (.error error))
    (hsucceeds : ∀ before exchange after error, exchanges = before ++ exchange :: after →
      exchange.FailsWith width error → decoder.AsksContained width lead before.length) :
    error.isReadFault = false := by
  suffices hown : error.IsOwn (decoder.limits.BreaksWith undecorate) from hown.isReadFault_eq_false
  by_contra hforeign
  obtain ⟨exchange, hmem, hrequired, hfails⟩ := hscan.keepsTo.failure_of_course hcourse hforeign
  obtain ⟨before, after, hsplit⟩ := List.append_of_mem hmem
  have htolerated :=
    hsucceeds before exchange after error hsplit (Exchange.outcome_eq_error_iff.1 hfails)
  rw [(hscan.isOptional_iff hcourse hsplit).2 htolerated] at hrequired
  contradiction

/-- In every course of a scan, and so in its run on every target, only a read
that asks for a number of contained bases, which is the word after the link to
the type of an entry, may fail without ending the scan with its error. -/
theorem reportsFailures_of_scan (hscan : decoder.Scan width undecorate lead x) :
    (∀ exchanges result, x.Course width exchanges result →
      x.ReportsFailures width (decoder.AsksContained width lead) exchanges result ∧
      ∀ before exchange after, exchanges = before ++ exchange :: after →
        decoder.AsksContained width lead before.length →
        exchange.access.FollowsTypeLink (before.map Exchange.access)) ∧
    ∀ target, target.width = width → x.Course width (x.exchanges target) (x.run target) := by
  refine ⟨fun exchanges result hcourse => ⟨⟨?_, ?_, ?_⟩, ?_⟩, ?_⟩
  · intro before after exchange error hsplit hrequired hfails
    have hoptional := mt (hscan.isOptional_iff hcourse hsplit).1 hrequired
    exact hcourse.ends_of_failure hsplit (by simpa using hoptional)
      (Exchange.outcome_eq_error_iff.2 hfails)
  · intro hsucceeds error hresult
    exact hscan.honest (hresult ▸ hcourse) hsucceeds
  · intro before after exchange error hsplit htolerated hfails
    exact hscan.keepsTo.course_withAnswer hcourse hsplit
      ((hscan.isOptional_iff hcourse hsplit).2 htolerated) (Exchange.outcome_eq_error_iff.2 hfails)
  · intro before exchange after hsplit hasks
    have hrule := hscan.keepsTo.rule_of_course hcourse hsplit
    exact hrule.followsTypeLink ((hscan.isOptional_iff hcourse hsplit).2 hasks)
  · rintro target rfl
    exact Inspection.course_run target x

/-! ## An example -/

/-- The memory of a 32-bit process with an object of a class without bases,
whose base class descriptor ends before the number of contained bases. -/
def torn : Snapshot :=
  let words := List.flatMap (Word.toBytes 4)
  [ (0x10000, words [0x20004]), (0x20000, words [0x30000]),
    (0x30000, List.replicate 16 0 ++ words [0x40000]), (0x40000, words [0, 0, 1, 0x50000]),
    (0x50000, words [0x60000]), (0x60000, words [0x70000]),
    (0x70000, List.replicate 12 0 ++ (Utf8.encode "Base").rightpad 8 0)].foldl
    (fun s region => s.addRegion (.ofNat region.1) region.2) ⟨.bits32, none, .empty⟩

/-- The scan of the object goes on without the number, as it does with the
number zero. -/
theorem course_torn_zeros :
    let x := (⟨.bound .msvc, { nameUnits := 8 }⟩ : Decoder).decodeObject .bits32 .ok "10000"
    x.run torn.target = .ok (.single .msvc "Base") ∧
    x.Course .bits32 (((x.exchanges torn.target).take 8) ++
      [⟨⟨.ofNat 0x60004, 4, true⟩, .ok [0, 0, 0, 0]⟩]) (.ok (.single .msvc "Base")) := by
  intro x
  have hrun : x.run torn.target = .ok (.single .msvc "Base") := by decide +kernel
  have hsplit : x.exchanges torn.target = (x.exchanges torn.target).take 8 ++
      Exchange.ofTarget torn.target ⟨.ofNat 0x60004, 4, true⟩ :: [] := by decide +kernel
  have hfails : (Exchange.ofTarget torn.target ⟨.ofNat 0x60004, 4, true⟩).FailsWith .bits32
      (.readFault "0x00060004" 4 "range not captured") := .inl (by decide +kernel)
  have hcount : ((x.exchanges torn.target).take 8).length = 8 := by decide +kernel
  obtain ⟨hcourses, hruns⟩ := reportsFailures_of_scan (x := x) (.ofObject "10000")
  have hcourse := hruns torn.target rfl
  rw [hrun] at hcourse
  refine ⟨hrun, (hcourses _ _ hcourse).1.zeros hsplit ⟨rfl, ?_⟩ hfails⟩
  rw [hcount]
  exact ⟨by decide, by decide⟩

end Decoder

end Rtti
