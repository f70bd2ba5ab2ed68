import Rtti.Proofs.Address.Spelling
import Rtti.Proofs.Session.Independence

/-!
# Closed sessions

Once a session is closed it stays closed, and no scan of it is completed: a scan
whose ticket is not overtaken fails.  The decoder is asked last, so the error is
that of the text, of the object's address or of the read of the object, and only
a scan that comes through all three fails because the decoder is bound to no ABI
(`Session.closedError`, `Session.closedError_eq_decoderUnbound_iff`).

`Schedule.FailsClosed` says this of a run, and `Schedule.failsClosed_of_runs`
proves it of every run that begins with a closed session.
-/

namespace Rtti

/-! ## One scan -/

/-- The error of a scan with a decoder that is bound to no ABI. -/
def Session.closedError (target : Target) (text : String) : ScanError :=
  match Address.parse text target.width with
  | .error error => error
  | .ok object =>
    if object.isPlausible target.width then
      match target.read object target.width.bytes with
      | .error error => error
      | .ok _ => .decoderUnbound
    else .invalidAddress (object.display target.width)

theorem Address.parse_ne_decoderUnbound {text : String} {width : PointerWidth} :
    parse text width ≠ .error .decoderUnbound := by
  intro herror
  obtain ⟨reason, hreason⟩ := exists_reason_of_parse_eq_error herror
  contradiction

namespace Decoder

variable {decoder : Decoder} {undecorate : Msvc.Undecorator} {target : Target} {text : String}

theorem decode_of_unbound (hunbound : decoder.binding = .unbound) (width : PointerWidth)
    (undecorate : Msvc.Undecorator) (vtable : Address) :
    decoder.decode width undecorate vtable = .fail .decoderUnbound := by
  rw [decode, hunbound]

theorem run_decodeObject_of_unbound (hunbound : decoder.binding = .unbound) :
    (decoder.decodeObject target.width undecorate text).run target =
      .error (Session.closedError target text) := by
  unfold decodeObject Session.closedError
  cases hparse : Address.parse text target.width with
  | error error => exact Inspection.run_bind_of_error (Inspection.run_lift rfl)
  | ok object =>
    rw [Inspection.run_bind_of_ok (Inspection.run_lift rfl)]
    by_cases hsound : object.isPlausible target.width = true
    · simp only [hsound, Bool.not_true, Bool.false_eq_true, if_false, if_true]
      simp only [decode_of_unbound hunbound]
      show Inspection.run target (.read object target.width.bytes fun _ => .fail .decoderUnbound) =
        _
      unfold Inspection.run
      cases target.read object target.width.bytes <;> rfl
    · simp only [hsound, Bool.not_false, if_true, Bool.false_eq_true, if_false]
      rfl

end Decoder

namespace Session

/-- The decoder is what stops a scan whose text spells the plausible address of
an object that can be read. -/
theorem closedError_eq_decoderUnbound_iff {target : Target} {text : String} :
    closedError target text = .decoderUnbound ↔
      ∃ object, Address.parse text target.width = .ok object ∧
        object.isPlausible target.width = true ∧
        ((∃ bytes, target.read object target.width.bytes = .ok bytes) ∨
          target.read object target.width.bytes = .error .decoderUnbound) := by
  unfold closedError
  cases hparse : Address.parse text target.width with
  | error error =>
    have hne : error ≠ .decoderUnbound := by
      rintro rfl
      exact Address.parse_ne_decoderUnbound hparse
    simpa using hne
  | ok object =>
    by_cases hsound : object.isPlausible target.width = true
    · cases hread : target.read object target.width.bytes <;> simp [hsound, hread]
    · simp [hsound]

end Session

/-! ## Runs -/

namespace Schedule

variable {session : Session} {target : Target} {schedule next : Schedule} {move : Move}
  {moves : List Move}

/-- What a scan of a closed session has come to. -/
def FailsIn (target : Target) (scan : Scan) : Prop :=
  match scan.stage with
  | .waiting => True
  | .decoding rest => rest.run target = .error (Session.closedError target scan.text)
  | .decoded result => result = .error (Session.closedError target scan.text)
  | .reported report =>
    report = .ok .superseded ∨ report = .error (Session.closedError target scan.text)

theorem failsIn_of_decoding {scan : Scan} {rest : Inspection ClassHierarchy}
    (hstage : scan.stage = .decoding rest) :
    FailsIn target scan ↔ rest.run target = .error (Session.closedError target scan.text) := by
  unfold FailsIn
  rw [hstage]

/-- A scan that fails delivers its error, unless it is superseded. -/
theorem failsIn_of_deliver {scan : Scan} {result : Except ScanError ClassHierarchy}
    (hfails : FailsIn target scan) (hstage : scan.stage = .decoded result) :
    FailsIn target { scan with stage := .reported (session.deliver scan.ticket result) } := by
  unfold FailsIn at hfails ⊢
  rw [hstage] at hfails
  dsimp only at hfails ⊢
  rw [hfails, Session.deliver]
  split
  · exact .inr rfl
  · exact .inl rfl

/-- The session is closed, and its scans fail. -/
structure IsClosed (target : Target) (schedule : Schedule) : Prop where
  target_eq : schedule.session.target = target
  binding_eq : schedule.session.decoder.binding = .unbound
  fails : ∀ scan ∈ schedule.scans, FailsIn target scan

/-- A move of one scan leaves the session closed if the scan fails at its next
stage too. -/
theorem IsClosed.moved {number : Nat} {scan : Scan} {stage : Stage}
    (hclosed : schedule.IsClosed target) (hsession : next.session = schedule.session)
    (hscans : next.scans = schedule.scans.set number { scan with stage := stage })
    (hfails : FailsIn target { scan with stage := stage }) : next.IsClosed target := by
  refine ⟨hsession ▸ hclosed.target_eq, hsession ▸ hclosed.binding_eq, fun other hother => ?_⟩
  rw [hscans] at hother
  rcases List.mem_or_eq_of_mem_set hother with hbefore | rfl
  · exact hclosed.fails other hbefore
  · exact hfails

theorem isClosed_of_effect (hclosed : schedule.IsClosed target)
    (heffect : Effect schedule move next) : next.IsClosed target := by
  obtain rfl := hclosed.target_eq
  have hfails {number : Nat} {scan : Scan} (hscan : schedule.scans[number]? = some scan) :
      FailsIn schedule.session.target scan :=
    hclosed.fails scan (List.mem_of_getElem? hscan)
  cases heffect with
  | begin => exact ⟨rfl, hclosed.binding_eq, hclosed.fails⟩
  | request ticket text _ =>
    refine ⟨rfl, hclosed.binding_eq, fun scan hscan => ?_⟩
    rcases List.mem_append.1 hscan with hbefore | hnew
    · exact hclosed.fails scan hbefore
    · obtain rfl := List.mem_singleton.1 hnew
      trivial
  | start hscan hstage hfree hcurrent =>
    exact hclosed.moved rfl rfl (Decoder.run_decodeObject_of_unbound hclosed.binding_eq)
  | refuse hscan hstage hstale => exact hclosed.moved rfl rfl (.inl rfl)
  | read hscan hstage hnext =>
    refine hclosed.moved rfl rfl ((failsIn_of_decoding rfl).2 ?_)
    rw [← Inspection.run_of_advance? hnext]
    exact (failsIn_of_decoding hstage).1 (hfails hscan)
  | release hscan hstage hend =>
    exact hclosed.moved rfl rfl ((failsIn_of_decoding hstage).1 (hfails hscan))
  | report hscan hstage => exact hclosed.moved rfl rfl (failsIn_of_deliver (hfails hscan) hstage)

theorem isClosed_of_runs (hruns : Runs session.close moves schedule) :
    schedule.IsClosed session.target := by
  refine Runs.induction (motive := fun _ schedule => schedule.IsClosed session.target) ?_ ?_ hruns
  · exact ⟨rfl, rfl, nofun⟩
  · intro moves move schedule next _ hperform hclosed
    exact isClosed_of_effect hclosed (effect_of_perform hperform)

/-- What becomes of the scans of a session that was closed before the moves. -/
structure FailsClosed (session : Session) (moves : List Move) (schedule : Schedule) : Prop where
  /-- A scan whose ticket is the newest at its last check fails. -/
  report_eq_error : ∀ number ticket text report before,
    schedule.scans[number]? = some ⟨ticket, text, .reported report⟩ →
    LastCheck moves number before → ¬Overtaken session.close before ticket →
    report = .error (Session.closedError session.target text)
  /-- So does one that is made after the moves, with the newest ticket. -/
  scanWith_eq_error : ∀ ticket text, schedule.session.isCurrent ticket = true →
    schedule.session.scanWith ticket text = .error (Session.closedError session.target text)
  scan_eq_error : ∀ text,
    (schedule.session.scan text).1 = .error (Session.closedError session.target text)

/-- Every scan of a closed session whose ticket is not overtaken fails, however
its scans interleave.  It fails because the decoder is bound to no ABI exactly if
its text spells the plausible address of an object whose first word is read. -/
theorem failsClosed_of_runs (hruns : Runs session.close moves schedule) :
    FailsClosed session moves schedule ∧
    ∀ text, Session.closedError session.target text = .decoderUnbound ↔
      ∃ object, Address.parse text session.target.width = .ok object ∧
        object.isPlausible session.target.width = true ∧
        ((∃ bytes, session.target.read object session.target.width.bytes = .ok bytes) ∨
          session.target.read object session.target.width.bytes = .error .decoderUnbound) := by
  have hclosed := isClosed_of_runs hruns
  have hdecode (text : String) :
      schedule.session.decode text = .error (Session.closedError session.target text) := by
    rw [← hclosed.target_eq]
    exact Decoder.run_decodeObject_of_unbound hclosed.binding_eq
  refine ⟨⟨?_, ?_, ?_⟩, fun text => Session.closedError_eq_decoderUnbound_iff⟩
  · intro number ticket text report before hscan hlast hnewest
    obtain ⟨-, hsuperseded⟩ := superseded_iff_overtaken hruns ⟨text, hscan⟩ hlast
    have hfails : report = .ok .superseded ∨
        report = .error (Session.closedError session.target text) :=
      hclosed.fails _ (List.mem_of_getElem? hscan)
    exact hfails.resolve_left (mt hsuperseded.1 hnewest)
  · intro ticket text hcurrent
    rw [Session.scanWith, if_pos hcurrent, Session.deliver, if_pos hcurrent, hdecode]
    rfl
  · intro text
    rw [Session.scan_fst, hdecode]
    rfl

/-! ## An example -/

/-- A session on a process with one word of memory, in which a ticket was
issued. -/
def oneWord : Session where
  target := ((⟨.bits64, none, .empty⟩ : Snapshot).addRegion (.ofNat 0x10000)
    (List.replicate 8 0)).target
  platform := .linux
  decoder := { binding := .bound .itanium }
  undecorate := .ok
  generation := 1

/-- An object, a text that spells no address, the null address and an object
that cannot be read are scanned, each with the newest ticket; the first ticket
is then tried once more. -/
def afterClosing : List Move :=
  [.request ⟨1⟩ "10000", .take 0, .advance 0, .advance 0, .report 0,
    .begin, .request ⟨2⟩ "zz", .take 1, .advance 1, .report 1,
    .begin, .request ⟨3⟩ "0", .take 2, .advance 2, .report 2,
    .begin, .request ⟨4⟩ "20000", .take 3, .advance 3, .advance 3, .report 3,
    .request ⟨1⟩ "10000", .take 4]

/-- Only the first scan of the example comes to the decoder. -/
theorem failsClosed_oneWord :
    ∃ schedule, Runs oneWord.close afterClosing schedule ∧
      (List.range 5).map schedule.reportOf? =
        [some (.error .decoderUnbound), some (.error (.malformedAddress "zz")),
          some (.error (.invalidAddress "0x0000000000000000")),
          some (.error (.readFault "0x0000000000020000" 8 "range not captured")),
          some (.ok .superseded)] ∧
      FailsClosed oneWord afterClosing schedule := by
  have hreports : (({ session := oneWord.close } : Schedule).performAll afterClosing).map
      (fun schedule => (List.range 5).map schedule.reportOf?) =
        some [some (.error .decoderUnbound), some (.error (.malformedAddress "zz")),
          some (.error (.invalidAddress "0x0000000000000000")),
          some (.error (.readFault "0x0000000000020000" 8 "range not captured")),
          some (.ok .superseded)] := by
    decide +kernel
  obtain ⟨schedule, hruns, hreported⟩ := Option.map_eq_some_iff.1 hreports
  exact ⟨schedule, hruns, hreported, (failsClosed_of_runs hruns).1⟩

end Schedule

end Rtti
