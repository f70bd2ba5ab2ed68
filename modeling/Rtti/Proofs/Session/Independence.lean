import Rtti.Proofs.Session.Exclusion

/-!
# Independent scans

Scans that a session makes one after another do not influence each other.  Each
reports what it would report in a session that has just been opened, whatever
the scans before it reported.

`Session.scanAll` makes the scans.  All that it changes is the number of issued
tickets (`scanAll_snd`), and a scan with the next ticket always reports what it
decodes (`scan_fst`).  `Schedule.scanThrough` makes a scan move by move: it
leaves the target free, however the scan ends, so the next scan can take it
(`scanThrough_eq`).  `Session.ScansAlone` has both.
-/

namespace Rtti

namespace Session

variable {session fresh : Session} {target : Target} {platform : Platform}
  {undecorate : Msvc.Undecorator} {limits : Limits} {text : String} {texts : List String}

/-! ## Open sessions -/

/-- The session was opened with the limits, and has not been closed. -/
inductive Opened (limits : Limits) : Session → Prop where
  | start {target : Target} {platform : Platform} {undecorate : Msvc.Undecorator}
      {session : Session} (hstart : Session.start target platform undecorate limits = .ok session) :
      Opened limits session
  | detect {target : Target} {undecorate : Msvc.Undecorator} {session : Session}
      (hdetect : Session.detect target undecorate limits = .ok session) : Opened limits session
  | withStyle (style : Style) {session : Session} (hopened : Opened limits session) :
      Opened limits (session.withStyle style)
  | begin {session : Session} (hopened : Opened limits session) : Opened limits session.begin.2
  | scan (text : String) {session : Session} (hopened : Opened limits session) :
      Opened limits (session.scan text).2

theorem start_eq_ok (target : Target) (platform : Platform) (undecorate : Msvc.Undecorator)
    (limits : Limits) :
    start target platform undecorate limits =
      .ok { target, platform, decoder := ⟨.bound platform.abi, limits⟩, undecorate } :=
  rfl

theorem decoder_of_start (hstart : start target platform undecorate limits = .ok session) :
    session.decoder = ⟨.bound session.abi, limits⟩ := by
  rw [start_eq_ok] at hstart
  cases hstart
  rfl

theorem decoder_of_detect (hdetect : detect target undecorate limits = .ok session) :
    session.decoder = ⟨.bound session.abi, limits⟩ := by
  unfold detect at hdetect
  split at hdetect
  · contradiction
  · next name _ =>
    cases hname : Platform.ofImageName name with
    | error error =>
      rw [hname] at hdetect
      contradiction
    | ok platform =>
      rw [hname] at hdetect
      exact decoder_of_start hdetect

/-- The decoder of an open session is bound to the ABI of the target. -/
theorem Opened.decoder_eq (hopened : Opened limits session) :
    session.decoder = ⟨.bound session.abi, limits⟩ := by
  induction hopened with
  | start hstart => exact decoder_of_start hstart
  | detect hdetect => exact decoder_of_detect hdetect
  | withStyle style _ ih => exact ih
  | begin _ ih => exact ih
  | scan text _ ih => exact ih

/-- An open session decodes as one that has just been opened on its target. -/
theorem Opened.decode_eq (hopened : Opened limits session)
    (hfresh : Session.start session.target session.platform session.undecorate limits = .ok fresh) :
    fresh.decode text = session.decode text := by
  rw [start_eq_ok] at hfresh
  cases hfresh
  unfold decode inspect
  rw [hopened.decoder_eq]
  rfl

/-! ## Scans one after another -/

theorem isCurrent_begin (session : Session) :
    session.begin.2.isCurrent session.begin.1 = true := by
  simp [isCurrent, begin]

/-- The next ticket is the newest when its scan starts. -/
theorem scan_fst_eq_deliver : (session.scan text).1 =
    session.begin.2.deliver session.begin.1 (session.decode text) := by
  show session.begin.2.scanWith session.begin.1 text = _
  exact if_pos session.isCurrent_begin

/-- It is still the newest when its scan ends. -/
theorem scan_fst : (session.scan text).1 = (session.decode text).map .completed := by
  rw [scan_fst_eq_deliver]
  exact if_pos session.isCurrent_begin

theorem scan_eq : session.scan text =
    ((session.decode text).map .completed, session.begin.2) :=
  Prod.ext scan_fst rfl

/-- The reports of scans one after another, and the session after them. -/
def scanAll (session : Session) : List String → List (Except ScanError Outcome) × Session
  | [] => ([], session)
  | text :: rest =>
    let (report, session) := session.scan text
    let (reports, session) := session.scanAll rest
    (report :: reports, session)

theorem scanAll_snd : (session.scanAll texts).2 =
    { session with generation := session.generation + texts.length } := by
  induction texts generalizing session with
  | nil => rfl
  | cons text rest ih =>
    show (session.begin.2.scanAll rest).2 = _
    rw [ih, List.length_cons, Nat.add_comm rest.length, ← Nat.add_assoc]
    rfl

theorem scanAll_fst :
    (session.scanAll texts).1 = texts.map fun text => (session.decode text).map .completed := by
  induction texts generalizing session with
  | nil => rfl
  | cons text rest ih =>
    show (session.scan text).1 :: (session.begin.2.scanAll rest).1 = _
    rw [ih, scan_fst, List.map_cons]
    rfl

end Session

/-! ## Scans one after another, move by move -/

namespace Schedule

variable {schedule : Schedule} {number : Nat} {scan : Scan} {rest : Inspection ClassHierarchy}
  {text : String} {texts : List String}

theorem perform_advance (hscan : schedule.scans[number]? = some scan) :
    schedule.perform (.advance number) = schedule.advance number scan := by
  show schedule.scans[number]?.bind (schedule.advance number) = _
  rw [hscan]
  rfl

/-- A scan that holds the target makes its reads one after another, and then lets
go of the target. -/
theorem performAll_advance (hscan : schedule.scans[number]? = some scan)
    (hstage : scan.stage = .decoding rest) :
    schedule.performAll (List.replicate ((rest.reads schedule.session.target).length + 1)
        (.advance number)) =
      some { schedule.withStage number scan (.decoded (rest.run schedule.session.target)) with
        holder := none
        log := schedule.log ++ (rest.reads schedule.session.target).map (number, ·) } := by
  -- by induction on the reads that are left; a move makes the first of them
  induction hreads : rest.reads schedule.session.target generalizing schedule scan rest with
  | nil =>
    have hend : rest.advance? schedule.session.target = none := by
      cases hnext : rest.advance? schedule.session.target with
      | none => rfl
      | some next =>
        rw [Inspection.reads_of_advance? hnext] at hreads
        contradiction
    rw [List.length_nil, Nat.zero_add, List.replicate_one, performAll_cons,
      perform_advance hscan, advance, hstage]
    simp only [hend, List.map_nil, List.append_nil]
    rfl
  | cons access reads ih =>
    cases hnext : rest.advance? schedule.session.target with
    | none =>
      rw [Inspection.reads_of_advance?_eq_none hnext] at hreads
      contradiction
    | some next =>
      have hfirst := Inspection.reads_of_advance? hnext
      rw [hreads, List.cons.injEq] at hfirst
      let moved : Schedule := { schedule.withStage number scan (.decoding next.2) with
        log := schedule.log ++ [(number, next.1)] }
      have hmoved : moved.scans[number]? = some { scan with stage := .decoding next.2 } :=
        List.getElem?_set_self (List.getElem?_eq_some_iff.1 hscan).1
      rw [List.length_cons, List.replicate_succ, performAll_cons, perform_advance hscan, advance,
        hstage]
      simp only [hnext, Option.bind_some]
      show moved.performAll _ = _
      rw [ih hmoved rfl hfirst.2.symm, Inspection.run_of_advance? hnext, hfirst.1]
      simp only [moved, withStage, List.set_set, List.append_assoc, List.singleton_append,
        List.map_cons]

theorem finish_of_decoding (hscan : schedule.scans[number]? = some scan)
    (hstage : scan.stage = .decoding rest) :
    schedule.finish number =
      some { schedule.withStage number scan (.decoded (rest.run schedule.session.target)) with
        holder := none
        log := schedule.log ++ (rest.reads schedule.session.target).map (number, ·) } := by
  rw [← performAll_advance hscan hstage, finish, hscan]
  simp only [Option.bind_eq_bind, Option.bind_some, hstage]

/-- The schedule after a scan with the next ticket, if nothing comes between its
moves. -/
def scanThrough (schedule : Schedule) (text : String) : Option Schedule := do
  let asked ← schedule.performAll
    [.begin, .request schedule.session.begin.1 text, .take schedule.scans.length]
  let decoded ← asked.finish schedule.scans.length
  decoded.perform (.report schedule.scans.length)

/-- The schedule after a scan was asked for with the next ticket and has taken
the target. -/
theorem performAll_take (hfree : schedule.holder = none) :
    schedule.performAll [.begin, .request schedule.session.begin.1 text,
        .take schedule.scans.length] =
      some { session := schedule.session.begin.2
             scans := schedule.scans ++ [⟨schedule.session.begin.1, text,
               .decoding (schedule.session.inspect text)⟩]
             holder := some schedule.scans.length
             log := schedule.log } := by
  have hissued : schedule.session.begin.2.hasIssued schedule.session.begin.1 = true := by
    simp [Session.hasIssued, Session.begin]
  have hcurrent := schedule.session.isCurrent_begin
  have hwaiting : (schedule.scans ++ [⟨schedule.session.begin.1, text, .waiting⟩])[
      schedule.scans.length]? = some ⟨schedule.session.begin.1, text, .waiting⟩ := by
    simp
  simp only [performAll_cons, perform, hissued, if_true, Option.bind_some, hwaiting, take, hfree,
    hcurrent, withStage, List.set_append_right _ _ (Nat.le_refl _), Nat.sub_self]
  rfl

/-- The schedule with one more scan, which has reported what `Session.scan` says
and has let go of the target. -/
def withScan (schedule : Schedule) (text : String) : Schedule where
  session := (schedule.session.scan text).2
  scans := schedule.scans ++
    [⟨schedule.session.begin.1, text, .reported (schedule.session.scan text).1⟩]
  holder := none
  log := schedule.log ++
    ((schedule.session.inspect text).reads schedule.session.target).map (schedule.scans.length, ·)

theorem scanThrough_eq (hfree : schedule.holder = none) :
    schedule.scanThrough text = some (schedule.withScan text) := by
  unfold scanThrough
  rw [performAll_take hfree]
  simp only [Option.bind_eq_bind, Option.bind_some]
  rw [finish_of_decoding List.getElem?_concat_length rfl, Option.bind_some, perform]
  simp only [withStage, List.set_append_right _ _ (Nat.le_refl _), Nat.sub_self,
    List.set_cons_zero, List.getElem?_concat_length, Option.bind_some, Schedule.report]
  unfold withScan
  rw [Session.scan_fst_eq_deliver]
  rfl

/-- The schedule after scans with the next tickets, one after another. -/
def scanAllThrough (schedule : Schedule) (texts : List String) : Option Schedule :=
  texts.foldlM scanThrough schedule

/-- Whatever a scan reports, the next one can take the target. -/
theorem exists_scanAllThrough (hfree : schedule.holder = none) (texts : List String) :
    ∃ next scans, schedule.scanAllThrough texts = some next ∧ next.holder = none ∧
      next.session = (schedule.session.scanAll texts).2 ∧ next.scans = schedule.scans ++ scans ∧
      scans.map (fun scan => (scan.text, scan.stage)) = texts.map fun text =>
        (text, .reported ((schedule.session.decode text).map .completed)) := by
  induction texts generalizing schedule with
  | nil => exact ⟨schedule, [], rfl, hfree, rfl, (List.append_nil _).symm, rfl⟩
  | cons text rest ih =>
    have hafter : (schedule.withScan text).holder = none := rfl
    obtain ⟨next, scans, hnext, hholder, hsession, hscans, hreports⟩ := ih hafter
    refine ⟨next, _, ?_, hholder, hsession, hscans.trans (List.append_assoc ..), ?_⟩
    · unfold scanAllThrough
      rw [List.foldlM_cons, scanThrough_eq hfree]
      exact hnext
    · rw [List.map_append, hreports, Session.scan_fst]
      rfl

end Schedule

/-! ## Scans do not influence each other -/

/-- The scans of texts one after another report what each reports alone in a
session that has just been opened. -/
structure Session.ScansAlone (session fresh : Session) (texts : List String) : Prop where
  reports_eq : (session.scanAll texts).1 = texts.map fun text => (fresh.scan text).1
  /-- No scan is superseded. -/
  report_eq : ∀ text, (fresh.scan text).1 = (fresh.decode text).map .completed
  decoder_eq : (session.scanAll texts).2.decoder = fresh.decoder
  binding_eq : fresh.decoder.binding = .bound session.abi
  /-- The scans report the same if they are made move by move. -/
  scheduled : ∀ schedule : Schedule, schedule.session = session → schedule.holder = none →
    ∃ next scans, schedule.scanAllThrough texts = some next ∧ next.holder = none ∧
      next.session = (session.scanAll texts).2 ∧ next.scans = schedule.scans ++ scans ∧
      scans.map (fun scan => (scan.text, scan.stage)) = texts.map fun text =>
        (text, .reported (fresh.scan text).1)

theorem Session.scansAlone_of_opened {session fresh : Session} {limits : Limits}
    (hopened : Opened limits session)
    (hfresh : start session.target session.platform session.undecorate limits = .ok fresh)
    (texts : List String) : ScansAlone session fresh texts := by
  have hdecoder : session.decoder = fresh.decoder := by
    rw [hopened.decoder_eq]
    cases hfresh
    rfl
  have hreport (text : String) :
      (session.decode text).map Outcome.completed = (fresh.scan text).1 := by
    rw [scan_fst, hopened.decode_eq hfresh]
  constructor
  case reports_eq =>
    rw [scanAll_fst]
    exact List.map_congr_left fun text _ => hreport text
  case report_eq => exact fun text => scan_fst
  case decoder_eq => rw [scanAll_snd, hdecoder]
  case binding_eq => rw [← hdecoder, hopened.decoder_eq]
  case scheduled =>
    rintro schedule rfl hfree
    obtain ⟨next, scans, hnext, hholder, hsession, hscans, hreports⟩ :=
      Schedule.exists_scanAllThrough hfree texts
    refine ⟨next, scans, hnext, hholder, hsession, hscans, hreports.trans ?_⟩
    exact List.map_congr_left fun text _ => by rw [hreport text]

end Rtti
