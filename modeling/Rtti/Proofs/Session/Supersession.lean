import Rtti.Memory.Snapshot
import Rtti.Proofs.Memory.Run
import Rtti.Proofs.Session.Moves

/-!
# Superseded scans

In every run of a session, however tickets and scans interleave, a scan reports
that it is superseded exactly if a newer ticket was issued before it last
checked its own.  `Schedule.DeliversNewest` says this with what follows from
it, and `Schedule.deliversNewest_of_runs` proves it of every run.

A ticket check compares with the number of tickets issued so far, so the proof
needs two facts: the session has issued the tickets up to that number
(`issued_iff`), and the report of a scan is what its last check found
(`check_of_reported`).
-/

namespace Rtti.Schedule

variable {session : Session} {schedule next : Schedule} {move : Move}
  {moves more before earlier : List Move} {number : Nat} {scan : Scan} {ticket other : Ticket}
  {report : Except ScanError Outcome}

/-! ## Tickets -/

/-- The ticket was issued in the course of the moves, or by the session before
them. -/
def Issued (session : Session) (moves : List Move) (ticket : Ticket) : Prop :=
  session.hasIssued ticket = true ∨
    ∃ before after schedule, moves = before ++ .begin :: after ∧ Runs session before schedule ∧
      ticket = schedule.session.begin.1

/-- A newer ticket was issued. -/
def Overtaken (session : Session) (moves : List Move) (ticket : Ticket) : Prop :=
  ∃ other, Issued session moves other ∧ ticket.generation < other.generation

theorem Issued.mono (hissued : Issued session moves ticket) (hbegins : moves <+: more) :
    Issued session more ticket := by
  rcases hissued with hstart | ⟨before, after, schedule, rfl, hruns, hticket⟩
  · exact .inl hstart
  · obtain ⟨rest, rfl⟩ := hbegins
    exact .inr ⟨before, after ++ rest, schedule, by simp, hruns, hticket⟩

theorem Overtaken.mono (hovertaken : Overtaken session moves ticket)
    (hbegins : moves <+: more) : Overtaken session more ticket := by
  obtain ⟨other, hissued, hlt⟩ := hovertaken
  exact ⟨other, hissued.mono hbegins, hlt⟩

theorem issued_concat (hruns : Runs session moves schedule) :
    Issued session (moves ++ [move]) ticket ↔
      Issued session moves ticket ∨ move = .begin ∧ ticket = schedule.session.begin.1 := by
  constructor
  · rintro (hstart | ⟨before, after, reached, hsplit, hbefore, hticket⟩)
    · exact .inl (.inl hstart)
    · rcases List.eq_nil_or_concat after with rfl | ⟨after, last, rfl⟩
      · obtain ⟨rfl, hmove⟩ := List.append_inj' hsplit rfl
        obtain rfl : schedule = reached := Option.some.inj (hruns.symm.trans hbefore)
        exact .inr ⟨(List.cons.inj hmove).1, hticket⟩
      · have hinit : moves = before ++ .begin :: after := by
          rw [List.concat_eq_append, ← List.cons_append, ← List.append_assoc] at hsplit
          exact (List.append_inj' hsplit rfl).1
        exact .inl (.inr ⟨before, after, reached, hinit, hbefore, hticket⟩)
  · rintro (hbefore | ⟨rfl, rfl⟩)
    · exact hbefore.mono (List.prefix_append _ _)
    · exact .inr ⟨moves, [], schedule, rfl, hruns, rfl⟩

theorem hasIssued_iff {session : Session} :
    session.hasIssued ticket = true ↔
      1 ≤ ticket.generation ∧ ticket.generation ≤ session.generation := by
  simp [Session.hasIssued]

theorem isCurrent_eq_false_iff {session : Session} :
    session.isCurrent ticket = false ↔ ticket.generation ≠ session.generation := by
  simp [Session.isCurrent]

theorem issued_iff (hruns : Runs session moves schedule) :
    Issued session moves ticket ↔ schedule.session.hasIssued ticket = true := by
  refine Runs.induction (motive := fun moves schedule =>
    Issued session moves ticket ↔ schedule.session.hasIssued ticket = true) ?_ ?_ hruns
  · constructor
    · rintro (hstart | ⟨before, after, -, hsplit, -, -⟩)
      · exact hstart
      · simp at hsplit
    · exact .inl
  · intro moves move schedule next hruns hperform ih
    rw [issued_concat hruns, ih]
    rcases perform_cases hperform with ⟨rfl, rfl⟩ | ⟨_, _, rfl, -, rfl⟩ | ⟨_, _, hstepped⟩
    · rw [hasIssued_iff, hasIssued_iff]
      have hnew : ticket = schedule.session.begin.1 ↔
          ticket.generation = schedule.session.generation + 1 := by
        cases ticket
        simp [Session.begin]
      rw [hnew]
      show _ ↔ 1 ≤ ticket.generation ∧ ticket.generation ≤ schedule.session.generation + 1
      simp only [true_and]
      omega
    · simp
    · obtain ⟨stage, hstep, -⟩ := hstepped.scans_eq
      rw [hstepped.session_eq]
      cases hstep <;> simp

theorem hasIssued_of_runs (hruns : Runs session moves schedule)
    (hscan : schedule.scans[number]? = some scan) :
    schedule.session.hasIssued scan.ticket = true := by
  refine Runs.induction (motive := fun _ schedule => ∀ scan, schedule.scans[number]? = some scan →
    schedule.session.hasIssued scan.ticket = true) ?_ ?_ hruns scan hscan
  · intro scan hscan
    simp at hscan
  · intro moves move schedule next _ hperform ih scan hscan
    have hbefore : schedule.session.hasIssued scan.ticket = true := by
      rcases scan_of_perform hperform hscan with ⟨hbefore, -⟩ | ⟨-, hissued, -⟩ |
        ⟨before, hbefore, hticket, -⟩
      · exact ih scan hbefore
      · exact hissued
      · rw [← hticket]
        exact ih before hbefore
    rw [hasIssued_iff] at hbefore ⊢
    have hmore := generation_le_of_perform hperform
    omega

theorem overtaken_iff (hruns : Runs session moves schedule) :
    Overtaken session moves ticket ↔ ticket.generation < schedule.session.generation := by
  constructor
  · rintro ⟨other, hissued, hlt⟩
    have hlast := (hasIssued_iff.1 ((issued_iff hruns).1 hissued)).2
    omega
  · intro hlt
    refine ⟨⟨schedule.session.generation⟩, (issued_iff hruns).2 (hasIssued_iff.2 ?_), hlt⟩
    exact ⟨Nat.one_le_of_lt hlt, Nat.le_refl _⟩

/-! ## The last check -/

/-- The scan with the number checks its ticket last after the moves `before`. -/
def LastCheck (moves : List Move) (number : Nat) (before : List Move) : Prop :=
  ∃ check after, moves = before ++ check :: after ∧ check.Checks number ∧
    ∀ move ∈ after, ¬ move.Checks number

theorem LastCheck.isPrefix (hlast : LastCheck moves number before) : before <+: moves := by
  obtain ⟨check, after, rfl, -, -⟩ := hlast
  exact List.prefix_append _ _

theorem lastCheck_concat_of_checks (hchecks : move.Checks number) :
    LastCheck (moves ++ [move]) number before ↔ before = moves := by
  constructor
  · rintro ⟨check, after, hsplit, -, hafter⟩
    rcases List.eq_nil_or_concat after with rfl | ⟨after, last, rfl⟩
    · exact (List.append_inj' hsplit rfl).1.symm
    · rw [List.concat_eq_append, ← List.cons_append, ← List.append_assoc] at hsplit
      obtain rfl : move = last := List.singleton_inj.1 (List.append_inj' hsplit rfl).2
      exact absurd hchecks (hafter move (by simp))
  · rintro rfl
    exact ⟨move, [], rfl, hchecks, by simp⟩

theorem lastCheck_concat_of_not_checks (hchecks : ¬ move.Checks number) :
    LastCheck (moves ++ [move]) number before ↔ LastCheck moves number before := by
  constructor
  · rintro ⟨check, after, hsplit, hcheck, hafter⟩
    rcases List.eq_nil_or_concat after with rfl | ⟨after, last, rfl⟩
    · obtain rfl : move = check := List.singleton_inj.1 (List.append_inj' hsplit rfl).2
      exact absurd hcheck hchecks
    · rw [List.concat_eq_append, ← List.cons_append, ← List.append_assoc] at hsplit
      exact ⟨check, after, (List.append_inj' hsplit rfl).1, hcheck,
        fun move hmove => hafter move (by simp [hmove])⟩
  · rintro ⟨check, after, rfl, hcheck, hafter⟩
    refine ⟨check, after ++ [move], by simp, hcheck, fun other hother => ?_⟩
    rcases List.mem_append.1 hother with hbefore | hnew
    · exact hafter other hbefore
    · obtain rfl := List.mem_singleton.1 hnew
      exact hchecks

theorem LastCheck.unique (hlast : LastCheck moves number before)
    (hother : LastCheck moves number earlier) : before = earlier := by
  induction moves using List.reverseRecOn with
  | nil =>
    obtain ⟨check, after, hsplit, -, -⟩ := hlast
    simp at hsplit
  | append_singleton moves move ih =>
    by_cases hchecks : move.Checks number
    · rw [lastCheck_concat_of_checks hchecks] at hlast hother
      exact hlast.trans hother.symm
    · rw [lastCheck_concat_of_not_checks hchecks] at hlast hother
      exact ih hlast hother

theorem deliver_eq_superseded_iff {session : Session} {result : Except ScanError ClassHierarchy} :
    session.deliver ticket result = .ok .superseded ↔ session.isCurrent ticket = false := by
  unfold Session.deliver
  cases hcurrent : session.isCurrent ticket with
  | false => simp
  | true => cases result <;> simp [Except.map]

/-- The report of a scan tells whether its ticket was the newest at its last
check. -/
theorem check_of_reported (hruns : Runs session moves schedule)
    (hscan : schedule.scans[number]? = some scan) (hreported : scan.stage = .reported report) :
    ∃ last checked, LastCheck moves number last ∧ Runs session last checked ∧
      checked.session.hasIssued scan.ticket = true ∧
      (report = .ok .superseded ↔ checked.session.isCurrent scan.ticket = false) := by
  refine Runs.induction (motive := fun moves schedule =>
    schedule.scans[number]? = some scan → ∃ last checked, LastCheck moves number last ∧
      Runs session last checked ∧ checked.session.hasIssued scan.ticket = true ∧
      (report = .ok .superseded ↔ checked.session.isCurrent scan.ticket = false))
    ?_ ?_ hruns hscan
  · intro hscan
    simp at hscan
  · intro moves move schedule next hruns hperform ih hscan
    rcases scan_of_perform hperform hscan with ⟨hbefore, hchecks⟩ | ⟨hwaiting, -, -⟩ |
      ⟨before, hbefore, hticket, hstep⟩
    · obtain ⟨last, checked, hlast, hchecked⟩ := ih hbefore
      exact ⟨last, checked, (lastCheck_concat_of_not_checks hchecks).2 hlast, hchecked⟩
    · rw [hreported] at hwaiting
      contradiction
    · have hissued := hasIssued_of_runs hruns hbefore
      rw [hticket] at hissued
      have hcheck : move.Checks number ∧
          (report = .ok .superseded ↔ schedule.session.isCurrent scan.ticket = false) := by
        rw [hreported] at hstep
        rw [← hticket]
        cases hstep with
        | refuse _ hstale => exact ⟨.inl rfl, by simp [hstale]⟩
        | report _ => exact ⟨.inr rfl, deliver_eq_superseded_iff⟩
      exact ⟨moves, schedule, (lastCheck_concat_of_checks hcheck.1).2 rfl, hruns, hissued, hcheck.2⟩

/-! ## Runs deliver the newest -/

/-- A scan with the ticket has reported. -/
def Reports (schedule : Schedule) (number : Nat) (ticket : Ticket)
    (report : Except ScanError Outcome) : Prop :=
  ∃ text, schedule.scans[number]? = some ⟨ticket, text, .reported report⟩

/-- What the scans of a run report.  The report of a scan is an outcome or an
error; it is delivered if it does not say that the scan is superseded. -/
structure DeliversNewest (session : Session) (moves : List Move) (schedule : Schedule) : Prop where
  /-- A scan that has reported has checked its ticket. -/
  exists_lastCheck : ∀ number ticket report, schedule.Reports number ticket report →
    ∃ before, LastCheck moves number before
  /-- A scan is superseded exactly if a newer ticket was issued before its last
  check. -/
  superseded_iff : ∀ number ticket report before, schedule.Reports number ticket report →
    LastCheck moves number before →
    (report = .ok .superseded ↔ Overtaken session before ticket)
  /-- What is delivered is delivered for the newest ticket. -/
  newest_of_delivered : ∀ number ticket report before, schedule.Reports number ticket report →
    report ≠ .ok .superseded → LastCheck moves number before →
    Issued session before ticket ∧
      ∀ other, Issued session before other → other.generation ≤ ticket.generation
  /-- Deliveries come in the order of the tickets. -/
  generation_le : ∀ number ticket report before number' ticket' report' before',
    schedule.Reports number ticket report → report ≠ .ok .superseded →
    LastCheck moves number before →
    schedule.Reports number' ticket' report' → report' ≠ .ok .superseded →
    LastCheck moves number' before' →
    before.length ≤ before'.length → ticket.generation ≤ ticket'.generation
  /-- A superseded ticket stays superseded in all scans that end later. -/
  superseded_of_superseded : ∀ number ticket before number' report' before',
    schedule.Reports number ticket (.ok .superseded) → LastCheck moves number before →
    schedule.Reports number' ticket report' → LastCheck moves number' before' →
    before.length ≤ before'.length → report' = .ok .superseded
  /-- A scan that takes the target with a superseded ticket reads nothing. -/
  not_mem_log_of_overtaken : ∀ number scan before after,
    moves = before ++ .take number :: after → schedule.scans[number]? = some scan →
    Overtaken session before scan.ticket →
    schedule.Reports number scan.ticket (.ok .superseded) ∧
      ∀ access, (number, access) ∉ schedule.log
  /-- The newest ticket is not superseded. -/
  delivered_of_newest : ∀ number ticket report, schedule.Reports number ticket report →
    (∀ other, Issued session moves other → other.generation ≤ ticket.generation) →
    report ≠ .ok .superseded

theorem exists_lastCheck_of_reports (hruns : Runs session moves schedule)
    (hreports : schedule.Reports number ticket report) :
    ∃ before, LastCheck moves number before := by
  obtain ⟨text, hscan⟩ := hreports
  obtain ⟨last, _, hlast, -⟩ := check_of_reported hruns hscan rfl
  exact ⟨last, hlast⟩

theorem superseded_iff_overtaken (hruns : Runs session moves schedule)
    (hreports : schedule.Reports number ticket report)
    (hlast : LastCheck moves number before) :
    Issued session before ticket ∧
      (report = .ok .superseded ↔ Overtaken session before ticket) := by
  obtain ⟨text, hscan⟩ := hreports
  obtain ⟨last, checked, hlast', hchecked, hissued, hreport⟩ := check_of_reported hruns hscan rfl
  obtain rfl := hlast.unique hlast'
  refine ⟨(issued_iff hchecked).2 hissued, ?_⟩
  rw [hreport, overtaken_iff hchecked, isCurrent_eq_false_iff]
  have hle : ticket.generation ≤ checked.session.generation := (hasIssued_iff.1 hissued).2
  show ticket.generation ≠ _ ↔ ticket.generation < _
  omega

theorem refused_of_overtaken
    (hruns : Runs session (before ++ .take number :: more) schedule)
    (hscan : schedule.scans[number]? = some scan)
    (hovertaken : Overtaken session before scan.ticket) :
    schedule.Reports number scan.ticket (.ok .superseded) ∧
      ∀ access, (number, access) ∉ schedule.log := by
  unfold Runs at hruns
  rw [performAll_append, Option.bind_eq_some_iff] at hruns
  obtain ⟨checked, hbefore, hafter⟩ := hruns
  have hall := hafter
  rw [performAll_cons, Option.bind_eq_some_iff] at hafter
  obtain ⟨refused, hperform, hmore⟩ := hafter
  obtain ⟨taken, htaken, htake⟩ := Option.bind_eq_some_iff.1 hperform
  have hticket : scan.ticket = taken.ticket := by
    obtain ⟨stage, hlast⟩ := ticket_of_performAll hall htaken
    rw [hscan, Option.some.injEq] at hlast
    rw [hlast]
  have hstale : checked.session.isCurrent taken.ticket = false := by
    rw [hticket, overtaken_iff hbefore] at hovertaken
    rw [isCurrent_eq_false_iff]
    omega
  have hstepped := take_cases htaken htake
  obtain ⟨stage, hstep, hscans⟩ := hstepped.scans_eq
  cases hstep with
  | start _ hcurrent =>
    rw [hstale] at hcurrent
    contradiction
  | refuse hwaiting _ =>
    have hlt := (List.getElem?_eq_some_iff.1 htaken).1
    have hrefused : refused.scans[number]? =
        some { taken with stage := .reported (.ok .superseded) } := by
      rw [hscans, List.getElem?_set_self hlt]
    obtain ⟨hreports, -, hlog⟩ := reported_of_performAll hmore hrefused rfl
    rw [hticket]
    refine ⟨⟨taken.text, hreports⟩, fun access hentry => ?_⟩
    rcases hstepped.mem_log _ (hlog access hentry) with hearlier | ⟨-, inspection, hdecoding⟩
    · obtain ⟨other, hother, hstage⟩ := not_waiting_of_mem_log hbefore hearlier
      rw [htaken, Option.some.injEq] at hother
      exact hstage (hother ▸ hwaiting)
    · rw [hwaiting] at hdecoding
      contradiction

/-- Every run of a session delivers the newest. -/
theorem deliversNewest_of_runs (hruns : Runs session moves schedule) :
    DeliversNewest session moves schedule := by
  have hnot : ∀ {before ticket}, ¬ Overtaken session before ticket →
      ∀ other, Issued session before other → other.generation ≤ ticket.generation :=
    fun hnot other hother => Nat.le_of_not_lt fun hlt => hnot ⟨other, hother, hlt⟩
  constructor
  case exists_lastCheck =>
    intro number ticket report hreports
    exact exists_lastCheck_of_reports hruns hreports
  case superseded_iff =>
    intro number ticket report before hreports hlast
    exact (superseded_iff_overtaken hruns hreports hlast).2
  case newest_of_delivered =>
    intro number ticket report before hreports hdelivered hlast
    obtain ⟨hissued, hiff⟩ := superseded_iff_overtaken hruns hreports hlast
    exact ⟨hissued, hnot (mt hiff.2 hdelivered)⟩
  case generation_le =>
    intro number ticket report before number' ticket' report' before' hreports _ hlast
      hreports' hdelivered' hlast' horder
    obtain ⟨hissued, -⟩ := superseded_iff_overtaken hruns hreports hlast
    obtain ⟨-, hiff'⟩ := superseded_iff_overtaken hruns hreports' hlast'
    have hbegins := List.prefix_of_prefix_length_le hlast.isPrefix hlast'.isPrefix horder
    exact hnot (mt hiff'.2 hdelivered') ticket (hissued.mono hbegins)
  case superseded_of_superseded =>
    intro number ticket before number' report' before' hreports hlast hreports' hlast' horder
    obtain ⟨-, hiff⟩ := superseded_iff_overtaken hruns hreports hlast
    obtain ⟨-, hiff'⟩ := superseded_iff_overtaken hruns hreports' hlast'
    have hbegins := List.prefix_of_prefix_length_le hlast.isPrefix hlast'.isPrefix horder
    exact hiff'.2 ((hiff.1 rfl).mono hbegins)
  case not_mem_log_of_overtaken =>
    rintro number scan before after rfl hscan hovertaken
    exact refused_of_overtaken hruns hscan hovertaken
  case delivered_of_newest =>
    intro number ticket report hreports hnewest hsuperseded
    obtain ⟨before, hlast⟩ := exists_lastCheck_of_reports hruns hreports
    obtain ⟨-, hiff⟩ := superseded_iff_overtaken hruns hreports hlast
    obtain ⟨other, hissued, hlt⟩ := hiff.1 hsuperseded
    have hle := hnewest other (hissued.mono hlast.isPrefix)
    omega

/-! ## An example -/

/-- A session on a process without memory. -/
def blank : Session where
  target := (⟨.bits64, none, .empty⟩ : Snapshot).target
  platform := .linux
  decoder := { binding := .bound .itanium }
  undecorate := .ok

/-- A second ticket is issued while the scan with the first one decodes.  The
first ticket is then tried once more. -/
def interleaved : List Move :=
  [.begin, .request ⟨1⟩ "0x10000", .take 0, .advance 0, .begin, .request ⟨2⟩ "0x10000",
    .advance 0, .take 1, .report 0, .advance 1, .advance 1, .report 1, .request ⟨1⟩ "0x10000",
    .take 2]

theorem deliversNewest_interleaved :
    ∃ schedule, Runs blank interleaved schedule ∧
      [0, 1, 2].map schedule.reportOf? =
        [some (.ok .superseded),
          some (.error (.readFault "0x0000000000010000" 8 "address not captured")),
          some (.ok .superseded)] ∧
      DeliversNewest blank interleaved schedule := by
  have hreports : (({ session := blank } : Schedule).performAll interleaved).map
      (fun schedule => [0, 1, 2].map schedule.reportOf?) =
        some [some (.ok .superseded),
          some (.error (.readFault "0x0000000000010000" 8 "address not captured")),
          some (.ok .superseded)] := by
    decide +kernel
  obtain ⟨schedule, hruns, hreported⟩ := Option.map_eq_some_iff.1 hreports
  exact ⟨schedule, hruns, hreported, deliversNewest_of_runs hruns⟩

end Rtti.Schedule
