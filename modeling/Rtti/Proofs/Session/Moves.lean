import Mathlib.Data.List.Induction
import Rtti.Session.Schedule

/-!
# Moves of a schedule

`Schedule.effect_of_perform` says once what a move can do (`Schedule.Effect`), and
`Schedule.perform_cases` what this is for the scans: a move issues a ticket, adds
a scan, or takes one scan from its stage to the next (`Scan.Step`).  From it
follow the facts about one scan that every later proof uses.

* `scan_of_perform` is about the past: a scan that is there after a move was
  there before, unchanged or at the stage before, or was asked for by the move.
* `reported_of_perform` is about the future: a scan that has reported is not
  touched again.

`Schedule.Runs` are the runs from a session without scans, and
`Runs.induction` is the induction on their moves.
-/

namespace Rtti

/-- The move checks the ticket of a scan. -/
def Move.Checks (move : Move) (number : Nat) : Prop :=
  move = .take number ∨ move = .report number

/-- A move of a scan leads from its stage to another. -/
inductive Scan.Step (session : Session) (number : Nat) (scan : Scan) : Move → Stage → Prop where
  | start (hstage : scan.stage = .waiting) (hcurrent : session.isCurrent scan.ticket = true) :
      Step session number scan (.take number) (.decoding (session.inspect scan.text))
  | refuse (hstage : scan.stage = .waiting) (hstale : session.isCurrent scan.ticket = false) :
      Step session number scan (.take number) (.reported (.ok .superseded))
  | read {inspection rest : Inspection ClassHierarchy}
      (hstage : scan.stage = .decoding inspection) :
      Step session number scan (.advance number) (.decoding rest)
  | decode {inspection : Inspection ClassHierarchy} (hstage : scan.stage = .decoding inspection) :
      Step session number scan (.advance number) (.decoded (inspection.run session.target))
  | report {result : Except ScanError ClassHierarchy} (hstage : scan.stage = .decoded result) :
      Step session number scan (.report number) (.reported (session.deliver scan.ticket result))

theorem Scan.Step.ne_waiting {session : Session} {number : Nat} {scan : Scan} {move : Move}
    {stage : Stage} (hstep : scan.Step session number move stage) : stage ≠ .waiting := by
  cases hstep <;> exact Stage.noConfusion

namespace Schedule

variable {session : Session} {schedule next : Schedule} {move : Move} {moves more : List Move}
  {number : Nat} {scan : Scan} {stage : Stage} {report : Except ScanError Outcome}

/-! ## What a move does -/

/-- A move has this effect. -/
inductive Effect (schedule : Schedule) : Move → Schedule → Prop where
  | begin : Effect schedule .begin { schedule with session := schedule.session.begin.2 }
  | request (ticket : Ticket) (text : String) (hissued : schedule.session.hasIssued ticket = true) :
    Effect schedule (.request ticket text)
      { schedule with scans := schedule.scans ++ [{ ticket, text }] }
  | start {number : Nat} {scan : Scan} (hscan : schedule.scans[number]? = some scan)
      (hstage : scan.stage = .waiting) (hfree : schedule.holder = none)
      (hcurrent : schedule.session.isCurrent scan.ticket = true) :
    Effect schedule (.take number)
      { schedule.withStage number scan (.decoding (schedule.session.inspect scan.text)) with
        holder := some number }
  | refuse {number : Nat} {scan : Scan} (hscan : schedule.scans[number]? = some scan)
      (hstage : scan.stage = .waiting)
      (hstale : schedule.session.isCurrent scan.ticket = false) :
    Effect schedule (.take number) (schedule.withStage number scan (.reported (.ok .superseded)))
  | read {number : Nat} {scan : Scan} {inspection rest : Inspection ClassHierarchy}
      {access : Access} (hscan : schedule.scans[number]? = some scan)
      (hstage : scan.stage = .decoding inspection)
      (hnext : inspection.advance? schedule.session.target = some (access, rest)) :
    Effect schedule (.advance number)
      { schedule.withStage number scan (.decoding rest) with
        log := schedule.log ++ [(number, access)] }
  | release {number : Nat} {scan : Scan} {inspection : Inspection ClassHierarchy}
      (hscan : schedule.scans[number]? = some scan) (hstage : scan.stage = .decoding inspection)
      (hend : inspection.advance? schedule.session.target = none) :
    Effect schedule (.advance number)
      { schedule.withStage number scan (.decoded (inspection.run schedule.session.target)) with
        holder := none }
  | report {number : Nat} {scan : Scan} {result : Except ScanError ClassHierarchy}
      (hscan : schedule.scans[number]? = some scan) (hstage : scan.stage = .decoded result) :
    Effect schedule (.report number)
      (schedule.withStage number scan (.reported (schedule.session.deliver scan.ticket result)))

theorem effect_of_perform (hperform : schedule.perform move = some next) :
    Effect schedule move next := by
  cases move with
  | begin =>
    cases hperform
    exact .begin
  | request ticket text =>
    simp only [perform] at hperform
    split at hperform
    · next hissued =>
      cases hperform
      exact .request ticket text hissued
    · contradiction
  | take number =>
    obtain ⟨scan, hscan, htake⟩ := Option.bind_eq_some_iff.1 hperform
    unfold take at htake
    split at htake
    · next hstage hfree =>
      split at htake
      · next hcurrent =>
        cases htake
        exact .start hscan hstage hfree hcurrent
      · next hstale =>
        cases htake
        exact .refuse hscan hstage (by simpa using hstale)
    · contradiction
  | advance number =>
    obtain ⟨scan, hscan, hadvance⟩ := Option.bind_eq_some_iff.1 hperform
    unfold advance at hadvance
    split at hadvance
    · next inspection hstage =>
      split at hadvance
      · next access rest hnext =>
        cases hadvance
        exact .read hscan hstage hnext
      · next hend =>
        cases hadvance
        exact .release hscan hstage hend
    · contradiction
  | report number =>
    obtain ⟨scan, hscan, hreport⟩ := Option.bind_eq_some_iff.1 hperform
    unfold Schedule.report at hreport
    split at hreport
    · next result hstage =>
      cases hreport
      exact .report hscan hstage
    · contradiction

/-! ## One scan -/

/-- A move of the scan with a number changes this scan only. -/
structure Stepped (schedule : Schedule) (number : Nat) (scan : Scan) (move : Move)
    (next : Schedule) : Prop where
  found : schedule.scans[number]? = some scan
  session_eq : next.session = schedule.session
  /-- Only this scan changes, and only its stage. -/
  scans_eq : ∃ stage, scan.Step schedule.session number move stage ∧
    next.scans = schedule.scans.set number { scan with stage := stage }
  /-- Only a decoding scan reads. -/
  mem_log : ∀ entry ∈ next.log, entry ∈ schedule.log ∨
    entry.1 = number ∧ ∃ inspection, scan.stage = .decoding inspection

theorem take_cases (hscan : schedule.scans[number]? = some scan)
    (htake : schedule.take number scan = some next) :
    Stepped schedule number scan (.take number) next := by
  have hperform : schedule.perform (.take number) = some next :=
    Option.bind_eq_some_iff.2 ⟨scan, hscan, htake⟩
  cases effect_of_perform hperform with
  | start hfound hstage _ hcurrent =>
    obtain rfl := Option.some.inj (hscan.symm.trans hfound)
    exact ⟨hscan, rfl, ⟨_, .start hstage hcurrent, rfl⟩, fun _ h => .inl h⟩
  | refuse hfound hstage hstale =>
    obtain rfl := Option.some.inj (hscan.symm.trans hfound)
    exact ⟨hscan, rfl, ⟨_, .refuse hstage hstale, rfl⟩, fun _ h => .inl h⟩

theorem perform_cases (hperform : schedule.perform move = some next) :
    (move = .begin ∧ next = { schedule with session := schedule.session.begin.2 }) ∨
    (∃ ticket text, move = .request ticket text ∧ schedule.session.hasIssued ticket = true ∧
      next = { schedule with scans := schedule.scans ++ [{ ticket, text }] }) ∨
    ∃ number scan, Stepped schedule number scan move next := by
  cases effect_of_perform hperform with
  | begin => exact .inl ⟨rfl, rfl⟩
  | request ticket text hissued => exact .inr (.inl ⟨ticket, text, rfl, hissued, rfl⟩)
  | start hscan hstage _ hcurrent =>
    exact .inr (.inr ⟨_, _, hscan, rfl, ⟨_, .start hstage hcurrent, rfl⟩, fun _ h => .inl h⟩)
  | refuse hscan hstage hstale =>
    exact .inr (.inr ⟨_, _, hscan, rfl, ⟨_, .refuse hstage hstale, rfl⟩, fun _ h => .inl h⟩)
  | read hscan hstage _ =>
    refine .inr (.inr ⟨_, _, hscan, rfl, ⟨_, .read hstage, rfl⟩, fun entry hentry => ?_⟩)
    rcases List.mem_append.1 hentry with hbefore | hnew
    · exact .inl hbefore
    · obtain rfl := List.mem_singleton.1 hnew
      exact .inr ⟨rfl, _, hstage⟩
  | release hscan hstage _ =>
    exact .inr (.inr ⟨_, _, hscan, rfl, ⟨_, .decode hstage, rfl⟩, fun _ h => .inl h⟩)
  | report hscan hstage =>
    exact .inr (.inr ⟨_, _, hscan, rfl, ⟨_, .report hstage, rfl⟩, fun _ h => .inl h⟩)

theorem getElem?_of_stepped {other : Nat} (hstepped : Stepped schedule number scan move next)
    (hother : other ≠ number) : next.scans[other]? = schedule.scans[other]? := by
  obtain ⟨stage, -, hscans⟩ := hstepped.scans_eq
  rw [hscans, List.getElem?_set_ne hother.symm]

theorem not_checks_of_stepped {other : Nat} (hstepped : Stepped schedule number scan move next)
    (hother : other ≠ number) : ¬ move.Checks other := by
  obtain ⟨stage, hstep, -⟩ := hstepped.scans_eq
  cases hstep <;> simp [Move.Checks, hother.symm]

theorem generation_le_of_perform (hperform : schedule.perform move = some next) :
    schedule.session.generation ≤ next.session.generation := by
  rcases perform_cases hperform with ⟨-, rfl⟩ | ⟨_, _, -, -, rfl⟩ | ⟨_, _, hstepped⟩
  · exact Nat.le_succ _
  · exact Nat.le_refl _
  · exact Nat.le_of_eq (congrArg Session.generation hstepped.session_eq.symm)

theorem exists_scan_of_perform (hperform : schedule.perform move = some next)
    (hscan : schedule.scans[number]? = some scan) :
    ∃ stage, next.scans[number]? = some { scan with stage := stage } := by
  rcases perform_cases hperform with ⟨-, rfl⟩ | ⟨ticket, text, -, -, rfl⟩ | ⟨other, moved, hstepped⟩
  · exact ⟨scan.stage, hscan⟩
  · refine ⟨scan.stage, ?_⟩
    have hlt := (List.getElem?_eq_some_iff.1 hscan).1
    show (schedule.scans ++ _)[number]? = _
    rw [List.getElem?_append_left hlt, hscan]
  · by_cases hsame : number = other
    · subst hsame
      obtain ⟨stage, -, hscans⟩ := hstepped.scans_eq
      have hlt := (List.getElem?_eq_some_iff.1 hscan).1
      obtain rfl : moved = scan := Option.some.inj (hstepped.found.symm.trans hscan)
      exact ⟨stage, by rw [hscans, List.getElem?_set_self hlt]⟩
    · exact ⟨scan.stage, by rw [getElem?_of_stepped hstepped hsame, hscan]⟩

/-- Where the scan that has a number after a move comes from. -/
theorem scan_of_perform (hperform : schedule.perform move = some next)
    (hscan : next.scans[number]? = some scan) :
    (schedule.scans[number]? = some scan ∧ ¬ move.Checks number) ∨
    (scan.stage = .waiting ∧ schedule.session.hasIssued scan.ticket = true ∧
      ¬ move.Checks number) ∨
    ∃ before, schedule.scans[number]? = some before ∧ before.ticket = scan.ticket ∧
      before.Step schedule.session number move scan.stage := by
  rcases perform_cases hperform with ⟨rfl, rfl⟩ | ⟨ticket, text, rfl, hissued, rfl⟩ |
    ⟨other, moved, hstepped⟩
  · exact .inl ⟨hscan, by simp [Move.Checks]⟩
  · by_cases hlt : number < schedule.scans.length
    · left
      refine ⟨?_, by simp [Move.Checks]⟩
      rw [← hscan]
      exact (List.getElem?_append_left hlt).symm
    · right; left
      have hnew : scan = { ticket, text } := by
        rw [List.getElem?_append_right (Nat.le_of_not_lt hlt)] at hscan
        exact List.mem_singleton.1 (List.mem_of_getElem? hscan)
      subst hnew
      exact ⟨rfl, hissued, by simp [Move.Checks]⟩
  · by_cases hsame : number = other
    · right; right
      subst hsame
      obtain ⟨stage, hstep, hscans⟩ := hstepped.scans_eq
      have hlt := (List.getElem?_eq_some_iff.1 hstepped.found).1
      rw [hscans, List.getElem?_set_self hlt, Option.some.injEq] at hscan
      subst hscan
      exact ⟨moved, hstepped.found, rfl, hstep⟩
    · left
      rw [getElem?_of_stepped hstepped hsame] at hscan
      exact ⟨hscan, not_checks_of_stepped hstepped hsame⟩

/-- A scan that has reported is not touched again. -/
theorem reported_of_perform (hperform : schedule.perform move = some next)
    (hscan : schedule.scans[number]? = some scan) (hreported : scan.stage = .reported report) :
    next.scans[number]? = some scan ∧ ¬ move.Checks number ∧
      ∀ access, (number, access) ∈ next.log → (number, access) ∈ schedule.log := by
  rcases perform_cases hperform with ⟨rfl, rfl⟩ | ⟨ticket, text, rfl, -, rfl⟩ |
    ⟨other, moved, hstepped⟩
  · exact ⟨hscan, by simp [Move.Checks], fun _ h => h⟩
  · have hlt := (List.getElem?_eq_some_iff.1 hscan).1
    exact ⟨(List.getElem?_append_left hlt).trans hscan, by simp [Move.Checks], fun _ h => h⟩
  · have hother : number ≠ other := by
      rintro rfl
      obtain rfl : moved = scan := Option.some.inj (hstepped.found.symm.trans hscan)
      obtain ⟨stage, hstep, -⟩ := hstepped.scans_eq
      -- no move leads away from a report
      cases hstep <;> simp_all
    refine ⟨by rw [getElem?_of_stepped hstepped hother, hscan],
      not_checks_of_stepped hstepped hother, fun access hentry => ?_⟩
    rcases hstepped.mem_log _ hentry with hbefore | ⟨hnumber, -⟩
    · exact hbefore
    · exact absurd hnumber hother

/-! ## Runs -/

/-- The moves lead from a session without scans to a schedule. -/
def Runs (session : Session) (moves : List Move) (schedule : Schedule) : Prop :=
  ({ session } : Schedule).performAll moves = some schedule

theorem performAll_append (schedule : Schedule) (moves more : List Move) :
    schedule.performAll (moves ++ more) =
      (schedule.performAll moves).bind fun next => next.performAll more :=
  List.foldlM_append ..

theorem performAll_cons (schedule : Schedule) (move : Move) (moves : List Move) :
    schedule.performAll (move :: moves) =
      (schedule.perform move).bind fun next => next.performAll moves :=
  List.foldlM_cons ..

theorem runs_concat : Runs session (moves ++ [move]) next ↔
    ∃ schedule, Runs session moves schedule ∧ schedule.perform move = some next := by
  unfold Runs
  rw [performAll_append, Option.bind_eq_some_iff]
  refine exists_congr fun schedule => and_congr_right fun _ => ?_
  rw [performAll_cons, Option.bind_eq_some_iff]
  constructor
  · rintro ⟨_, hperform, hdone⟩
    cases hdone
    exact hperform
  · intro hperform
    exact ⟨next, hperform, rfl⟩

/-- What holds at the start and is kept by each move holds after a run. -/
theorem Runs.induction {motive : List Move → Schedule → Prop} (start : motive [] { session })
    (step : ∀ moves move schedule next, Runs session moves schedule →
      schedule.perform move = some next → motive moves schedule → motive (moves ++ [move]) next)
    (hruns : Runs session moves schedule) : motive moves schedule := by
  induction moves using List.reverseRecOn generalizing schedule with
  | nil =>
    cases hruns
    exact start
  | append_singleton moves move ih =>
    obtain ⟨before, hbefore, hperform⟩ := runs_concat.1 hruns
    exact step moves move before schedule hbefore hperform (ih hbefore)

/-- A scan that has reported stays as it is. -/
theorem reported_of_performAll (hmore : schedule.performAll more = some next)
    (hscan : schedule.scans[number]? = some scan) (hreported : scan.stage = .reported report) :
    next.scans[number]? = some scan ∧ (∀ move ∈ more, ¬ move.Checks number) ∧
      ∀ access, (number, access) ∈ next.log → (number, access) ∈ schedule.log := by
  induction more generalizing schedule with
  | nil =>
    cases hmore
    exact ⟨hscan, by simp, fun _ h => h⟩
  | cons move more ih =>
    rw [performAll_cons] at hmore
    obtain ⟨middle, hperform, hmore⟩ := Option.bind_eq_some_iff.1 hmore
    obtain ⟨hmiddle, hmove, hlog⟩ := reported_of_perform hperform hscan hreported
    obtain ⟨hnext, hmoves, hlater⟩ := ih hmore hmiddle
    exact ⟨hnext, List.forall_mem_cons.2 ⟨hmove, hmoves⟩,
      fun access h => hlog access (hlater access h)⟩

theorem not_waiting_of_mem_log (hruns : Runs session moves schedule) {access : Access}
    (hentry : (number, access) ∈ schedule.log) :
    ∃ scan, schedule.scans[number]? = some scan ∧ scan.stage ≠ .waiting := by
  refine Runs.induction (motive := fun _ schedule => (number, access) ∈ schedule.log →
    ∃ scan, schedule.scans[number]? = some scan ∧ scan.stage ≠ .waiting) ?_ ?_ hruns hentry
  · intro hentry
    contradiction
  · intro moves move schedule next _ hperform ih hentry
    rcases perform_cases hperform with ⟨-, rfl⟩ | ⟨ticket, text, -, -, rfl⟩ |
      ⟨other, moved, hstepped⟩
    · exact ih hentry
    · obtain ⟨scan, hscan, hstage⟩ := ih hentry
      have hlt := (List.getElem?_eq_some_iff.1 hscan).1
      exact ⟨scan, (List.getElem?_append_left hlt).trans hscan, hstage⟩
    · by_cases hsame : number = other
      · subst hsame
        obtain ⟨stage, hstep, hscans⟩ := hstepped.scans_eq
        have hlt := (List.getElem?_eq_some_iff.1 hstepped.found).1
        refine ⟨{ moved with stage := stage }, by rw [hscans, List.getElem?_set_self hlt], ?_⟩
        exact hstep.ne_waiting
      · rw [getElem?_of_stepped hstepped hsame]
        rcases hstepped.mem_log _ hentry with hbefore | ⟨hnumber, -⟩
        · exact ih hbefore
        · exact absurd hnumber hsame

theorem ticket_of_performAll (hmore : schedule.performAll more = some next)
    (hscan : schedule.scans[number]? = some scan) :
    ∃ stage, next.scans[number]? = some { scan with stage := stage } := by
  induction more generalizing schedule scan with
  | nil =>
    cases hmore
    exact ⟨scan.stage, hscan⟩
  | cons move more ih =>
    rw [performAll_cons] at hmore
    obtain ⟨middle, hperform, hmore⟩ := Option.bind_eq_some_iff.1 hmore
    obtain ⟨stage, hmiddle⟩ := exists_scan_of_perform hperform hscan
    obtain ⟨last, hnext⟩ := ih hmore hmiddle
    exact ⟨last, hnext⟩

end Schedule

end Rtti
