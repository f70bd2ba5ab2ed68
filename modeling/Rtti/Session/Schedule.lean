import Rtti.Session

/-!
# Schedules of a session

Several scans of a session may be under way at once, and new tickets may be
issued in the meantime.  A schedule is a session with its scans and with the
reads made so far, and a `Move` is what may happen next: each scan waits for
the target, holds it while it decodes, one read at a time, lets go of it and
then reports.  A scan checks its ticket twice, when it takes the target and
when it reports.

`Schedule.perform` makes the move, if it is possible, and
`Schedule.performAll` one move after another.
-/

namespace Rtti

/-- How far a scan has come. -/
inductive Stage where
  /-- It waits for the target. -/
  | waiting
  /-- It holds the target and has this left to do. -/
  | decoding (rest : Inspection ClassHierarchy)
  /-- It has let go of the target and has not reported its result. -/
  | decoded (result : Except ScanError ClassHierarchy)
  /-- It has reported. -/
  | reported (report : Except ScanError Outcome)

/-- A scan that was asked for. -/
structure Scan where
  ticket : Ticket
  /-- The spelling of the object's address. -/
  text : String
  stage : Stage := .waiting

/-- What may happen next in a session; a scan is given by its number. -/
inductive Move where
  /-- A ticket is issued. -/
  | begin
  /-- A scan is asked for. -/
  | request (ticket : Ticket) (text : String)
  /-- A waiting scan takes the target and checks its ticket. -/
  | take (scan : Nat)
  /-- The scan that holds the target makes its next read, or lets go of the
  target if there is none. -/
  | advance (scan : Nat)
  /-- A decoded scan checks its ticket again and reports. -/
  | report (scan : Nat)
  deriving Repr, DecidableEq

/-- A session with the scans under way. -/
structure Schedule where
  session : Session
  /-- The scans in the order in which they were asked for. -/
  scans : List Scan := []
  /-- The number of the scan that holds the target. -/
  holder : Option Nat := none
  /-- The reads made so far, each with the number of its scan. -/
  log : List (Nat × Access) := []

namespace Schedule

/-- The schedule with a scan at another stage. -/
def withStage (schedule : Schedule) (number : Nat) (scan : Scan) (stage : Stage) : Schedule :=
  { schedule with scans := schedule.scans.set number { scan with stage := stage } }

/-- A waiting scan takes the target, which must be free.  If its ticket is
not the newest, it reports that and leaves the target alone. -/
def take (schedule : Schedule) (number : Nat) (scan : Scan) : Option Schedule :=
  match scan.stage, schedule.holder with
  | .waiting, none =>
    if schedule.session.isCurrent scan.ticket then
      some { schedule.withStage number scan (.decoding (schedule.session.inspect scan.text)) with
        holder := some number }
    else some (schedule.withStage number scan (.reported (.ok .superseded)))
  | _, _ => none

/-- A decoding scan makes its next read, or lets go of the target. -/
def advance (schedule : Schedule) (number : Nat) (scan : Scan) : Option Schedule :=
  match scan.stage with
  | .decoding inspection =>
    match inspection.advance? schedule.session.target with
    | some (access, rest) =>
      some { schedule.withStage number scan (.decoding rest) with
        log := schedule.log ++ [(number, access)] }
    | none =>
      let result := inspection.run schedule.session.target
      some { schedule.withStage number scan (.decoded result) with holder := none }
  | _ => none

/-- A decoded scan reports. -/
def report (schedule : Schedule) (number : Nat) (scan : Scan) : Option Schedule :=
  match scan.stage with
  | .decoded result =>
    some (schedule.withStage number scan (.reported (schedule.session.deliver scan.ticket result)))
  | _ => none

/-- The schedule after a move, if the move is possible.  A scan can be asked
for with any ticket that was issued. -/
def perform (schedule : Schedule) : Move → Option Schedule
  | .begin => some { schedule with session := schedule.session.begin.2 }
  | .request ticket text =>
    if schedule.session.hasIssued ticket then
      some { schedule with scans := schedule.scans ++ [{ ticket, text }] }
    else none
  | .take number => schedule.scans[number]?.bind (schedule.take number)
  | .advance number => schedule.scans[number]?.bind (schedule.advance number)
  | .report number => schedule.scans[number]?.bind (schedule.report number)

/-- The schedule after moves one after another, if all are possible. -/
def performAll (schedule : Schedule) (moves : List Move) : Option Schedule :=
  moves.foldlM perform schedule

/-- The schedule after the scan with a number has decoded, if it holds the
target. -/
def finish (schedule : Schedule) (number : Nat) : Option Schedule := do
  match (← schedule.scans[number]?).stage with
  | .decoding rest =>
    let reads := (rest.reads schedule.session.target).length
    schedule.performAll (List.replicate (reads + 1) (.advance number))
  | _ => none

/-- What the scan with a number has reported. -/
def reportOf? (schedule : Schedule) (number : Nat) : Option (Except ScanError Outcome) :=
  match schedule.scans[number]? with
  | some ⟨_, _, .reported report⟩ => some report
  | _ => none

end Schedule

end Rtti
