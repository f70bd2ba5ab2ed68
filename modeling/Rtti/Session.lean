import Rtti.Decoder

/-!
# Sessions

A session scans objects of one target.  Each scan begins with a ticket, and
tickets are numbered in the order in which they are issued.  Only the newest
ticket counts: a scan whose ticket has been overtaken by a newer one, before
it starts or while it decodes, reports that it is superseded and delivers
nothing.
-/

namespace Rtti

/-- The right to deliver one scan. -/
structure Ticket where
  /-- The number of the ticket; the first is one. -/
  generation : Nat
  deriving Repr, DecidableEq

/-- How a scan ends that does not fail. -/
inductive Outcome where
  | completed (hierarchy : ClassHierarchy)
  /-- A newer scan has begun. -/
  | superseded
  deriving DecidableEq

/-- A session on a target. -/
structure Session where
  target : Target
  platform : Platform
  decoder : Decoder
  undecorate : Msvc.Undecorator
  style : Style := .auto
  /-- The number of tickets issued. -/
  generation : Nat := 0

namespace Session

/-! ## Opening and closing -/

/-- A session on a target of a known platform. -/
def start (target : Target) (platform : Platform) (undecorate : Msvc.Undecorator)
    (limits : Limits) : Except ScanError Session := do
  let decoder ← Decoder.bind { limits := limits } platform.abi
  return { target, platform, decoder, undecorate }

/-- A session on a target whose platform is told by its image name. -/
def detect (target : Target) (undecorate : Msvc.Undecorator) (limits : Limits) :
    Except ScanError Session := do
  match target.imageName with
  | none => .error (.unsupportedPlatform "target reports no image name")
  | some name =>
    let platform ← Platform.ofImageName name
    start target platform undecorate limits

/-- The session with another style of presentation. -/
def withStyle (session : Session) (style : Style) : Session :=
  { session with style := style }

/-- The ABI of the target. -/
def abi (session : Session) : Abi := session.platform.abi

/-- The session after its end: its decoder is bound to no ABI. -/
def close (session : Session) : Session :=
  { session with decoder := session.decoder.release }

/-! ## Scanning -/

/-- Issues the next ticket. -/
def begin (session : Session) : Ticket × Session :=
  let generation := session.generation + 1
  (⟨generation⟩, { session with generation := generation })

/-- Whether a ticket was issued by the session. -/
def hasIssued (session : Session) (ticket : Ticket) : Bool :=
  1 ≤ ticket.generation && ticket.generation ≤ session.generation

/-- Whether a ticket is the newest. -/
def isCurrent (session : Session) (ticket : Ticket) : Bool :=
  ticket.generation = session.generation

/-- The inspection of the object at the address that a text spells. -/
def inspect (session : Session) (text : String) : Inspection ClassHierarchy :=
  session.decoder.decodeObject session.target.width session.undecorate text

/-- The hierarchy of the object at the address that a text spells. -/
def decode (session : Session) (text : String) : Except ScanError ClassHierarchy :=
  (session.inspect text).run session.target

/-- What a scan reports for its result, which is in vain if its ticket is not
the newest any more. -/
def deliver (session : Session) (ticket : Ticket) (result : Except ScanError ClassHierarchy) :
    Except ScanError Outcome :=
  if session.isCurrent ticket then result.map .completed else .ok .superseded

/-- The scan of an object with a ticket.  Nothing is read if the ticket is
not the newest. -/
def scanWith (session : Session) (ticket : Ticket) (text : String) : Except ScanError Outcome :=
  if session.isCurrent ticket then session.deliver ticket (session.decode text)
  else .ok .superseded

/-- The scan of an object with the next ticket. -/
def scan (session : Session) (text : String) : Except ScanError Outcome × Session :=
  let (ticket, session) := session.begin
  (session.scanWith ticket text, session)

/-- The lines that present a hierarchy in the style of the session. -/
def present (session : Session) (hierarchy : ClassHierarchy) : List String :=
  hierarchy.lines session.style

end Session

end Rtti
