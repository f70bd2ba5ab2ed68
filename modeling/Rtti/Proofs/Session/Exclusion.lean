import Rtti.Proofs.Session.Supersession

/-!
# Scans in turn

In every run of a session, however its scans interleave, at most one scan holds
the target, and the reads of a scan stand together in the order of all reads.
They are the reads that the scan would make alone, unless a newer ticket was
issued before the scan took the target: then it makes none.
`Schedule.ScansInTurn` says this of a run, and `Schedule.scansInTurn_of_runs`
proves it of every run.

The proof has two invariants: the scan that decodes is the one that holds the
target (`HolderDecodes`), so no other scan reads before it lets go; and the
reads of a scan that took the target are accounted for (`Accounted`).
-/

namespace Rtti.Schedule

variable {session : Session} {schedule next : Schedule} {move : Move}
  {moves before after : List Move} {number other : Nat} {scan : Scan} {stage : Stage}

/-! ## The holder -/

/-- The scan with the number is between taking the target and letting go of
it. -/
def Decodes (schedule : Schedule) (number : Nat) : Prop :=
  ∃ scan rest, schedule.scans[number]? = some scan ∧ scan.stage = .decoding rest

/-- The scan that decodes is the one that holds the target. -/
def HolderDecodes (schedule : Schedule) : Prop :=
  ∀ number, schedule.Decodes number ↔ schedule.holder = some number

theorem decodes_iff (hscan : schedule.scans[number]? = some scan) :
    schedule.Decodes number ↔ ∃ rest, scan.stage = .decoding rest := by
  constructor
  · rintro ⟨found, rest, hfound, hstage⟩
    obtain rfl : scan = found := Option.some.inj (hscan.symm.trans hfound)
    exact ⟨rest, hstage⟩
  · rintro ⟨rest, hstage⟩
    exact ⟨scan, rest, hscan, hstage⟩

/-- A scan that does not decode does not hold the target. -/
theorem HolderDecodes.holder_ne (hholder : schedule.HolderDecodes)
    (hscan : schedule.scans[number]? = some scan) (hstage : ∀ rest, scan.stage ≠ .decoding rest) :
    schedule.holder ≠ some number := by
  rw [ne_eq, ← hholder number, decodes_iff hscan]
  rintro ⟨rest, hrest⟩
  exact hstage rest hrest

/-- A move of one scan keeps the invariant if it gives the target to this scan
or takes it from it, as the stage says. -/
theorem HolderDecodes.step (hholder : schedule.HolderDecodes)
    (hscan : schedule.scans[number]? = some scan)
    (hscans : next.scans = schedule.scans.set number { scan with stage := stage })
    (hself : (∃ rest, stage = .decoding rest) ↔ next.holder = some number)
    (hothers : ∀ other, other ≠ number →
      (schedule.holder = some other ↔ next.holder = some other)) : next.HolderDecodes := by
  have hlt := (List.getElem?_eq_some_iff.1 hscan).1
  intro other
  by_cases hsame : other = number
  · subst hsame
    have hnext : next.scans[other]? = some { scan with stage := stage } := by
      rw [hscans, List.getElem?_set_self hlt]
    rw [decodes_iff hnext, hself]
  · rw [← hothers other hsame, ← hholder other]
    unfold Decodes
    rw [hscans, List.getElem?_set_ne (Ne.symm hsame)]

theorem holderDecodes_of_effect (hholder : schedule.HolderDecodes)
    (heffect : Effect schedule move next) : next.HolderDecodes := by
  cases heffect with
  | begin => exact hholder
  | request ticket text _ =>
    intro other
    rw [← show schedule.Decodes other ↔ schedule.holder = some other from hholder other]
    constructor
    · rintro ⟨scan, rest, hscan, hstage⟩
      by_cases hlt : other < schedule.scans.length
      · exact ⟨scan, rest, (List.getElem?_append_left hlt).symm.trans hscan, hstage⟩
      · -- the new scan waits
        have hnew : scan = { ticket, text } := by
          rw [List.getElem?_append_right (Nat.le_of_not_lt hlt)] at hscan
          exact List.mem_singleton.1 (List.mem_of_getElem? hscan)
        subst hnew
        contradiction
    · rintro ⟨scan, rest, hscan, hstage⟩
      have hlt := (List.getElem?_eq_some_iff.1 hscan).1
      exact ⟨scan, rest, (List.getElem?_append_left hlt).trans hscan, hstage⟩
  | start hscan hstage hfree hcurrent =>
    refine hholder.step hscan rfl (iff_of_true ⟨_, rfl⟩ rfl) fun other hother => ?_
    simp [hfree, Ne.symm hother]
  | refuse hscan hstage hstale =>
    have hfree := hholder.holder_ne hscan (by simp [hstage])
    exact hholder.step hscan rfl (iff_of_false nofun hfree) fun _ _ => Iff.rfl
  | read hscan hstage hnext =>
    have hheld := (hholder _).1 ((decodes_iff hscan).2 ⟨_, hstage⟩)
    exact hholder.step hscan rfl (iff_of_true ⟨_, rfl⟩ hheld) fun _ _ => Iff.rfl
  | release hscan hstage hend =>
    have hheld := (hholder _).1 ((decodes_iff hscan).2 ⟨_, hstage⟩)
    refine hholder.step hscan rfl (iff_of_false nofun nofun) fun other hother => ?_
    simp [hheld, Ne.symm hother]
  | report hscan hstage =>
    have hfree := hholder.holder_ne hscan (by simp [hstage])
    exact hholder.step hscan rfl (iff_of_false nofun hfree) fun _ _ => Iff.rfl

/-! ## Blocks of reads -/

/-- The reads of the scan with the number stand together, and are these. -/
def Block (log : List (Nat × Access)) (number : Nat) (reads : List Access) : Prop :=
  ∃ before after, log = before ++ reads.map (number, ·) ++ after ∧
    ∀ entry ∈ before ++ after, entry.1 ≠ number

/-- The same with no read of another scan behind them. -/
def LastBlock (log : List (Nat × Access)) (number : Nat) (reads : List Access) : Prop :=
  ∃ before, log = before ++ reads.map (number, ·) ∧ ∀ entry ∈ before, entry.1 ≠ number

variable {log : List (Nat × Access)} {reads : List Access} {access : Access}

theorem LastBlock.block (hlast : LastBlock log number reads) : Block log number reads := by
  obtain ⟨before, hlog, hbefore⟩ := hlast
  exact ⟨before, [], by simpa using hlog, by simpa using hbefore⟩

theorem lastBlock_nil (hnone : ∀ access, (number, access) ∉ log) : LastBlock log number [] := by
  refine ⟨log, by simp, fun entry hentry hsame => ?_⟩
  obtain ⟨_, access⟩ := entry
  exact hnone access (hsame ▸ hentry)

/-- The scan reads on. -/
theorem LastBlock.read (hlast : LastBlock log number reads) (access : Access) :
    LastBlock (log ++ [(number, access)]) number (reads ++ [access]) := by
  obtain ⟨before, rfl, hbefore⟩ := hlast
  exact ⟨before, by simp, hbefore⟩

/-- Another scan reads. -/
theorem Block.read_of_ne (hblock : Block log number reads) (hother : other ≠ number)
    (access : Access) : Block (log ++ [(other, access)]) number reads := by
  obtain ⟨before, after, rfl, hothers⟩ := hblock
  refine ⟨before, after ++ [(other, access)], by simp, fun entry hentry => ?_⟩
  rw [← List.append_assoc] at hentry
  rcases List.mem_append.1 hentry with hearlier | hnew
  · exact hothers entry hearlier
  · obtain rfl := List.mem_singleton.1 hnew
    exact hother

/-! ## The reads of a scan that took the target -/

/-- The reads that a scan would make alone. -/
def readsAlone (session : Session) (scan : Scan) : List Access :=
  (session.inspect scan.text).reads session.target

/-- The reads of a scan that took the target are accounted for: while it decodes,
those that it made are the last ones, and those that it has to make are missing;
afterwards they are in a block. -/
def Accounted (schedule : Schedule) (number : Nat) (scan : Scan) : Prop :=
  match scan.stage with
  | .waiting => False
  | .decoding rest => ∃ made, LastBlock schedule.log number made ∧
      made ++ rest.reads schedule.session.target = readsAlone schedule.session scan
  | .decoded _ | .reported _ =>
    Block schedule.log number (readsAlone schedule.session scan)

theorem Accounted.of_decoding {rest : Inspection ClassHierarchy}
    (haccounted : schedule.Accounted number scan) (hstage : scan.stage = .decoding rest) :
    ∃ made, LastBlock schedule.log number made ∧
      made ++ rest.reads schedule.session.target = readsAlone schedule.session scan := by
  unfold Accounted at haccounted
  rwa [hstage] at haccounted

theorem accounted_iff_block (hstarted : scan.stage ≠ .waiting)
    (hended : ∀ rest, scan.stage ≠ .decoding rest) :
    schedule.Accounted number scan ↔
      Block schedule.log number (readsAlone schedule.session scan) := by
  unfold Accounted
  cases hstage : scan.stage with
  | waiting => exact absurd hstage hstarted
  | decoding rest => exact absurd hstage (hended rest)
  | decoded | reported => exact Iff.rfl

theorem Accounted.ne_waiting (haccounted : schedule.Accounted number scan) :
    scan.stage ≠ .waiting := by
  intro hstage
  unfold Accounted at haccounted
  rw [hstage] at haccounted
  exact haccounted

/-- A scan that has just taken the target has all its reads to make. -/
theorem accounted_of_start (hnone : ∀ access, (number, access) ∉ schedule.log)
    (hstage : stage = .decoding (schedule.session.inspect scan.text)) :
    schedule.Accounted number { scan with stage := stage } := by
  unfold Accounted
  rw [hstage]
  exact ⟨[], lastBlock_nil hnone, rfl⟩

/-- A move without a read keeps the account of every scan if it does so for the
scan that it moves. -/
theorem accounted_of_moved {moved : Scan} (hscan : schedule.scans[number]? = some scan)
    (haccounted : schedule.Accounted number scan) (hmoved : schedule.scans[other]? = some moved)
    (hlog : next.log = schedule.log) (hsession : next.session = schedule.session)
    (hscans : next.scans = schedule.scans.set other { moved with stage := stage })
    (hself : schedule.Accounted other moved →
      next.Accounted other { moved with stage := stage }) :
    ∃ stage, next.scans[number]? = some { scan with stage := stage } ∧
      next.Accounted number { scan with stage := stage } := by
  by_cases hsame : number = other
  · subst hsame
    obtain rfl : scan = moved := Option.some.inj (hscan.symm.trans hmoved)
    refine ⟨stage, ?_, hself haccounted⟩
    rw [hscans, List.getElem?_set_self (List.getElem?_eq_some_iff.1 hscan).1]
  · refine ⟨scan.stage, ?_, ?_⟩
    · rw [hscans, List.getElem?_set_ne (Ne.symm hsame), hscan]
    · unfold Accounted at haccounted ⊢
      rwa [hlog, hsession]

/-- The scan that holds the target reads on, and no other scan does. -/
theorem accounted_of_read {inspection rest : Inspection ClassHierarchy} {access : Access}
    {reading : Scan} (hholder : schedule.HolderDecodes)
    (hscan : schedule.scans[number]? = some scan) (haccounted : schedule.Accounted number scan)
    (hreading : schedule.scans[other]? = some reading)
    (hstage : reading.stage = .decoding inspection)
    (hnext : inspection.advance? schedule.session.target = some (access, rest))
    (hlog : next.log = schedule.log ++ [(other, access)])
    (hsession : next.session = schedule.session)
    (hscans : next.scans = schedule.scans.set other { reading with stage := .decoding rest }) :
    ∃ stage, next.scans[number]? = some { scan with stage := stage } ∧
      next.Accounted number { scan with stage := stage } := by
  have hheld := (hholder other).1 ((decodes_iff hreading).2 ⟨inspection, hstage⟩)
  by_cases hsame : number = other
  · subst hsame
    obtain rfl : scan = reading := Option.some.inj (hscan.symm.trans hreading)
    refine ⟨.decoding rest, ?_, ?_⟩
    · rw [hscans, List.getElem?_set_self (List.getElem?_eq_some_iff.1 hscan).1]
    · obtain ⟨made, hlast, halone⟩ := haccounted.of_decoding hstage
      refine ⟨made ++ [access], hlog ▸ hlast.read access, ?_⟩
      rw [hsession, List.append_assoc, List.singleton_append,
        ← Inspection.reads_of_advance? hnext]
      exact halone
  · have hended : ∀ rest, scan.stage ≠ .decoding rest := by
      intro rest hrest
      have hboth := (hholder number).1 ((decodes_iff hscan).2 ⟨rest, hrest⟩)
      exact hsame (Option.some.inj (hboth.symm.trans hheld))
    refine ⟨scan.stage, ?_, ?_⟩
    · rw [hscans, List.getElem?_set_ne (Ne.symm hsame), hscan]
    · have hblock := (accounted_iff_block haccounted.ne_waiting hended).1 haccounted
      refine (accounted_iff_block haccounted.ne_waiting hended).2 ?_
      rw [hlog, hsession]
      exact hblock.read_of_ne (Ne.symm hsame) access

theorem accounted_of_effect (hholder : schedule.HolderDecodes)
    (hscan : schedule.scans[number]? = some scan) (haccounted : schedule.Accounted number scan)
    (heffect : Effect schedule move next) :
    ∃ stage, next.scans[number]? = some { scan with stage := stage } ∧
      next.Accounted number { scan with stage := stage } := by
  cases heffect with
  | begin => exact ⟨scan.stage, hscan, haccounted⟩
  | request ticket text _ =>
    have hlt := (List.getElem?_eq_some_iff.1 hscan).1
    exact ⟨scan.stage, (List.getElem?_append_left hlt).trans hscan, haccounted⟩
  | start hmoved hwaiting hfree hcurrent =>
    exact accounted_of_moved hscan haccounted hmoved rfl rfl rfl fun hself =>
      absurd hwaiting hself.ne_waiting
  | refuse hmoved hwaiting hstale =>
    exact accounted_of_moved hscan haccounted hmoved rfl rfl rfl fun hself =>
      absurd hwaiting hself.ne_waiting
  | read hreading hstage hnext =>
    exact accounted_of_read hholder hscan haccounted hreading hstage hnext rfl rfl rfl
  | release hmoved hstage hend =>
    refine accounted_of_moved hscan haccounted hmoved rfl rfl rfl fun hself => ?_
    obtain ⟨made, hlast, halone⟩ := hself.of_decoding hstage
    rw [Inspection.reads_of_advance?_eq_none hend, List.append_nil] at halone
    subst halone
    exact hlast.block
  | report hmoved hstage =>
    refine accounted_of_moved hscan haccounted hmoved rfl rfl rfl fun hself => ?_
    have hblock := (accounted_iff_block (by simp [hstage]) (by simp [hstage])).1 hself
    exact hblock

/-! ## Runs -/

theorem holderDecodes_of_runs (hruns : Runs session moves schedule) : schedule.HolderDecodes :=
  Runs.induction (motive := fun _ schedule => schedule.HolderDecodes)
    (fun number => iff_of_false (by simp [Decodes]) nofun)
    (fun _ _ _ _ _ hperform hholder =>
      holderDecodes_of_effect hholder (effect_of_perform hperform)) hruns

/-- A session keeps its target and its decoder. -/
theorem readsAlone_of_runs (hruns : Runs session moves schedule) (scan : Scan) :
    schedule.session.target = session.target ∧
      readsAlone schedule.session scan = readsAlone session scan :=
  Runs.induction (motive := fun _ schedule => schedule.session.target = session.target ∧
      readsAlone schedule.session scan = readsAlone session scan)
    ⟨rfl, rfl⟩
    (fun _ _ _ _ _ hperform hsame => by
      cases effect_of_perform hperform <;> exact hsame) hruns

theorem accounted_of_performAll (hholder : schedule.HolderDecodes)
    (hscan : schedule.scans[number]? = some scan) (haccounted : schedule.Accounted number scan)
    (hmoves : schedule.performAll moves = some next) :
    ∃ stage, next.scans[number]? = some { scan with stage := stage } ∧
      next.Accounted number { scan with stage := stage } := by
  induction moves generalizing schedule scan with
  | nil =>
    cases hmoves
    exact ⟨scan.stage, hscan, haccounted⟩
  | cons move moves ih =>
    rw [performAll_cons] at hmoves
    obtain ⟨middle, hperform, hmoves⟩ := Option.bind_eq_some_iff.1 hmoves
    have heffect := effect_of_perform hperform
    obtain ⟨stage, hmiddle, haccount⟩ := accounted_of_effect hholder hscan haccounted heffect
    obtain ⟨last, hnext, hlast⟩ :=
      ih (holderDecodes_of_effect hholder heffect) hmiddle haccount hmoves
    exact ⟨last, hnext, hlast⟩

/-- A scan that takes the target with the newest ticket is accounted for from
then on. -/
theorem accounted_of_runs (hruns : Runs session (before ++ .take number :: after) schedule)
    (hscan : schedule.scans[number]? = some scan)
    (hnewest : ¬Overtaken session before scan.ticket) : schedule.Accounted number scan := by
  unfold Runs at hruns
  rw [performAll_append, Option.bind_eq_some_iff] at hruns
  obtain ⟨checked, hbefore, hall⟩ := hruns
  have hafter := hall
  rw [performAll_cons, Option.bind_eq_some_iff] at hafter
  obtain ⟨taken, hperform, hmore⟩ := hafter
  have heffect := effect_of_perform hperform
  have hholder := holderDecodes_of_effect (holderDecodes_of_runs hbefore) heffect
  cases heffect with
  | @start _ found hfound hwaiting hfree hcurrent =>
    have hnone : ∀ access, (number, access) ∉ checked.log := by
      intro access hentry
      obtain ⟨other, hother, hstarted⟩ := not_waiting_of_mem_log hbefore hentry
      obtain rfl : found = other := Option.some.inj (hfound.symm.trans hother)
      exact hstarted hwaiting
    have hlt := (List.getElem?_eq_some_iff.1 hfound).1
    obtain ⟨stage, hlast, haccounted⟩ := accounted_of_performAll hholder
      (List.getElem?_set_self hlt) (accounted_of_start hnone rfl) hmore
    obtain rfl := Option.some.inj (hscan.symm.trans hlast)
    exact haccounted
  | @refuse _ found hfound hwaiting hstale =>
    -- a ticket that is not the newest is overtaken
    obtain ⟨stage, hlast⟩ := ticket_of_performAll hall hfound
    obtain rfl := Option.some.inj (hscan.symm.trans hlast)
    have hissued := (hasIssued_iff.1 (hasIssued_of_runs hbefore hfound)).2
    rw [isCurrent_eq_false_iff] at hstale
    rw [overtaken_iff hbefore] at hnewest
    exact absurd (Nat.lt_of_le_of_ne hissued hstale) hnewest

/-! ## Scans take turns -/

/-- The scans of a run decode in turn, each without a read of another in
between. -/
structure ScansInTurn (session : Session) (moves : List Move) (schedule : Schedule) : Prop where
  /-- At most one scan is between taking the target and the end of its decoding. -/
  eq_of_decodes : ∀ number other, schedule.Decodes number → schedule.Decodes other →
    number = other
  /-- The reads of a scan that took the target with the newest ticket and has
  decoded are those that it makes alone, in one block. -/
  block_of_decoded : ∀ number scan before after, schedule.scans[number]? = some scan →
    moves = before ++ .take number :: after → ¬Overtaken session before scan.ticket →
    ¬schedule.Decodes number →
    Block schedule.log number ((session.inspect scan.text).reads session.target)
  /-- Those of a scan that decodes are the first of them, in one block. -/
  block_of_decodes : ∀ number scan, schedule.scans[number]? = some scan →
    schedule.Decodes number →
    ∃ made left, made ++ left = (session.inspect scan.text).reads session.target ∧
      Block schedule.log number made
  /-- No other scan makes a read. -/
  not_mem_log : ∀ number scan, schedule.scans[number]? = some scan →
    (∀ before after, moves = before ++ .take number :: after →
      Overtaken session before scan.ticket) →
    ∀ access, (number, access) ∉ schedule.log

/-- Only a take leads away from waiting. -/
theorem exists_take_of_runs (hruns : Runs session moves schedule)
    (hscan : schedule.scans[number]? = some scan) (hstarted : scan.stage ≠ .waiting) :
    ∃ before after, moves = before ++ .take number :: after := by
  refine Runs.induction (motive := fun moves schedule => ∀ scan,
    schedule.scans[number]? = some scan → scan.stage ≠ .waiting →
    ∃ before after, moves = before ++ .take number :: after) ?_ ?_ hruns scan hscan hstarted
  · intro scan hscan
    simp at hscan
  · intro moves move schedule next _ hperform ih scan hscan hstarted
    have hearlier : ∀ before, schedule.scans[number]? = some before → before.stage ≠ .waiting →
        ∃ first after, moves ++ [move] = first ++ .take number :: after := by
      intro before hbefore hstage
      obtain ⟨first, after, rfl⟩ := ih before hbefore hstage
      exact ⟨first, after ++ [move], by simp⟩
    rcases scan_of_perform hperform hscan with ⟨hbefore, -⟩ | ⟨hwaiting, -, -⟩ |
      ⟨before, hbefore, -, hstep⟩
    · exact hearlier scan hbefore hstarted
    · exact absurd hwaiting hstarted
    · generalize scan.stage = stage at hstep
      cases hstep with
      | start | refuse => exact ⟨moves, [], rfl⟩
      | read hstage | decode hstage | report hstage =>
        exact hearlier before hbefore (by simp [hstage])

/-- In every run of a session the scans decode in turn. -/
theorem scansInTurn_of_runs (hruns : Runs session moves schedule) :
    ScansInTurn session moves schedule := by
  have hholder := holderDecodes_of_runs hruns
  constructor
  case eq_of_decodes =>
    intro number other hdecodes hother
    exact Option.some.inj (((hholder number).1 hdecodes).symm.trans ((hholder other).1 hother))
  case block_of_decoded =>
    rintro number scan before after hscan rfl hnewest hended
    have haccounted := accounted_of_runs hruns hscan hnewest
    rw [decodes_iff hscan, not_exists] at hended
    rw [accounted_iff_block haccounted.ne_waiting hended] at haccounted
    rwa [(readsAlone_of_runs hruns scan).2] at haccounted
  case block_of_decodes =>
    intro number scan hscan hdecodes
    obtain ⟨rest, hstage⟩ := (decodes_iff hscan).1 hdecodes
    obtain ⟨before, after, rfl⟩ := exists_take_of_runs hruns hscan (by simp [hstage])
    have hnewest : ¬Overtaken session before scan.ticket := by
      intro hovertaken
      obtain ⟨⟨text, hreported⟩, -⟩ := refused_of_overtaken hruns hscan hovertaken
      rw [hscan, Option.some.injEq] at hreported
      rw [hreported] at hstage
      contradiction
    obtain ⟨made, hlast, halone⟩ := (accounted_of_runs hruns hscan hnewest).of_decoding hstage
    rw [(readsAlone_of_runs hruns scan).2] at halone
    exact ⟨made, _, halone, hlast.block⟩
  case not_mem_log =>
    intro number scan hscan hrefused access hentry
    obtain ⟨found, hfound, hstarted⟩ := not_waiting_of_mem_log hruns hentry
    obtain rfl : scan = found := Option.some.inj (hscan.symm.trans hfound)
    obtain ⟨before, after, rfl⟩ := exists_take_of_runs hruns hscan hstarted
    have hovertaken := hrefused before after rfl
    exact (refused_of_overtaken hruns hscan hovertaken).2 access hentry

/-! ## Examples -/

/-- A scan that waits for the target until its ticket is overtaken makes none of
the reads that it would make alone. -/
theorem not_block_of_refused :
    let alone := (blank.inspect "0x10000").reads blank.target
    ∃ schedule, Runs blank [.begin, .request ⟨1⟩ "0x10000", .begin, .take 0] schedule ∧
      schedule.reportOf? 0 = some (.ok .superseded) ∧
      alone = [⟨.ofNat 0x10000, 8, false⟩] ∧ ¬Block schedule.log 0 alone := by
  intro alone
  have halone : alone = [⟨.ofNat 0x10000, 8, false⟩] := by decide +kernel
  refine ⟨_, rfl, rfl, halone, ?_⟩
  rintro ⟨before, after, hlog, -⟩
  have hnone : [] = before ++ alone.map (0, ·) ++ after := hlog
  simp [halone] at hnone

/-- The memory of a 32-bit process with an object of a class, one of a class
with a decorated name and one of a corrupt class. -/
def threeObjects : Snapshot :=
  let words := List.flatMap (Word.toBytes 4)
  let locator (hierarchy : Nat) := List.replicate 16 0 ++ words [hierarchy]
  let type (name : String) := List.replicate 12 0 ++ (Utf8.encode name).rightpad 8 0
  [ (0x10000, words [0x20004, 0x21004, 0x22004]), (0x20000, words [0x30000]),
    (0x21000, words [0x31000]), (0x22000, words [0x32000]), (0x30000, locator 0x40000),
    (0x31000, locator 0x41000), (0x32000, locator 0x42000), (0x40000, words [0, 0, 1, 0x50000]),
    (0x41000, words [0, 0, 1, 0x51000]), (0x42000, words [0, 0, 0, 0]),
    (0x50000, words [0x60000]), (0x51000, words [0x61000]), (0x60000, words [0x70000, 0]),
    (0x61000, words [0x71000, 0]), (0x70000, type "Base"), (0x71000, type "Job@@")].foldl
    (fun s region => s.addRegion (.ofNat region.1) region.2) ⟨.bits32, none, .empty⟩

/-- A session on these objects whose undecorator breaks down on every name. -/
def brittle : Session where
  target := threeObjects.target
  platform := .windows
  decoder := { binding := .bound .msvc, limits := { nameUnits := 8 } }
  undecorate := fun _ => .error "out of memory"

/-- The first scan is overtaken while it decodes, the second breaks down, the
third is asked for with a ticket that is overtaken, and the fourth cannot read. -/
def crowded : List Move :=
  [.begin, .request ⟨1⟩ "10000", .take 0, .advance 0, .begin, .request ⟨2⟩ "10004",
    .request ⟨1⟩ "10008"] ++ List.replicate 9 (.advance 0) ++
  [.take 1, .request ⟨2⟩ "90000", .report 0] ++ List.replicate 9 (.advance 1) ++
  [.take 2, .take 3, .report 1, .advance 3, .advance 3, .report 3]

theorem scansInTurn_crowded :
    ∃ schedule, Runs brittle crowded schedule ∧
      [0, 1, 2, 3].map schedule.reportOf? =
        [some (.ok .superseded), some (.error (.scanBrokeDown "out of memory")),
          some (.ok .superseded), some (.error (.readFault "0x00090000" 4 "range not captured"))] ∧
      schedule.log.map (·.1) = List.replicate 9 0 ++ List.replicate 8 1 ++ [3] ∧
      ScansInTurn brittle crowded schedule := by
  have hresult : (({ session := brittle } : Schedule).performAll crowded).map
      (fun schedule => ([0, 1, 2, 3].map schedule.reportOf?, schedule.log.map (·.1))) =
        some ([some (.ok .superseded), some (.error (.scanBrokeDown "out of memory")),
          some (.ok .superseded), some (.error (.readFault "0x00090000" 4 "range not captured"))],
          List.replicate 9 0 ++ List.replicate 8 1 ++ [3]) := by
    decide +kernel
  obtain ⟨schedule, hruns, hreached⟩ := Option.map_eq_some_iff.1 hresult
  obtain ⟨hreports, hlog⟩ := Prod.mk.inj hreached
  exact ⟨schedule, hruns, hreports, hlog, scansInTurn_of_runs hruns⟩

end Rtti.Schedule
