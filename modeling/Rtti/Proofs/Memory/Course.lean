import Rtti.Proofs.Memory.Run

/-!
# Courses of an inspection

A course of an inspection is a run with everything that passes between the
inspection and the memory: the reads, what the memory answered to each
(`Exchange`), and the end.  The answers are arbitrary, also to equal reads, so
courses cover a process whose memory changes while it is inspected.

`course_run` says that the run on a target is a course, and
`Course.ends_of_failure` that a failing read ends its course unless it is
optional.
-/

namespace Rtti

/-! ## Exchanges -/

/-- A read and what the memory answered. -/
structure Exchange where
  access : Access
  answer : Answer
  deriving DecidableEq

namespace Exchange

/-- What the read gives: the answer, if it does not have the wrong length. -/
def outcome (width : PointerWidth) (exchange : Exchange) : Answer :=
  (⟨width, none, fun _ _ => exchange.answer⟩ : Target).read exchange.access.address
    exchange.access.size

/-- The read fails, with the memory's own error or because the answer has the
wrong length. -/
def FailsWith (width : PointerWidth) (exchange : Exchange) (error : ScanError) : Prop :=
  exchange.answer = .error error ∨
    ∃ bytes, exchange.answer = .ok bytes ∧ bytes.length ≠ exchange.access.size ∧
      error = .readFault (exchange.access.address.display width) exchange.access.size
        s!"backend returned {bytes.length} bytes"

/-- The same read with another answer. -/
def withAnswer (exchange : Exchange) (answer : Answer) : Exchange :=
  { exchange with answer := answer }

/-- The exchange of a read with a target. -/
def ofTarget (target : Target) (access : Access) : Exchange :=
  ⟨access, target.memory access.address access.size⟩

variable {width : PointerWidth} {exchange : Exchange} {error : ScanError}

theorem outcome_ofTarget (target : Target) (access : Access) :
    (ofTarget target access).outcome target.width = target.read access.address access.size :=
  rfl

theorem outcome_eq_error_iff :
    exchange.outcome width = .error error ↔ exchange.FailsWith width error := by
  unfold outcome FailsWith Target.read
  cases hanswer : exchange.answer with
  | error cause => simp
  | ok bytes =>
    by_cases hlength : bytes.length = exchange.access.size
    · simp [hlength]
    · simp only [if_neg hlength, Except.error.injEq, reduceCtorEq, false_or, Except.ok.injEq]
      constructor
      · rintro rfl
        exact ⟨bytes, rfl, hlength, rfl⟩
      · rintro ⟨_, rfl, -, rfl⟩
        rfl

theorem outcome_withAnswer (exchange : Exchange) {bytes : List UInt8}
    (hlength : bytes.length = exchange.access.size) :
    (exchange.withAnswer (.ok bytes)).outcome width = .ok bytes := by
  unfold outcome withAnswer Target.read
  simp [hlength]

end Exchange

/-! ## Courses -/

namespace Inspection

variable {α : Type} {width : PointerWidth}

/-- An inspection of a target with pointers of this width may go through these
exchanges and end so. -/
inductive Course (width : PointerWidth) :
    Inspection α → List Exchange → Except ScanError α → Prop where
  | done (value : α) : Course width (.done value) [] (.ok value)
  | fail (error : ScanError) : Course width (.fail error) [] (.error error)
  /-- A required read succeeds. -/
  | read {address : Address} {size : Nat} {next : List UInt8 → Inspection α} {answer : Answer}
      {bytes : List UInt8} {exchanges : List Exchange} {result : Except ScanError α}
      (houtcome : Exchange.outcome width ⟨⟨address, size, false⟩, answer⟩ = .ok bytes)
      (hrest : Course width (next bytes) exchanges result) :
      Course width (.read address size next) (⟨⟨address, size, false⟩, answer⟩ :: exchanges) result
  /-- A required read fails. -/
  | readFails {address : Address} {size : Nat} {next : List UInt8 → Inspection α}
      {answer : Answer} {error : ScanError}
      (houtcome : Exchange.outcome width ⟨⟨address, size, false⟩, answer⟩ = .error error) :
      Course width (.read address size next) [⟨⟨address, size, false⟩, answer⟩] (.error error)
  /-- An optional read succeeds or fails. -/
  | tryRead {address : Address} {size : Nat} {next : Option (List UInt8) → Inspection α}
      {answer : Answer} {exchanges : List Exchange} {result : Except ScanError α}
      (hrest : Course width
        (next (Exchange.outcome width ⟨⟨address, size, true⟩, answer⟩).toOption) exchanges result) :
      Course width (.tryRead address size next) (⟨⟨address, size, true⟩, answer⟩ :: exchanges)
        result

/-- The exchanges of the inspection with a target. -/
def exchanges (target : Target) (x : Inspection α) : List Exchange :=
  (x.reads target).map (Exchange.ofTarget target)

/-- The run on a target is a course. -/
theorem course_run (target : Target) (x : Inspection α) :
    x.Course target.width (x.exchanges target) (x.run target) := by
  induction x with
  | done value => exact .done value
  | fail error => exact .fail error
  | read address size next ih =>
    have houtcome := Exchange.outcome_ofTarget target ⟨address, size, false⟩
    unfold exchanges reads run
    cases hread : target.read address size with
    | ok bytes => exact .read (houtcome.trans hread) (ih bytes)
    | error error => exact .readFails (houtcome.trans hread)
  | tryRead address size next ih =>
    exact .tryRead (ih (target.read address size).toOption)

variable {x : Inspection α} {exchanges before after : List Exchange} {exchange : Exchange}
  {result : Except ScanError α} {error : ScanError}

/-- A required read that fails is the last, and its error is the result. -/
theorem Course.ends_of_failure (hcourse : x.Course width exchanges result)
    (hsplit : exchanges = before ++ exchange :: after)
    (hrequired : exchange.access.isOptional = false)
    (hfails : exchange.outcome width = .error error) : after = [] ∧ result = .error error := by
  induction hcourse generalizing before with
  | done | fail => simp at hsplit
  | read houtcome _ ih =>
    cases before with
    | nil =>
      obtain ⟨rfl, rfl⟩ := List.cons.inj hsplit
      rw [hfails] at houtcome
      contradiction
    | cons first before => exact ih (List.cons.inj hsplit).2
  | readFails houtcome =>
    cases before with
    | nil =>
      obtain ⟨rfl, rfl⟩ := List.cons.inj hsplit
      rw [hfails] at houtcome
      exact ⟨rfl, congrArg Except.error (Except.error.inj houtcome).symm⟩
    | cons first before => simp at hsplit
  | tryRead _ ih =>
    cases before with
    | nil =>
      obtain ⟨rfl, rfl⟩ := List.cons.inj hsplit
      simp at hrequired
    | cons first before => exact ih (List.cons.inj hsplit).2

end Inspection

end Rtti
