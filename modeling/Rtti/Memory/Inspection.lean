import Rtti.Target

/-!
# Inspections

An inspection is a computation that may read the memory of a target, one
range at a time, and ends with a value or an error.  It is kept as a tree of
its possible reads, so the same inspection can be run on any target
(`Inspection.run`), the reads that it makes there can be listed
(`Inspection.reads`), and it can be run one read at a time
(`Inspection.advance?`).

A required read that fails ends the inspection with the error of the read.
An optional one may fail, and the inspection goes on without its bytes.

`run_bind` and `reads_bind` say what sequencing does, and
`run_of_advance?` and `reads_of_advance?` that single reads add up to the
whole run.
-/

namespace Rtti

/-- A read that an inspection makes. -/
structure Access where
  address : Address
  /-- The number of bytes asked for. -/
  size : Nat
  /-- Whether the inspection goes on when the read fails. -/
  isOptional : Bool
  deriving Repr, DecidableEq

/-- A computation that may read memory. -/
inductive Inspection (α : Type) where
  /-- It ends with a value. -/
  | done (value : α)
  /-- It ends with an error. -/
  | fail (error : ScanError)
  /-- It must have `size` bytes from `address` and goes on with them. -/
  | read (address : Address) (size : Nat) (next : List UInt8 → Inspection α)
  /-- It asks for `size` bytes from `address` and goes on with or without
  them. -/
  | tryRead (address : Address) (size : Nat) (next : Option (List UInt8) → Inspection α)

namespace Inspection

variable {α β γ : Type}

/-! ## Sequencing -/

/-- The first inspection, followed by the one that its value gives. -/
def bind : Inspection α → (α → Inspection β) → Inspection β
  | done value, f => f value
  | fail error, _ => fail error
  | read address size next, f => read address size fun bytes => (next bytes).bind f
  | tryRead address size next, f => tryRead address size fun bytes => (next bytes).bind f

instance : Monad Inspection where
  pure := done
  bind := bind

@[simp] theorem pure_eq (value : α) : (pure value : Inspection α) = done value := rfl

@[simp] theorem bind_eq (x : Inspection α) (f : α → Inspection β) : x >>= f = x.bind f := rfl

@[simp] theorem done_bind (value : α) (f : α → Inspection β) : (done value).bind f = f value := rfl

@[simp] theorem fail_bind (error : ScanError) (f : α → Inspection β) :
    (fail error : Inspection α).bind f = fail error := rfl

@[simp] theorem read_bind (address : Address) (size : Nat) (next : List UInt8 → Inspection α)
    (f : α → Inspection β) :
    (read address size next).bind f = read address size fun bytes => (next bytes).bind f := rfl

@[simp] theorem tryRead_bind (address : Address) (size : Nat)
    (next : Option (List UInt8) → Inspection α) (f : α → Inspection β) :
    (tryRead address size next).bind f = tryRead address size fun bytes => (next bytes).bind f :=
  rfl

@[simp] theorem bind_done (x : Inspection α) : x.bind done = x := by
  induction x with
  | done => rfl
  | fail => rfl
  | read a n k ih => exact congrArg _ (funext ih)
  | tryRead a n k ih => exact congrArg _ (funext ih)

theorem bind_assoc (x : Inspection α) (f : α → Inspection β) (g : β → Inspection γ) :
    (x.bind f).bind g = x.bind fun value => (f value).bind g := by
  induction x with
  | done => rfl
  | fail => rfl
  | read a n k ih => exact congrArg _ (funext ih)
  | tryRead a n k ih => exact congrArg _ (funext ih)

instance : LawfulMonad Inspection := LawfulMonad.mk'
  _ bind_done (fun _ _ => rfl) bind_assoc

/-- The inspection that reads nothing and ends as `result` says. -/
def ofExcept : Except ScanError α → Inspection α
  | .ok value => done value
  | .error error => fail error

instance : MonadLift (Except ScanError) Inspection := ⟨ofExcept⟩

/-! ## Running on a target -/

/-- The end of the inspection on a target. -/
def run (target : Target) : Inspection α → Except ScanError α
  | done value => .ok value
  | fail error => .error error
  | read address size next =>
    match target.read address size with
    | .ok bytes => (next bytes).run target
    | .error error => .error error
  | tryRead address size next => (next (target.read address size).toOption).run target

/-- The reads that the inspection makes on a target, in order. -/
def reads (target : Target) : Inspection α → List Access
  | done _ => []
  | fail _ => []
  | read address size next =>
    ⟨address, size, false⟩ ::
      match target.read address size with
      | .ok bytes => (next bytes).reads target
      | .error _ => []
  | tryRead address size next =>
    ⟨address, size, true⟩ :: (next (target.read address size).toOption).reads target

theorem run_bind (target : Target) (x : Inspection α) (f : α → Inspection β) :
    (x.bind f).run target = (x.run target).bind fun value => (f value).run target := by
  induction x with
  | done => rfl
  | fail => rfl
  | read a n k ih =>
    simp only [read_bind, run]
    cases target.read a n with
    | ok bytes => exact ih bytes
    | error => rfl
  | tryRead a n k ih => exact ih _

theorem reads_bind (target : Target) (x : Inspection α) (f : α → Inspection β) :
    (x.bind f).reads target = x.reads target ++
      match x.run target with
      | .ok value => (f value).reads target
      | .error _ => [] := by
  induction x with
  | done => rfl
  | fail => rfl
  | read a n k ih =>
    simp only [read_bind, run, reads]
    cases target.read a n with
    | ok bytes => exact congrArg _ (ih bytes)
    | error => rfl
  | tryRead a n k ih => exact congrArg _ (ih _)

@[simp] theorem run_ofExcept (target : Target) (result : Except ScanError α) :
    (ofExcept result).run target = result := by
  cases result <;> rfl

@[simp] theorem reads_ofExcept (target : Target) (result : Except ScanError α) :
    (ofExcept result).reads target = [] := by
  cases result <;> rfl

/-! ## One read at a time -/

/-- The next read of the inspection and what is left to do after it; nothing
if the inspection has ended. -/
def advance? (target : Target) : Inspection α → Option (Access × Inspection α)
  | done _ => none
  | fail _ => none
  | read address size next =>
    some (⟨address, size, false⟩, (ofExcept (target.read address size)).bind next)
  | tryRead address size next =>
    some (⟨address, size, true⟩, next (target.read address size).toOption)

/-- What is left to do after a read ends as the whole inspection does. -/
theorem run_of_advance? {target : Target} {x rest : Inspection α} {access : Access}
    (h : x.advance? target = some (access, rest)) : x.run target = rest.run target := by
  cases x with
  | done => simp [advance?] at h
  | fail => simp [advance?] at h
  | read a n k =>
    simp only [advance?, Option.some.injEq, Prod.mk.injEq] at h
    rw [← h.2, run_bind, run_ofExcept, run]
    cases target.read a n <;> rfl
  | tryRead a n k =>
    simp only [advance?, Option.some.injEq, Prod.mk.injEq] at h
    rw [← h.2, run]

/-- The reads are the next one and those of what is left to do after it. -/
theorem reads_of_advance? {target : Target} {x rest : Inspection α} {access : Access}
    (h : x.advance? target = some (access, rest)) :
    x.reads target = access :: rest.reads target := by
  cases x with
  | done => simp [advance?] at h
  | fail => simp [advance?] at h
  | read a n k =>
    simp only [advance?, Option.some.injEq, Prod.mk.injEq] at h
    rw [← h.1, ← h.2, reads_bind, run_ofExcept, reads_ofExcept, reads]
    cases target.read a n <;> rfl
  | tryRead a n k =>
    simp only [advance?, Option.some.injEq, Prod.mk.injEq] at h
    rw [← h.1, ← h.2, reads]

/-- An inspection that has ended reads nothing more. -/
theorem reads_of_advance?_eq_none {target : Target} {x : Inspection α}
    (h : x.advance? target = none) : x.reads target = [] := by
  cases x with
  | done => rfl
  | fail => rfl
  | read => simp [advance?] at h
  | tryRead => simp [advance?] at h

end Inspection

end Rtti
