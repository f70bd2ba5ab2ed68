import Mathlib.Data.List.Forall2
import Rtti.Proofs.Address.Integers
import Rtti.Proofs.Memory.Content

/-!
# Relocated targets

A target is moved when its memory is found a distance above or below where it
was (`Target.MovedBy`): a read of the moved target at a moved address gives what
the read of the target gives at the address.  What lies where no address can be
moved is out of reach, and what else the moved target answers does not matter.
`Target.move` moves any target.

`Inspection.Follows` compares an inspection of the target with one of the moved
target.  If the first ends with a value and all that it reads can be moved, the
second makes the same reads, moved, and ends with a related value.  A sum that is
computed on the way need not be read itself.  It can be moved all the same, as it
lies between a moved address and a later read (`Inspection.ReadsFrom`).
-/

namespace Rtti

/-! ## Moved targets -/

/-- The second target is the first one, moved by `d`: at a moved address it
answers with the same bytes or does not answer, as the first does. -/
structure Target.MovedBy (source : Target) (d : Int) (moved : Target) : Prop where
  width_eq : source.width = moved.width
  memory_eq {a a' : Address} (hmoved : a.MovedBy d a') (size : Nat) :
    (moved.memory a' size).toOption = (source.memory a size).toOption

/-- The second access is the first one at a moved address. -/
structure Access.MovedBy (d : Int) (access access' : Access) : Prop where
  address : access.address.MovedBy d access'.address
  size_eq : access.size = access'.size
  isOptional_eq : access.isOptional = access'.isOptional

namespace Target

variable {source moved target : Target} {d : Int} {a a' : Address} {size : Nat}
  {bytes : List UInt8}

/-- The target with its memory `d` bytes above. -/
def move (target : Target) (d : Int) : Target :=
  { target with
    memory := fun address size =>
      match Address.ofInt? (address.val - d) with
      | some original => target.memory original size
      | none => .error (.readFault (address.display target.width) size "out of reach") }

theorem movedBy_move (target : Target) (d : Int) : target.MovedBy d (target.move d) where
  width_eq := rfl
  memory_eq {a a'} hmoved size := by
    have hback : Address.ofInt? (a'.val - d) = some a := by
      rw [Address.ofInt?_eq_some_iff]
      unfold Address.MovedBy at hmoved
      omega
    simp only [move, hback]

theorem toOption_read (target : Target) (address : Address) (size : Nat) :
    (target.read address size).toOption =
      (target.memory address size).toOption.filter (·.length = size) := by
  unfold read
  cases target.memory address size with
  | error error => rfl
  | ok bytes =>
    by_cases hlength : bytes.length = size
    · simp [Except.toOption, Option.filter, hlength]
    · simp [Except.toOption, Option.filter, hlength]

theorem MovedBy.toOption_read_eq (hmoved : source.MovedBy d moved) (ha : a.MovedBy d a') :
    (moved.read a' size).toOption = (source.read a size).toOption := by
  rw [toOption_read, toOption_read, hmoved.memory_eq ha]

theorem MovedBy.read_eq_ok (hmoved : source.MovedBy d moved) (ha : a.MovedBy d a')
    (hread : source.read a size = .ok bytes) : moved.read a' size = .ok bytes := by
  have hsame : (moved.read a' size).toOption = (source.read a size).toOption :=
    hmoved.toOption_read_eq ha
  rw [hread] at hsame
  cases hread' : moved.read a' size with
  | error error => simp [hread', Except.toOption] at hsame
  | ok bytes' => simpa [hread', Except.toOption] using hsame

end Target

namespace Inspection

variable {α β : Type} {source moved : Target} {d : Int} {a a' address : Address}
  {offset size : Nat}

/-! ## Reads from an address on -/

/-- If the inspection ends with a value on the target, it reads at the address or
above. -/
def ReadsFrom (target : Target) (address : Address) (x : Inspection α) : Prop :=
  ∀ value, x.run target = .ok value → ∃ access ∈ x.reads target, address ≤ access.address

theorem readsFrom_read {next : List UInt8 → Inspection α} :
    (read address size next).ReadsFrom source address :=
  fun _ _ => ⟨⟨address, size, false⟩, by rw [reads]; exact List.mem_cons_self,
    Nat.le_refl address.val⟩

theorem readsFrom_tryRead {next : Option (List UInt8) → Inspection α} :
    (tryRead address size next).ReadsFrom source address :=
  fun _ _ => ⟨⟨address, size, true⟩, List.mem_cons_self, Nat.le_refl address.val⟩

/-- A text without a window has no value. -/
theorem readsFrom_text_bind {units : Nat} {encoding : TextEncoding} {f : String → Inspection α} :
    (text address units encoding >>= f).ReadsFrom source address := by
  rcases Nat.lt_or_ge (units * encoding.unitSize) 0x10000000000000000 with hsize | hlarge
  · rw [text_eq hsize]
    exact readsFrom_read
  · rw [text_eq_fail hlarge]
    exact fun _ hrun => nomatch hrun

/-- A read at a sum is a read above. -/
theorem readsFrom_add_bind {f : Address → Inspection α}
    (hf : ∀ sum, (f sum).ReadsFrom source sum) :
    (liftM (address.add offset) >>= f).ReadsFrom source address := by
  intro value hrun
  obtain ⟨sum, hsum, hrest⟩ := exists_of_run_add_bind_eq_ok hrun
  obtain ⟨access, hmem, hle⟩ := hf sum value hrest
  rw [reads_add_bind hsum]
  refine ⟨access, hmem, ?_⟩
  rw [Address.le_def] at *
  omega

/-! ## Inspections of a moved target -/

/-- If the first inspection ends with a value on the source, and all addresses
that it reads can be moved, the second ends on the moved target with a related
value, and reads the same, moved. -/
def Follows (source moved : Target) (d : Int) (rel : α → α → Prop) (x y : Inspection α) : Prop :=
  ∀ value, x.run source = .ok value →
    (∀ access ∈ x.reads source, access.address.Movable d) →
    ∃ value', y.run moved = .ok value' ∧ rel value value' ∧
      List.Forall₂ (Access.MovedBy d) (x.reads source) (y.reads moved)

variable {rel : α → α → Prop} {relf : β → β → Prop} {x y : Inspection α} {f g : α → Inspection β}

theorem follows_done {value value' : α} (hrel : rel value value') :
    (done value).Follows source moved d rel (done value') := by
  rintro _ ⟨⟩ -
  exact ⟨value', rfl, hrel, .nil⟩

theorem follows_fail {error : ScanError} : (fail error).Follows source moved d rel y :=
  fun _ hrun => nomatch hrun

theorem Follows.bind (hx : x.Follows source moved d rel y)
    (hf : ∀ value value', rel value value' → (f value).Follows source moved d relf (g value')) :
    (x >>= f).Follows source moved d relf (y >>= g) := by
  intro result hrun hreads
  obtain ⟨value, hvalue, hrest⟩ := exists_of_run_bind_eq_ok hrun
  rw [reads_bind_of_ok hvalue, List.forall_mem_append] at hreads
  obtain ⟨value', hvalue', hrel, hmoved⟩ := hx value hvalue hreads.1
  obtain ⟨result', hresult, hrelf, hmovedRest⟩ := hf value value' hrel result hrest hreads.2
  refine ⟨result', by rw [run_bind_of_ok hvalue', hresult], hrelf, ?_⟩
  rw [reads_bind_of_ok hvalue, reads_bind_of_ok hvalue']
  exact List.rel_append hmoved hmovedRest

theorem follows_lift {result : Except ScanError α} :
    (liftM result : Inspection α).Follows source moved d Eq (liftM result) := by
  cases result with
  | ok value => exact follows_done rfl
  | error error => exact follows_fail

theorem follows_lift_bind {result : Except ScanError α}
    (hf : ∀ value, (f value).Follows source moved d relf (g value)) :
    (liftM result >>= f).Follows source moved d relf (liftM result >>= g) := by
  cases result with
  | ok value => exact hf value
  | error error => exact follows_fail

/-! ### Sums and differences -/

/-- A sum above which there is a read can be moved. -/
theorem follows_add_bind {f g : Address → Inspection α} (ha : a.MovedBy d a')
    (hreads : ∀ sum, (f sum).ReadsFrom source sum)
    (hf : ∀ sum sum', sum.val = a.val + offset → sum.MovedBy d sum' →
      (f sum).Follows source moved d rel (g sum')) :
    (liftM (a.add offset) >>= f).Follows source moved d rel (liftM (a'.add offset) >>= g) := by
  intro value hrun hmovable
  obtain ⟨sum, hsum, hrest⟩ := exists_of_run_add_bind_eq_ok hrun
  rw [reads_add_bind hsum] at hmovable ⊢
  obtain ⟨access, hmem, hle⟩ := hreads sum value hrest
  have hbetween : sum.Movable d :=
    .of_between ha.movable (hmovable access hmem) (by rw [Address.le_def]; omega) hle
  obtain ⟨sum', hsum'⟩ := hbetween
  obtain ⟨value', hvalue', hrel, hforall⟩ := hf sum sum' hsum hsum' value hrest hmovable
  have hadd := Address.add_eq_ok_iff.1 (ha.add_eq_ok hsum hsum')
  exact ⟨value', by rw [run_add_bind hadd, hvalue'], hrel, by rwa [reads_add_bind hadd]⟩

/-- A difference must be known to be one that can be moved. -/
theorem follows_sub_bind {f g : Address → Inspection α} (ha : a.MovedBy d a')
    (hmovable : ∀ difference : Address, a.val = difference.val + offset → difference.Movable d)
    (hf : ∀ difference difference', difference.MovedBy d difference' →
      (f difference).Follows source moved d rel (g difference')) :
    (liftM (a.sub offset) >>= f).Follows source moved d rel (liftM (a'.sub offset) >>= g) := by
  intro value hrun
  cases hsub : a.sub offset with
  | error error =>
    rw [hsub] at hrun
    contradiction
  | ok difference =>
    have hdifference := Address.sub_eq_ok_iff.1 hsub
    obtain ⟨difference', hmoved⟩ := hmovable difference hdifference
    rw [hsub] at hrun
    rw [ha.sub_eq_ok hdifference hmoved]
    exact hf difference difference' hmoved value hrun

/-! ### Reads -/

section Reads

variable (hmoved : source.MovedBy d moved) (ha : a.MovedBy d a')

include hmoved ha

theorem follows_read {next next' : List UInt8 → Inspection α}
    (hnext : ∀ bytes, source.read a size = .ok bytes →
      (next bytes).Follows source moved d rel (next' bytes)) :
    (read a size next).Follows source moved d rel (read a' size next') := by
  intro value hrun hreads
  cases hread : source.read a size with
  | error error =>
    simp only [run, hread] at hrun
    contradiction
  | ok bytes =>
    have hread' := hmoved.read_eq_ok ha hread
    simp only [run, hread] at hrun
    simp only [reads, hread, List.forall_mem_cons] at hreads
    obtain ⟨value', hvalue', hrel, hforall⟩ := hnext bytes hread value hrun hreads.2
    refine ⟨value', by simpa only [run, hread'] using hvalue', hrel, ?_⟩
    simp only [reads, hread, hread']
    exact .cons ⟨ha, rfl, rfl⟩ hforall

theorem follows_tryRead {next next' : Option (List UInt8) → Inspection α}
    (hnext : ∀ answer, (next answer).Follows source moved d rel (next' answer)) :
    (tryRead a size next).Follows source moved d rel (tryRead a' size next') := by
  intro value hrun hreads
  rw [reads, List.forall_mem_cons] at hreads
  obtain ⟨value', hvalue', hrel, hforall⟩ := hnext _ value hrun hreads.2
  refine ⟨value', ?_, hrel, ?_⟩
  · rw [run, hmoved.toOption_read_eq ha, hvalue']
  · rw [reads, reads, hmoved.toOption_read_eq ha]
    exact .cons ⟨ha, rfl, rfl⟩ hforall

theorem follows_word32_bind {f g : Nat → Inspection β}
    (hf : ∀ value, source.HoldsWord a.val 4 value →
      (f value).Follows source moved d relf (g value)) :
    (word32 a >>= f).Follows source moved d relf (word32 a' >>= g) :=
  follows_read hmoved ha fun _ hread => hf _ (Target.holdsWord_of_read hread)

/-- A word at a sum. -/
theorem follows_word32_add_bind {f g : Nat → Inspection β}
    (hf : ∀ value, source.HoldsWord (a.val + offset) 4 value →
      (f value).Follows source moved d relf (g value)) :
    (liftM (a.add offset) >>= fun sum => word32 sum >>= f).Follows source moved d relf
      (liftM (a'.add offset) >>= fun sum => word32 sum >>= g) := by
  refine follows_add_bind ha (fun _ => readsFrom_read) fun sum sum' hsum hsum' => ?_
  exact follows_word32_bind hmoved hsum' fun value hvalue => hf value (hsum ▸ hvalue)

theorem follows_word?_add_bind {f g : Option Nat → Inspection β}
    (hf : ∀ value, (f value).Follows source moved d relf (g value)) :
    (liftM (a.add offset) >>= fun sum => word? sum size >>= f).Follows source moved d relf
      (liftM (a'.add offset) >>= fun sum => word? sum size >>= g) := by
  refine follows_add_bind ha (fun _ => readsFrom_tryRead) fun sum sum' _ hsum' => ?_
  exact follows_tryRead hmoved hsum' fun _ => hf _

theorem follows_text_add_bind {units : Nat} {encoding : TextEncoding}
    {f g : String → Inspection β}
    (hf : ∀ value, (f value).Follows source moved d relf (g value)) :
    (liftM (a.add offset) >>= fun sum => text sum units encoding >>= f).Follows source moved d
      relf (liftM (a'.add offset) >>= fun sum => text sum units encoding >>= g) := by
  refine follows_add_bind ha (fun _ => readsFrom_text_bind) fun sum sum' _ hsum' => ?_
  rcases Nat.lt_or_ge (units * encoding.unitSize) 0x10000000000000000 with hsize | hlarge
  · rw [text_eq hsize, text_eq hsize]
    exact follows_read hmoved hsum' fun _ _ => hf _
  · rw [text_eq_fail hlarge]
    exact follows_fail

end Reads

end Inspection

end Rtti
