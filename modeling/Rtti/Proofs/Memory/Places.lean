import Rtti.Proofs.Memory.Content

/-!
# Where an inspection reads

`Inspection.Confined` says of an inspection on a target that its reads start at
allowed addresses and that the value which it ends with meets a condition.  It is
proved along the definition of an inspection, with `Confined.bind` for a sequence
and one rule for each kind of read before the rest.  After a read the rule also
tells what the target holds there, so a condition can say where a value comes
from.
-/

namespace Rtti

namespace Inspection

variable {α β : Type} {target : Target} {allowed : Address → Prop} {post : α → Prop}

/-- On the target the inspection reads at allowed addresses only, and a value
that it ends with meets the condition. -/
structure Confined (target : Target) (allowed : Address → Prop) (post : α → Prop)
    (x : Inspection α) : Prop where
  allowed_of_mem : ∀ access ∈ x.reads target, allowed access.address
  post_of_run : ∀ value, x.run target = .ok value → post value

theorem confined_done {value : α} (hpost : post value) :
    (done value).Confined target allowed post where
  allowed_of_mem := nofun
  post_of_run _ hrun := Except.ok.inj hrun ▸ hpost

theorem confined_fail (error : ScanError) :
    (fail error : Inspection α).Confined target allowed post where
  allowed_of_mem := nofun
  post_of_run := nofun

theorem confined_lift {result : Except ScanError α}
    (hpost : ∀ value, result = .ok value → post value) :
    (liftM result : Inspection α).Confined target allowed post := by
  cases result with
  | ok value => exact confined_done (hpost value rfl)
  | error error => exact confined_fail error

theorem Confined.mono {allowed' : Address → Prop} {x : Inspection α}
    (hx : x.Confined target allowed post)
    (hallowed : ∀ address, allowed address → allowed' address) :
    x.Confined target allowed' post where
  allowed_of_mem access hmem := hallowed _ (hx.allowed_of_mem access hmem)
  post_of_run := hx.post_of_run

/-! ## Sequences -/

theorem Confined.bind {postf : β → Prop} {x : Inspection α} {f : α → Inspection β}
    (hx : x.Confined target allowed post)
    (hf : ∀ value, x.run target = .ok value → post value →
      (f value).Confined target allowed postf) :
    (x >>= f).Confined target allowed postf where
  allowed_of_mem access hmem := by
    rw [bind_eq, reads_bind, List.mem_append] at hmem
    rcases hmem with hfirst | hrest
    · exact hx.allowed_of_mem access hfirst
    · split at hrest
      · next value hrun =>
        exact (hf value hrun (hx.post_of_run value hrun)).allowed_of_mem access hrest
      · simp at hrest
  post_of_run value hrun := by
    obtain ⟨first, hfirst, hrest⟩ := exists_of_run_bind_eq_ok hrun
    exact (hf first hfirst (hx.post_of_run first hfirst)).post_of_run value hrest

/-- Inspections of the elements of a list one after another. -/
theorem confined_mapM {f : α → Inspection β} {list : List α}
    (hf : ∀ x ∈ list, (f x).Confined target allowed fun _ => True) :
    (list.mapM f).Confined target allowed fun _ => True := by
  induction list with
  | nil => exact confined_done trivial
  | cons head list ih =>
    obtain ⟨hhead, hlist⟩ := List.forall_mem_cons.1 hf
    rw [List.mapM_cons]
    exact hhead.bind fun _ _ _ => (ih hlist).bind fun _ _ _ => confined_done trivial

/-! ## A step before the rest -/

section Steps

variable {width : PointerWidth} {address : Address} {offset size : Nat}

theorem confined_lift_bind {result : Except ScanError α} {f : α → Inspection β}
    {postf : β → Prop}
    (hf : ∀ value, result = .ok value → (f value).Confined target allowed postf) :
    (liftM result >>= f).Confined target allowed postf := by
  cases result with
  | ok value => exact hf value rfl
  | error error => exact confined_fail error

theorem confined_add_bind {f : Address → Inspection α}
    (hf : ∀ sum : Address, sum.val = address.val + offset →
      (f sum).Confined target allowed post) :
    (liftM (address.add offset) >>= f).Confined target allowed post :=
  confined_lift_bind fun sum hsum => hf sum (Address.add_eq_ok_iff.1 hsum)

theorem confined_sub_bind {f : Address → Inspection α}
    (hf : ∀ difference : Address, address.val = difference.val + offset →
      (f difference).Confined target allowed post) :
    (liftM (address.sub offset) >>= f).Confined target allowed post :=
  confined_lift_bind fun difference hdifference =>
    hf difference (Address.sub_eq_ok_iff.1 hdifference)

theorem confined_read {next : List UInt8 → Inspection α} (hallowed : allowed address)
    (hnext : ∀ bytes, target.read address size = .ok bytes →
      (next bytes).Confined target allowed post) :
    (read address size next).Confined target allowed post := by
  cases hread : target.read address size with
  | error error =>
    constructor
    · intro access hmem
      simp only [reads, hread, List.mem_singleton] at hmem
      exact hmem ▸ hallowed
    · intro value hrun
      simp [run, hread] at hrun
  | ok bytes =>
    have hrest := hnext bytes hread
    constructor
    · intro access hmem
      simp only [reads, hread, List.mem_cons] at hmem
      rcases hmem with rfl | hmem
      · exact hallowed
      · exact hrest.allowed_of_mem access hmem
    · intro value hrun
      simp only [run, hread] at hrun
      exact hrest.post_of_run value hrun

theorem confined_tryRead {next : Option (List UInt8) → Inspection α} (hallowed : allowed address)
    (hnext : ∀ answer, (next answer).Confined target allowed post) :
    (tryRead address size next).Confined target allowed post where
  allowed_of_mem access hmem := by
    rw [reads, List.mem_cons] at hmem
    rcases hmem with rfl | hmem
    · exact hallowed
    · exact (hnext _).allowed_of_mem access hmem
  post_of_run value hrun := (hnext _).post_of_run value hrun

theorem confined_word32_bind {f : Nat → Inspection α} (hallowed : allowed address)
    (hf : ∀ value, target.HoldsWord address.val 4 value →
      (f value).Confined target allowed post) :
    (word32 address >>= f).Confined target allowed post :=
  confined_read hallowed fun _ hread => hf _ (Target.holdsWord_of_read hread)

theorem confined_word?_bind {f : Option Nat → Inspection α} (hallowed : allowed address)
    (hf : ∀ value, (f value).Confined target allowed post) :
    (word? address size >>= f).Confined target allowed post :=
  confined_tryRead hallowed fun _ => hf _

theorem confined_pointer_bind {f : Address → Inspection α} (hallowed : allowed address)
    (hf : ∀ pointed : Address, target.HoldsWord address.val width.bytes pointed.val →
      (f pointed).Confined target allowed post) :
    (pointer width address >>= f).Confined target allowed post := by
  refine confined_read hallowed fun bytes hread => hf (.ofNat (Word.ofBytes bytes)) ?_
  have hholds := Target.holdsWord_of_read hread
  have hcount : Word.count width.bytes ≤ 0x10000000000000000 := by cases width <;> decide
  rwa [Address.val_ofNat (Nat.lt_of_lt_of_le hholds.1 hcount)]

theorem confined_long_bind {f : Int → Inspection α} (hallowed : allowed address)
    (hf : ∀ value, (f value).Confined target allowed post) :
    (long width address >>= f).Confined target allowed post :=
  confined_read hallowed fun _ _ => hf _

theorem confined_text_bind {units : Nat} {encoding : TextEncoding} {f : String → Inspection α}
    (hallowed : units * encoding.unitSize < 0x10000000000000000 → allowed address)
    (hf : ∀ text, (f text).Confined target allowed post) :
    (text address units encoding >>= f).Confined target allowed post := by
  rcases Nat.lt_or_ge (units * encoding.unitSize) 0x10000000000000000 with hsize | hlarge
  · rw [text_eq hsize]
    exact confined_read (hallowed hsize) fun _ _ => hf _
  · rw [text_eq_fail hlarge]
    exact confined_fail _

end Steps

/-! ## Reads that are made -/

/-- On the target the inspection makes a read that starts at the address. -/
def ReadsAt (target : Target) (address : Address) (x : Inspection α) : Prop :=
  ∃ access ∈ x.reads target, access.address = address

variable {address : Address}

theorem ReadsAt.bind {x : Inspection α} (hx : x.ReadsAt target address) (f : α → Inspection β) :
    (x >>= f).ReadsAt target address := by
  obtain ⟨access, hmem, haddress⟩ := hx
  refine ⟨access, ?_, haddress⟩
  rw [bind_eq, reads_bind]
  exact List.mem_append_left _ hmem

theorem readsAt_bind_of_ok {x : Inspection α} {f : α → Inspection β} {value : α}
    (hx : x.run target = .ok value) (hf : (f value).ReadsAt target address) :
    (x >>= f).ReadsAt target address := by
  obtain ⟨access, hmem, haddress⟩ := hf
  refine ⟨access, ?_, haddress⟩
  rw [bind_eq, reads_bind, hx]
  exact List.mem_append_right _ hmem

theorem readsAt_read (size : Nat) (next : List UInt8 → Inspection α) :
    (read address size next).ReadsAt target address :=
  ⟨⟨address, size, false⟩, by rw [reads]; exact List.mem_cons_self, rfl⟩

end Inspection

end Rtti
