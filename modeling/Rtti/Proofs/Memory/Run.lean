import Rtti.Memory.Inspection

/-!
# Running an inspection step by step

The runs of the steps of an inspection, one after another: a step that ends
with a value hands it to the rest (`run_bind_of_ok`), and a step that fails
ends the whole (`run_bind_of_error`).  `exists_of_run_bind_eq_ok` takes a
sequence apart that ended with a value.  The reads of a sequence are those of
its steps (`reads_bind_of_ok`, `reads_bind_of_error`).
-/

namespace Rtti

/-- Ends of inspections can be compared. -/
instance {α : Type} [DecidableEq α] : DecidableEq (Except ScanError α)
  | .ok a, .ok b => decidable_of_iff (a = b) (by simp)
  | .error e, .error f => decidable_of_iff (e = f) (by simp)
  | .ok _, .error _ => .isFalse nofun
  | .error _, .ok _ => .isFalse nofun

/-- A sequence that ends with a value has a first part that does. -/
theorem exists_of_bind_eq_ok {ε α β : Type} {x : Except ε α} {f : α → Except ε β} {value : β}
    (hbind : x >>= f = .ok value) : ∃ first, x = .ok first ∧ f first = .ok value := by
  cases x with
  | error error => contradiction
  | ok first => exact ⟨first, rfl, hbind⟩

/-- A read succeeds with what the memory answers, if that has the requested
length. -/
theorem Target.read_eq_ok_iff {target : Target} {address : Address} {size : Nat}
    {bytes : List UInt8} : target.read address size = .ok bytes ↔
      target.memory address size = .ok bytes ∧ bytes.length = size := by
  unfold read
  cases hanswer : target.memory address size with
  | error error => simp
  | ok answer =>
    by_cases hlength : answer.length = size
    · simp only [if_pos hlength, Except.ok.injEq]
      constructor
      · rintro rfl
        exact ⟨rfl, hlength⟩
      · exact And.left
    · simp only [if_neg hlength, reduceCtorEq, Except.ok.injEq, false_iff, not_and]
      rintro rfl
      exact hlength

namespace Inspection

variable {α β : Type} {target : Target}

theorem run_bind_of_ok {x : Inspection α} {f : α → Inspection β} {value : α}
    (hx : x.run target = .ok value) : (x >>= f).run target = (f value).run target := by
  rw [bind_eq, run_bind, hx]
  rfl

theorem run_bind_of_error {x : Inspection α} {f : α → Inspection β} {error : ScanError}
    (hx : x.run target = .error error) : (x >>= f).run target = .error error := by
  rw [bind_eq, run_bind, hx]
  rfl

theorem reads_bind_of_ok {x : Inspection α} {f : α → Inspection β} {value : α}
    (hx : x.run target = .ok value) :
    (x >>= f).reads target = x.reads target ++ (f value).reads target := by
  rw [bind_eq, reads_bind, hx]

theorem reads_bind_of_error {x : Inspection α} {f : α → Inspection β} {error : ScanError}
    (hx : x.run target = .error error) : (x >>= f).reads target = x.reads target := by
  rw [bind_eq, reads_bind, hx, List.append_nil]

/-- A sequence that ends with a value has a first step that does. -/
theorem exists_of_run_bind_eq_ok {x : Inspection α} {f : α → Inspection β} {value : β}
    (hrun : (x >>= f).run target = .ok value) :
    ∃ first, x.run target = .ok first ∧ (f first).run target = .ok value := by
  cases hx : x.run target with
  | error error =>
    rw [run_bind_of_error hx] at hrun
    contradiction
  | ok first => exact ⟨first, rfl, run_bind_of_ok hx ▸ hrun⟩

/-- A step that reads nothing ends as its result says. -/
theorem run_lift {result result' : Except ScanError α} (hresult : result = result') :
    (liftM result : Inspection α).run target = result' :=
  hresult ▸ run_ofExcept target result

/-- Inspections of the elements of a list that all end with a value. -/
theorem run_mapM_of_ok {f : α → Inspection β} {value : α → β} {list : List α}
    (hf : ∀ x ∈ list, (f x).run target = .ok (value x)) :
    (list.mapM f).run target = .ok (list.map value) := by
  induction list with
  | nil => rfl
  | cons head list ih =>
    obtain ⟨hhead, hlist⟩ := List.forall_mem_cons.1 hf
    rw [List.mapM_cons, run_bind_of_ok hhead, run_bind_of_ok (ih hlist)]
    rfl

/-- If the inspections of the elements of a list end with values, each value is
that of its element. -/
theorem of_run_mapM_eq_ok {f : α → Inspection β} {list : List α} {values : List β}
    (hrun : (list.mapM f).run target = .ok values) :
    values.length = list.length ∧
      ∀ pair ∈ values.zip list, (f pair.2).run target = .ok pair.1 := by
  induction list generalizing values with
  | nil =>
    obtain rfl := Except.ok.inj hrun
    exact ⟨rfl, nofun⟩
  | cons head list ih =>
    rw [List.mapM_cons] at hrun
    obtain ⟨value, hhead, hrun⟩ := exists_of_run_bind_eq_ok hrun
    obtain ⟨rest, hlist, hrun⟩ := exists_of_run_bind_eq_ok hrun
    obtain rfl := Except.ok.inj hrun
    obtain ⟨hlength, hrest⟩ := ih hlist
    exact ⟨congrArg Nat.succ hlength, List.forall_mem_cons.2 ⟨hhead, hrest⟩⟩

/-- Inspections of the elements of a list are made one after another. -/
theorem reads_mapM_of_ok {f : α → Inspection β} {list : List α} {values : List β}
    (hrun : (list.mapM f).run target = .ok values) :
    (list.mapM f).reads target = list.flatMap fun x => (f x).reads target := by
  induction list generalizing values with
  | nil => rfl
  | cons head list ih =>
    rw [List.mapM_cons] at hrun ⊢
    obtain ⟨value, hhead, hrun⟩ := exists_of_run_bind_eq_ok hrun
    obtain ⟨rest, hlist, -⟩ := exists_of_run_bind_eq_ok hrun
    rw [reads_bind_of_ok hhead, reads_bind_of_ok hlist, ih hlist, List.flatMap_cons]
    exact congrArg _ (List.append_nil _)

end Inspection

end Rtti
