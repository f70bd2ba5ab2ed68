import Rtti.Proofs.Address.Integers
import Rtti.Proofs.Memory.Content

/-!
# Inspections in exact numbers

A reckoning is an inspection that computes addresses and sizes in exact numbers.
It takes each of them for a 64-bit number where it is one (`Reckoning.address`,
`Reckoning.word`), and ends without a value where it is not.

`Inspection.Reckons` says that an inspection does on a target what a reckoning does.
It makes the same reads and ends in the same way, and where the reckoning meets a
number that 64 bits do not hold, it reports a sum or a difference that they do not
hold.  So no number wraps that the inspection computes.  A brittle inspection may also
break down there, over a product, without a report.  There is a rule for each way to
compute a number, and one for the parts that compute none (`Inspection.reckons_lift`).
-/

namespace Rtti

/-- An inspection that may meet a number that 64 bits do not hold. -/
abbrev Reckoning (α : Type) := OptionT Inspection α

namespace Reckoning

variable {α β : Type} {target : Target} {n : Nat}

/-- The address with exactly this value. -/
def address (n : Int) : Reckoning Address :=
  OptionT.mk (pure (Address.ofInt? n))

/-- The number as a 64-bit number. -/
def word (n : Nat) : Reckoning Nat :=
  OptionT.mk (pure (if n < 0x10000000000000000 then some n else none))

/-- The text in a window of so many bytes. -/
def text (address : Address) (size : Nat) (encoding : TextEncoding) : Reckoning String := do
  let window ← Inspection.bytes address (← word size)
  let length := (Pattern.findAligned (Pattern.zeros encoding.unitSize) window
    encoding.unitSize).getD window.length
  return encoding.decode (window.take length)

theorem run_address {n : Int} :
    (address n).run.run target = .ok (Address.ofInt? n) :=
  rfl

theorem word_eq_pure (hn : n < 0x10000000000000000) : word n = pure n := by
  rw [word, if_pos hn]
  rfl

theorem word_eq_failure (hn : 0x10000000000000000 ≤ n) : word n = failure := by
  rw [word, if_neg (Nat.not_lt.2 hn)]
  rfl

/-! ## Sequences -/

variable {r : Reckoning α} {g : α → Reckoning β}

theorem run_bind (r : Reckoning α) (g : α → Reckoning β) :
    (r >>= g).run = r.run >>= fun found => found.elim (.done none) fun value => (g value).run := by
  rw [OptionT.run_bind]
  rfl

theorem run_bind_of_some {value : α} (hr : r.run.run target = .ok (some value)) :
    (r >>= g).run.run target = (g value).run.run target := by
  rw [run_bind, Inspection.run_bind_of_ok hr]
  rfl

theorem reads_bind_of_some {value : α} (hr : r.run.run target = .ok (some value)) :
    (r >>= g).run.reads target = r.run.reads target ++ (g value).run.reads target := by
  rw [run_bind, Inspection.reads_bind_of_ok hr]
  rfl

theorem run_bind_of_none (hr : r.run.run target = .ok none) :
    (r >>= g).run.run target = .ok none := by
  rw [run_bind, Inspection.run_bind_of_ok hr]
  rfl

theorem reads_bind_of_none (hr : r.run.run target = .ok none) :
    (r >>= g).run.reads target = r.run.reads target := by
  rw [run_bind, Inspection.reads_bind_of_ok hr]
  exact List.append_nil _

end Reckoning

/-- The mismatch is that of a sum or a difference which 64 bits do not hold. -/
def Mismatch.IsMisfit : Mismatch → Prop
  | overflow address offset => 0x10000000000000000 ≤ address.val + offset
  | underflow address offset => address.val < offset
  | _ => False

/-- The end of an inspection agrees with that of a reckoning. -/
inductive Reckoning.Ended {α : Type} (brittle : Prop) :
    Except ScanError α → Except ScanError (Option α) → Prop where
  | value (value : α) : Ended brittle (.ok value) (.ok (some value))
  | error (error : ScanError) : Ended brittle (.error error) (.error error)
  /-- The reckoning met a number that 64 bits do not hold. -/
  | misfit {mismatch : Mismatch} (hmisfit : mismatch.IsMisfit) :
      Ended brittle (.error (.unknownStructure mismatch)) (.ok none)
  /-- The reckoning met such a number, and the inspection broke down over it. -/
  | breakdown (hbrittle : brittle) :
      Ended brittle (.error (.scanBrokeDown Inspection.multiplyOverflow)) (.ok none)

namespace Inspection

variable {α β : Type} {brittle : Prop} {target : Target} {a : Address}
  {offset units size : Nat} {encoding : TextEncoding}

/-- The inspection does on the target what the reckoning does, and reports where the
reckoning meets a number that 64 bits do not hold, unless it is brittle and breaks down. -/
structure Reckons (brittle : Prop) (target : Target) (x : Inspection α) (r : Reckoning α) :
    Prop where
  reads_eq : x.reads target = r.run.reads target
  ended : Reckoning.Ended brittle (x.run target) (r.run.run target)

/-! ## Parts without numbers -/

/-- An inspection that computes no address and no size is its own reckoning. -/
theorem reckons_lift (x : Inspection α) : x.Reckons brittle target (liftM x) := by
  have hlift : (liftM x : Reckoning α).run = x >>= fun value => .done (some value) :=
    (OptionT.run_monadLift x).trans (map_eq_pure_bind _ _)
  cases hx : x.run target with
  | error error =>
    constructor
    · rw [hlift, reads_bind_of_error hx]
    · rw [hlift, run_bind_of_error hx, hx]
      exact .error error
  | ok value =>
    constructor
    · rw [hlift, reads_bind_of_ok hx]
      exact (List.append_nil _).symm
    · rw [hlift, run_bind_of_ok hx, hx]
      exact .value value

theorem reckons_done (value : α) : (done value).Reckons brittle target (pure value) :=
  reckons_lift (done value)

/-! ## Sequences -/

theorem Reckons.bind {x : Inspection α} {r : Reckoning α} {f : α → Inspection β}
    {g : α → Reckoning β} (hx : x.Reckons brittle target r)
    (hf : ∀ value, x.run target = .ok value → (f value).Reckons brittle target (g value)) :
    (x >>= f).Reckons brittle target (r >>= g) := by
  obtain ⟨hreads, hended⟩ := hx
  generalize hxrun : x.run target = xend at hended
  generalize hrrun : r.run.run target = rend at hended
  cases hended with
  | value value =>
    obtain ⟨hreadsRest, hendedRest⟩ := hf value hxrun
    constructor
    · rw [reads_bind_of_ok hxrun, Reckoning.reads_bind_of_some hrrun, hreads, hreadsRest]
    · rwa [run_bind_of_ok hxrun, Reckoning.run_bind_of_some hrrun]
  | error error =>
    constructor
    · rw [reads_bind_of_error hxrun, Reckoning.run_bind, reads_bind_of_error hrrun, hreads]
    · rw [run_bind_of_error hxrun, Reckoning.run_bind, run_bind_of_error hrrun]
      exact .error error
  | misfit hmisfit =>
    constructor
    · rw [reads_bind_of_error hxrun, Reckoning.reads_bind_of_none hrrun, hreads]
    · rw [run_bind_of_error hxrun, Reckoning.run_bind_of_none hrrun]
      exact .misfit hmisfit
  | breakdown hbrittle =>
    constructor
    · rw [reads_bind_of_error hxrun, Reckoning.reads_bind_of_none hrrun, hreads]
    · rw [run_bind_of_error hxrun, Reckoning.run_bind_of_none hrrun]
      exact .breakdown hbrittle

theorem reckons_mapM {f : α → Inspection β} {g : α → Reckoning β} {list : List α}
    (hf : ∀ x ∈ list, (f x).Reckons brittle target (g x)) :
    (list.mapM f).Reckons brittle target (list.mapM g) := by
  induction list with
  | nil => exact reckons_done []
  | cons head list ih =>
    obtain ⟨hhead, hlist⟩ := List.forall_mem_cons.1 hf
    rw [List.mapM_cons, List.mapM_cons]
    exact hhead.bind fun _ _ => (ih hlist).bind fun _ _ => reckons_done _

/-- A 32-bit word before the rest. -/
theorem reckons_word32_bind {f : Nat → Inspection β} {g : Nat → Reckoning β}
    (hf : ∀ value, value < 0x100000000 → (f value).Reckons brittle target (g value)) :
    (word32 a >>= f).Reckons brittle target (liftM (word32 a) >>= g) := by
  refine (reckons_lift (word32 a)).bind fun value hrun => hf value ?_
  rw [word32, word, run] at hrun
  split at hrun
  · next bytes hread =>
    obtain rfl := Except.ok.inj hrun
    exact (Target.holdsWord_of_read hread).1
  · contradiction

/-! ## Numbers -/

/-- A number that 64 bits are known to hold. -/
theorem reckons_word_bind {x : Inspection α} {g : Nat → Reckoning α}
    (hfits : size < 0x10000000000000000) (hx : x.Reckons brittle target (g size)) :
    x.Reckons brittle target (Reckoning.word size >>= g) := by
  rwa [Reckoning.word_eq_pure hfits, pure_bind]

theorem reckons_add : (liftM (a.add offset) : Inspection Address).Reckons brittle target
    (Reckoning.address (a.val + offset)) := by
  refine ⟨reads_ofExcept target _, ?_⟩
  rw [run_lift rfl, Reckoning.run_address]
  cases hsum : Address.ofInt? (a.val + offset) with
  | none =>
    rw [Address.ofInt?_eq_none_iff] at hsum
    have htop : 0x10000000000000000 ≤ a.val + offset := by omega
    rw [Address.add_eq_error htop]
    exact .misfit htop
  | some sum =>
    rw [Address.ofInt?_eq_some_iff] at hsum
    rw [show a.add offset = .ok sum from Address.add_eq_ok_iff.2 (by omega)]
    exact .value sum

theorem reckons_sub : (liftM (a.sub offset) : Inspection Address).Reckons brittle target
    (Reckoning.address (a.val - offset)) := by
  refine ⟨reads_ofExcept target _, ?_⟩
  rw [run_lift rfl, Reckoning.run_address]
  have hlt := a.val_lt
  cases hdifference : Address.ofInt? (a.val - offset) with
  | none =>
    rw [Address.ofInt?_eq_none_iff] at hdifference
    have hbelow : a.val < offset := by omega
    rw [Address.sub_eq_error hbelow]
    exact .misfit hbelow
  | some difference =>
    rw [Address.ofInt?_eq_some_iff] at hdifference
    rw [show a.sub offset = .ok difference from Address.sub_eq_ok_iff.2 (by omega)]
    exact .value difference

/-! ## Texts -/

/-- The size of the window of a text is exact.  If 64 bits do not hold it, nothing is
read. -/
theorem reckons_text (hsize : units * encoding.unitSize < 0x10000000000000000 ∨ brittle) :
    (text a units encoding).Reckons brittle target
      (Reckoning.text a (units * encoding.unitSize) encoding) := by
  rcases Nat.lt_or_ge (units * encoding.unitSize) 0x10000000000000000 with hfits | hlarge
  · rw [text_eq hfits]
    refine reckons_word_bind hfits ?_
    exact (reckons_lift (bytes a _)).bind fun window _ => reckons_done _
  · rw [text_eq_fail hlarge, Reckoning.text, Reckoning.word_eq_failure hlarge]
    exact ⟨rfl, .breakdown (hsize.resolve_left (Nat.not_lt.2 hlarge))⟩

/-- A text is reckoned without a breakdown exactly if 64 bits hold the size of its
window. -/
theorem reckons_text_iff : (text a units encoding).Reckons False target
    (Reckoning.text a (units * encoding.unitSize) encoding) ↔
      units * encoding.unitSize < 0x10000000000000000 := by
  refine ⟨fun hreckons => ?_, fun hfits => reckons_text (.inl hfits)⟩
  by_contra hlarge
  have hlarge := Nat.not_lt.1 hlarge
  have hended := hreckons.ended
  rw [text_eq_fail hlarge, Reckoning.text, Reckoning.word_eq_failure hlarge] at hended
  exact nomatch hended

end Inspection

end Rtti
