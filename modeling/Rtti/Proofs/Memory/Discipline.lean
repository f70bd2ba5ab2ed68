import Rtti.Address.Spelling
import Rtti.Memory.Reader
import Rtti.Proofs.Memory.Course

/-!
# Disciplined inspections

`Inspection.KeepsTo` says what an inspection does whatever the memory answers:
each of its reads meets a rule that may look at the reads before it, every
failure of its own is no read fault and no breakdown with a complaint that is
not listed (`ScanError.IsOwn`), bytes that an optional read does not get are
taken for zeros, and the values that it ends with meet a condition.

It is proved along the definition of an inspection, with `KeepsTo.bind` for a
sequence.  `KeepsTo.rule_of_course` and the lemmas after it say what it means
for a course.
-/

namespace Rtti

theorem Word.ofBytes_replicate_zero (size : Nat) : ofBytes (List.replicate size 0) = 0 := by
  induction size with
  | zero => rfl
  | succ size ih =>
    rw [List.replicate_succ, ofBytes, ih]
    rfl

/-- Whether a read may be made after the reads before it. -/
abbrev Rule := List Access → Access → Prop

/-- The error can be that of an inspection itself: it is no read fault, and a
breakdown only with one of these complaints. -/
def ScanError.IsOwn (breaks : String → Prop) : ScanError → Prop
  | .readFault .. => False
  | .scanBrokeDown complaint => breaks complaint
  | _ => True

theorem ScanError.IsOwn.isReadFault_eq_false {breaks : String → Prop} {error : ScanError}
    (hown : error.IsOwn breaks) : error.isReadFault = false := by
  cases error <;> first | rfl | exact hown.elim

theorem ScanError.IsOwn.mono {breaks breaks' : String → Prop} {error : ScanError}
    (hbreaks : ∀ complaint, breaks complaint → breaks' complaint) (hown : error.IsOwn breaks) :
    error.IsOwn breaks' := by
  cases error <;> first | exact hown | exact hbreaks _ hown

namespace Inspection

variable {α β : Type} {rule : Rule} {breaks breaks' : String → Prop}
  {post : List Access → α → Prop} {before : List Access}

/-- The inspection keeps to a rule after the reads `before`, breaks down only with
the given complaints, and its values meet `post`, which is also told all reads. -/
def KeepsTo (rule : Rule) (breaks : String → Prop) (post : List Access → α → Prop) :
    Inspection α → List Access → Prop
  | done value, before => post before value
  | fail error, _ => error.IsOwn breaks
  | read address size next, before =>
    rule before ⟨address, size, false⟩ ∧
      ∀ bytes, (next bytes).KeepsTo rule breaks post (before ++ [⟨address, size, false⟩])
  | tryRead address size next, before =>
    rule before ⟨address, size, true⟩ ∧ next none = next (some (List.replicate size 0)) ∧
      ∀ bytes, (next bytes).KeepsTo rule breaks post (before ++ [⟨address, size, true⟩])

/-- More complaints are allowed. -/
theorem KeepsTo.mono {x : Inspection α} (hx : x.KeepsTo rule breaks post before)
    (hbreaks : ∀ complaint, breaks complaint → breaks' complaint) :
    x.KeepsTo rule breaks' post before := by
  induction x generalizing before with
  | done value => exact hx
  | fail error => exact hx.mono hbreaks
  | read address size next ih => exact ⟨hx.1, fun bytes => ih bytes (hx.2 bytes)⟩
  | tryRead address size next ih => exact ⟨hx.1, hx.2.1, fun bytes => ih bytes (hx.2.2 bytes)⟩

/-! ## Sequences -/

theorem KeepsTo.bind {x : Inspection α} {f : α → Inspection β} {postf : List Access → β → Prop}
    (hx : x.KeepsTo rule breaks post before)
    (hf : ∀ after value, post after value → (f value).KeepsTo rule breaks postf after) :
    (x.bind f).KeepsTo rule breaks postf before := by
  induction x generalizing before with
  | done value => exact hf before value hx
  | fail error => exact hx
  | read address size next ih =>
    obtain ⟨hrule, hnext⟩ := hx
    exact ⟨hrule, fun bytes => ih bytes (hnext bytes)⟩
  | tryRead address size next ih =>
    obtain ⟨hrule, hzeros, hnext⟩ := hx
    exact ⟨hrule, congrArg (Inspection.bind · f) hzeros, fun bytes => ih bytes (hnext bytes)⟩

theorem keepsTo_ofExcept {result : Except ScanError α}
    (hok : ∀ value, result = .ok value → post before value)
    (herror : ∀ error, result = .error error → error.IsOwn breaks) :
    (ofExcept result).KeepsTo rule breaks post before := by
  cases result with
  | ok value => exact hok value rfl
  | error error => exact herror error rfl

/-! ## A step before the rest -/

section Steps

variable {width : PointerWidth} {address : Address} {offset size : Nat}

theorem keepsTo_lift_bind {result : Except ScanError α} {f : α → Inspection β}
    {postf : List Access → β → Prop}
    (hok : ∀ value, result = .ok value → (f value).KeepsTo rule breaks postf before)
    (herror : ∀ error, result = .error error → error.IsOwn breaks) :
    (liftM result >>= f).KeepsTo rule breaks postf before := by
  cases result with
  | ok value => exact hok value rfl
  | error error => exact herror error rfl

theorem isOwn_of_add_eq_error {error : ScanError}
    (herror : address.add offset = .error error) : error.IsOwn breaks := by
  unfold Address.add at herror
  split at herror
  · contradiction
  · obtain rfl := Except.error.inj herror
    trivial

theorem isOwn_of_sub_eq_error {error : ScanError}
    (herror : address.sub offset = .error error) : error.IsOwn breaks := by
  unfold Address.sub at herror
  split at herror
  · contradiction
  · obtain rfl := Except.error.inj herror
    trivial

theorem keepsTo_add_bind {f : Address → Inspection α}
    (hf : ∀ sum : Address, sum.val = address.val + offset →
      (f sum).KeepsTo rule breaks post before) :
    (liftM (address.add offset) >>= f).KeepsTo rule breaks post before :=
  keepsTo_lift_bind (fun sum hsum => hf sum (Address.add_eq_ok_iff.1 hsum))
    fun _ => isOwn_of_add_eq_error

theorem keepsTo_sub_bind {f : Address → Inspection α}
    (hf : ∀ difference : Address, (f difference).KeepsTo rule breaks post before) :
    (liftM (address.sub offset) >>= f).KeepsTo rule breaks post before :=
  keepsTo_lift_bind (fun difference _ => hf difference) fun _ => isOwn_of_sub_eq_error

theorem keepsTo_word_bind {f : Nat → Inspection α} (hrule : rule before ⟨address, size, false⟩)
    (hf : ∀ value, (f value).KeepsTo rule breaks post (before ++ [⟨address, size, false⟩])) :
    (word address size >>= f).KeepsTo rule breaks post before :=
  ⟨hrule, fun _ => hf _⟩

theorem keepsTo_word32_bind {f : Nat → Inspection α} (hrule : rule before ⟨address, 4, false⟩)
    (hf : ∀ value, (f value).KeepsTo rule breaks post (before ++ [⟨address, 4, false⟩])) :
    (word32 address >>= f).KeepsTo rule breaks post before :=
  keepsTo_word_bind hrule hf

/-- The number of an optional word is the same for missing bytes and for
zeros. -/
theorem keepsTo_word?_bind {f : Option Nat → Inspection α}
    (hrule : rule before ⟨address, size, true⟩)
    (hzero : f none = f (some 0))
    (hf : ∀ value, (f value).KeepsTo rule breaks post (before ++ [⟨address, size, true⟩])) :
    (word? address size >>= f).KeepsTo rule breaks post before := by
  refine ⟨hrule, ?_, fun _ => hf _⟩
  show f none = f (some (Word.ofBytes (List.replicate size 0)))
  rw [Word.ofBytes_replicate_zero, hzero]

theorem keepsTo_pointer_bind {f : Address → Inspection α}
    (hrule : rule before ⟨address, width.bytes, false⟩)
    (hf : ∀ value, (f value).KeepsTo rule breaks post (before ++ [⟨address, width.bytes, false⟩])) :
    (pointer width address >>= f).KeepsTo rule breaks post before :=
  ⟨hrule, fun _ => hf _⟩

theorem keepsTo_long_bind {f : Int → Inspection α}
    (hrule : rule before ⟨address, width.bytes, false⟩)
    (hf : ∀ value, (f value).KeepsTo rule breaks post (before ++ [⟨address, width.bytes, false⟩])) :
    (long width address >>= f).KeepsTo rule breaks post before :=
  ⟨hrule, fun _ => hf _⟩

/-- The window of a text may be too large to be read. -/
theorem keepsTo_text_bind {units : Nat} {encoding : TextEncoding} {f : String → Inspection α}
    (hbreaks : 0x10000000000000000 ≤ units * encoding.unitSize → breaks multiplyOverflow)
    (hrule : rule before ⟨address, units * encoding.unitSize, false⟩)
    (hf : ∀ value, (f value).KeepsTo rule breaks post
      (before ++ [⟨address, units * encoding.unitSize, false⟩])) :
    (text address units encoding >>= f).KeepsTo rule breaks post before := by
  rcases Nat.lt_or_ge (units * encoding.unitSize) 0x10000000000000000 with hsize | hlarge
  · rw [text_eq hsize]
    exact ⟨hrule, fun _ => hf _⟩
  · rw [text_eq_fail hlarge]
    exact hbreaks hlarge

end Steps

/-! ## Courses of a disciplined inspection -/

section Courses

variable {width : PointerWidth} {x : Inspection α} {exchanges earlier later : List Exchange}
  {exchange : Exchange} {result : Except ScanError α} {error : ScanError}

/-- Every read of a course meets the rule. -/
theorem KeepsTo.rule_of_course (hx : x.KeepsTo rule breaks post before)
    (hcourse : x.Course width exchanges result)
    (hsplit : exchanges = earlier ++ exchange :: later) :
    rule (before ++ earlier.map Exchange.access) exchange.access := by
  induction hcourse generalizing before earlier with
  | done | fail => simp at hsplit
  | read _ _ ih =>
    cases earlier with
    | nil =>
      obtain ⟨rfl, rfl⟩ := List.cons.inj hsplit
      simpa using hx.1
    | cons first earlier =>
      obtain ⟨rfl, hrest⟩ := List.cons.inj hsplit
      simpa using ih (hx.2 _) hrest
  | readFails _ =>
    cases earlier with
    | nil =>
      obtain ⟨rfl, rfl⟩ := List.cons.inj hsplit
      simpa using hx.1
    | cons first earlier => simp at hsplit
  | tryRead _ ih =>
    cases earlier with
    | nil =>
      obtain ⟨rfl, rfl⟩ := List.cons.inj hsplit
      simpa using hx.1
    | cons first earlier =>
      obtain ⟨rfl, hrest⟩ := List.cons.inj hsplit
      simpa using ih (hx.2.2 _) hrest

/-- Every read of a run meets the rule. -/
theorem KeepsTo.rule_of_reads (hx : x.KeepsTo rule breaks post []) {target : Target}
    {earlier later : List Access} {access : Access}
    (hsplit : x.reads target = earlier ++ access :: later) : rule earlier access := by
  have hexchanges : x.exchanges target = earlier.map (Exchange.ofTarget target) ++
      Exchange.ofTarget target access :: later.map (Exchange.ofTarget target) := by
    rw [exchanges, hsplit, List.map_append, List.map_cons]
  have hrule := hx.rule_of_course (course_run target x) hexchanges
  rwa [List.map_map, show Exchange.access ∘ Exchange.ofTarget target = id from rfl, List.map_id,
    List.nil_append] at hrule

theorem KeepsTo.exists_rule_of_mem_reads (hx : x.KeepsTo rule breaks post []) {target : Target}
    {access : Access} (haccess : access ∈ x.reads target) : ∃ earlier, rule earlier access := by
  obtain ⟨earlier, later, hsplit⟩ := List.append_of_mem haccess
  exact ⟨earlier, hx.rule_of_reads hsplit⟩

/-- A course that ends with an error that is not its own has a required read that
fails. -/
theorem KeepsTo.failure_of_course (hx : x.KeepsTo rule breaks post before)
    (hcourse : x.Course width exchanges (.error error)) (hforeign : ¬error.IsOwn breaks) :
    ∃ exchange ∈ exchanges, exchange.access.isOptional = false ∧
      exchange.outcome width = .error error := by
  generalize hresult : Except.error error = result at hcourse
  induction hcourse generalizing before with
  | done value => contradiction
  | fail cause =>
    obtain rfl := Except.error.inj hresult
    exact absurd hx hforeign
  | read _ _ ih =>
    obtain ⟨found, hmem, hfound⟩ := ih (hx.2 _) hresult
    exact ⟨found, List.mem_cons_of_mem _ hmem, hfound⟩
  | readFails houtcome =>
    obtain rfl := Except.error.inj hresult
    exact ⟨_, List.mem_cons_self, rfl, houtcome⟩
  | tryRead _ ih =>
    obtain ⟨found, hmem, hfound⟩ := ih (hx.2.2 _) hresult
    exact ⟨found, List.mem_cons_of_mem _ hmem, hfound⟩

/-- A course goes on after an optional read that fails as it does after zero
bytes. -/
theorem KeepsTo.course_withAnswer (hx : x.KeepsTo rule breaks post before)
    (hcourse : x.Course width exchanges result) (hsplit : exchanges = earlier ++ exchange :: later)
    (hoptional : exchange.access.isOptional = true)
    (hfails : exchange.outcome width = .error error) :
    x.Course width (earlier ++
      exchange.withAnswer (.ok (List.replicate exchange.access.size 0)) :: later) result := by
  induction hcourse generalizing before earlier with
  | done | fail => simp at hsplit
  | read houtcome _ ih =>
    cases earlier with
    | nil =>
      obtain ⟨rfl, rfl⟩ := List.cons.inj hsplit
      contradiction
    | cons first earlier =>
      obtain ⟨rfl, hrest⟩ := List.cons.inj hsplit
      exact .read houtcome (ih (hx.2 _) hrest)
  | readFails houtcome =>
    cases earlier with
    | nil =>
      obtain ⟨rfl, rfl⟩ := List.cons.inj hsplit
      contradiction
    | cons first earlier => simp at hsplit
  | @tryRead address size next answer rest result hgoes ih =>
    cases earlier with
    | nil =>
      obtain ⟨rfl, rfl⟩ := List.cons.inj hsplit
      have hzeros : Exchange.outcome width
          ⟨⟨address, size, true⟩, .ok (List.replicate size 0)⟩ = .ok (List.replicate size 0) :=
        Exchange.outcome_withAnswer ⟨⟨address, size, true⟩, answer⟩ (by simp)
      have hgoes' : (next (some (List.replicate size 0))).Course width rest result := by
        rw [hfails] at hgoes
        rwa [← hx.2.1]
      apply Course.tryRead
      rw [hzeros]
      exact hgoes'
    | cons first earlier =>
      obtain ⟨rfl, hrest⟩ := List.cons.inj hsplit
      exact .tryRead (ih (hx.2.2 _) hrest)

end Courses

end Inspection

end Rtti
