import Rtti.Decoder
import Rtti.Proofs.Decoder.Presentation

/-!
# Tighter limits

The limits on the numbers of bases and of classes only reject.  With tighter
ones a decoder finds the same hierarchy or fails because a number is outside
its limits (`Decoder.onlyRejects_of_within`).  For the Itanium ABI the number
of classes is exact: a hierarchy is rejected if it has more classes than the
limit allows, however often a class was met on the way.

`Inspection.Curtails` compares two inspections in this way.  It is proved along
their common definition, and the two differ only where a number is checked.
-/

namespace Rtti

/-- The limits differ at most in those on numbers of bases and of classes, and
the first are at most as large as the second. -/
structure Limits.Within (tight loose : Limits) : Prop where
  nameUnits_eq : tight.nameUnits = loose.nameUnits
  encoding_eq : tight.encoding = loose.encoding
  msvcBases_le : tight.msvcBases ≤ loose.msvcBases
  itaniumBases_le : tight.itaniumBases ≤ loose.itaniumBases
  nodes_le : tight.nodes ≤ loose.nodes

/-! ## Curtailed inspections -/

namespace Inspection

variable {α β : Type} {x y : Inspection α} {f g : α → Inspection β}

/-- The first inspection ends as the second does, or finds a number outside the
limits. -/
def Curtails (x y : Inspection α) : Prop :=
  ∀ target, x.run target = y.run target ∨
    ∃ field value, x.run target = .error (.corruptHierarchy field value)

theorem Curtails.refl (x : Inspection α) : x.Curtails x := fun _ => .inl rfl

theorem curtails_corrupt (field : String) (value : Nat) (y : Inspection α) :
    (fail (.corruptHierarchy field value)).Curtails y := fun _ => .inr ⟨field, value, rfl⟩

theorem Curtails.bind (hx : x.Curtails y) (hf : ∀ value, (f value).Curtails (g value)) :
    (x >>= f).Curtails (y >>= g) := by
  intro target
  rcases hx target with hsame | ⟨field, value, hcorrupt⟩
  · cases hy : y.run target with
    | error error =>
      rw [hy] at hsame
      exact .inl (by rw [run_bind_of_error hsame, run_bind_of_error hy])
    | ok value =>
      rw [hy] at hsame
      rw [run_bind_of_ok hsame, run_bind_of_ok hy]
      exact hf value target
  · exact .inr ⟨field, value, run_bind_of_error hcorrupt⟩

/-- A common step before the rest. -/
theorem curtails_bind (hf : ∀ value, (f value).Curtails (g value)) :
    (x >>= f).Curtails (x >>= g) :=
  (Curtails.refl x).bind hf

/-- A number that the second inspection rejects the first rejects too. -/
theorem curtails_check {p q : Prop} [Decidable p] [Decidable q] {field : String} {value : Nat}
    (hchecks : q → p) (hxy : x.Curtails y) :
    (if p then fail (.corruptHierarchy field value) else x).Curtails
      (if q then fail (.corruptHierarchy field value) else y) := by
  by_cases hp : p
  · rw [if_pos hp]
    exact curtails_corrupt field value _
  · rw [if_neg hp, if_neg (mt hchecks hp)]
    exact hxy

end Inspection

open Inspection

variable {tight loose : Limits} {width : PointerWidth} {target : Target}

/-! ## Itanium -/

namespace Itanium

variable {typeInfo : Address}

theorem identify_eq_of_within (hwithin : tight.Within loose) :
    identify width tight typeInfo = identify width loose typeInfo := by
  unfold identify
  rw [hwithin.encoding_eq]

theorem nameOf_eq_of_within (hwithin : tight.Within loose) :
    nameOf width tight typeInfo = nameOf width loose typeInfo := by
  unfold nameOf
  rw [hwithin.encoding_eq, hwithin.nameUnits_eq]

theorem curtails_expand (hwithin : tight.Within loose) :
    (expand width tight typeInfo).Curtails (expand width loose typeInfo) := by
  unfold expand
  rw [identify_eq_of_within hwithin, nameOf_eq_of_within hwithin]
  apply curtails_bind
  intro kind
  apply curtails_bind
  intro name
  apply curtails_bind
  intro body
  cases kind with
  | leaf => exact .refl _
  | singleBase => exact .refl _
  | manyBases =>
    apply curtails_bind
    intro flags
    apply curtails_bind
    intro countAt
    apply curtails_bind
    intro count
    exact curtails_check (Nat.lt_of_le_of_lt hwithin.itaniumBases_le) (.refl _)

theorem curtails_namedBases (hwithin : tight.Within loose) :
    (namedBases width tight typeInfo).Curtails (namedBases width loose typeInfo) := by
  unfold namedBases
  refine (curtails_expand hwithin).bind fun node => ?_
  simp only [nameOf_eq_of_within hwithin]
  exact .refl _

namespace Walk

variable {walk final : Walk} {budget budget' : Nat}

theorem curtails_finish (hwithin : tight.Within loose) (hbudget : budget ≤ budget') :
    (walk.finish width tight budget).Curtails (walk.finish width loose budget') := by
  induction budget generalizing walk budget' with
  | zero =>
    cases hnext : walk.stack.dropWhile (· ∈ walk.visited) with
    | nil =>
      rw [finish_of_done hnext, finish_of_done hnext]
      exact .refl _
    | cons name stack =>
      rw [finish_full hnext]
      exact curtails_corrupt _ _ _
  | succ budget ih =>
    obtain ⟨budget', rfl⟩ : ∃ left, budget' = left + 1 := ⟨budget' - 1, by omega⟩
    cases hnext : walk.stack.dropWhile (· ∈ walk.visited) with
    | nil =>
      rw [finish_of_done hnext, finish_of_done hnext]
      exact .refl _
    | cons name stack =>
      cases hlocated : walk.located.get? name with
      | none =>
        rw [finish_unlocated hnext hlocated, finish_unlocated hnext hlocated]
        exact .refl _
      | some typeInfo =>
        rw [finish_succ hnext hlocated, finish_succ hnext hlocated]
        exact (curtails_namedBases hwithin).bind fun bases => ih (by omega)

end Walk

theorem curtails_decode (hwithin : tight.Within loose) :
    (decode width tight typeInfo).Curtails (decode width loose typeInfo) := by
  unfold decode
  rw [nameOf_eq_of_within hwithin]
  apply curtails_bind
  intro root
  split
  · exact .refl _
  · exact (Walk.curtails_finish hwithin hwithin.nodes_le).bind fun final => .refl _

/-! ### The number of classes -/

theorem namedBases_eq_of_within (hwithin : tight.Within loose)
    (hbases : tight.itaniumBases = loose.itaniumBases) :
    namedBases width tight typeInfo = namedBases width loose typeInfo := by
  unfold namedBases expand
  simp only [identify_eq_of_within hwithin, nameOf_eq_of_within hwithin, hbases]

namespace Walk

variable {walk final : Walk} {budget budget' : Nat}

theorem length_expanded (walk : Walk) : walk.expanded.length = walk.visited.length :=
  (List.length_map _).symm

/-- A walk only adds to the classes that it has expanded. -/
theorem Ends.length_expanded_le {found : List Expansion}
    (hends : Ends target width loose budget walk found final) :
    walk.expanded.length ≤ final.expanded.length := by
  have hvisited := congrArg List.length hends.found.1
  rw [List.length_append, List.length_reverse, List.length_reverse] at hvisited
  rw [length_expanded, length_expanded]
  omega

/-- With another budget a walk that ends either ends in the same way or needs one
class more than it may expand. -/
theorem Ends.run_finish_of_budget {found : List Expansion} (hwithin : tight.Within loose)
    (hbases : tight.itaniumBases = loose.itaniumBases) (budget : Nat)
    (hends : Ends target width loose budget' walk found final) :
    (walk.finish width tight budget).run target =
      if final.expanded.length ≤ walk.expanded.length + budget then .ok final
      else .error (.corruptHierarchy "node_count" (walk.expanded.length + budget + 1)) := by
  induction hends generalizing budget with
  | done hnext =>
    rw [finish_of_done hnext, if_pos (Nat.le_add_right _ _)]
    rfl
  | @expand _ walk final name stack typeInfo bases _ hnext hlocated hnamed hlater ih =>
    cases budget with
    | zero =>
      have hmore : walk.expanded.length + 1 ≤ final.expanded.length := hlater.length_expanded_le
      rw [finish_full hnext, if_neg (by omega)]
      rfl
    | succ budget =>
      have hlength : (walk.extend name typeInfo bases stack).expanded.length + budget =
          walk.expanded.length + (budget + 1) := by
        show walk.expanded.length + 1 + budget = _
        omega
      rw [finish_succ hnext hlocated, namedBases_eq_of_within hwithin hbases, run_bind_of_ok hnamed,
        ih budget, hlength]

end Walk

/-- A hierarchy that is found is found again with any limit that is not below
the number of its classes, and rejected with any other. -/
theorem run_decode_of_nodes (hwithin : tight.Within loose)
    (hbases : tight.itaniumBases = loose.itaniumBases) {h : ClassHierarchy}
    (hrun : (decode width loose typeInfo).run target = .ok h) :
    (decode width tight typeInfo).run target =
      if h.names.length ≤ tight.nodes then .ok h
      else .error (.corruptHierarchy "node_count" (tight.nodes + 1)) := by
  obtain ⟨root, final, hroot, hnamed, hends, rfl⟩ := ends_of_run_decode hrun
  have hlength : (ClassHierarchy.mk .itanium root final.visited.reverse final.map).names.length =
      final.expanded.length := by
    rw [Walk.length_expanded]
    exact List.length_reverse
  have htight := hends.run_finish_of_budget hwithin hbases tight.nodes
  rw [show (Walk.start root typeInfo).expanded.length = 0 from rfl, Nat.zero_add] at htight
  unfold decode
  rw [nameOf_eq_of_within hwithin, run_bind_of_ok hroot, if_neg hnamed, hlength]
  split at htight
  · next hfew =>
    rw [run_bind_of_ok htight, if_pos hfew]
    rfl
  · next hmany => rw [run_bind_of_error htight, if_neg hmany]

end Itanium

/-! ## MSVC -/

namespace Msvc

variable {undecorate : Undecorator} {locator : Address} {array : BaseArray}

theorem curtails_readBaseArray (hwithin : tight.Within loose) :
    (readBaseArray width tight locator).Curtails (readBaseArray width loose locator) := by
  unfold readBaseArray
  apply curtails_bind
  intro links
  apply curtails_bind
  intro hierarchyAt
  apply curtails_bind
  intro hierarchyLink
  split
  · exact .refl _
  · apply curtails_bind
    intro hierarchy
    apply curtails_bind
    intro countAt
    apply curtails_bind
    intro count
    exact curtails_check (Or.imp_right (Nat.lt_of_le_of_lt hwithin.msvcBases_le)) (.refl _)

theorem readDescriptor_eq_of_within (hwithin : tight.Within loose) (index : Nat) :
    readDescriptor width tight undecorate array index =
      readDescriptor width loose undecorate array index := by
  unfold readDescriptor
  rw [hwithin.encoding_eq, hwithin.nameUnits_eq]

theorem readDescriptors_eq_of_within (hwithin : tight.Within loose) (count index : Nat) :
    readDescriptors width tight undecorate array count index =
      readDescriptors width loose undecorate array count index := by
  induction count generalizing index with
  | zero => rfl
  | succ count ih =>
    unfold readDescriptors
    rw [readDescriptor_eq_of_within hwithin, ih]

theorem curtails_decode (hwithin : tight.Within loose) :
    (decode width tight undecorate locator).Curtails (decode width loose undecorate locator) := by
  unfold decode
  refine (curtails_readBaseArray hwithin).bind fun array => ?_
  rw [readDescriptors_eq_of_within hwithin]
  exact .refl _

end Msvc

/-! ## Whole decodings -/

/-- With the tight limits a decoding ends with the hierarchy of the loose ones or
is rejected. -/
structure OnlyRejects (tight loose : Limits) (decode : Limits → Inspection ClassHierarchy) :
    Prop where
  keeps (target : Target) (h : ClassHierarchy) :
    (decode tight).run target = .ok h → (decode loose).run target = .ok h
  rejects (target : Target) (h : ClassHierarchy) : (decode loose).run target = .ok h →
    (decode tight).run target = .ok h ∨
      ∃ field value, (decode tight).run target = .error (.corruptHierarchy field value)

/-- With the tight limits a hierarchy of the loose ones is rejected exactly if it
has more classes than they allow. -/
def RejectsByNodes (tight loose : Limits) (decode : Limits → Inspection ClassHierarchy) : Prop :=
  ∀ target h, (decode loose).run target = .ok h →
    ((∃ field value, (decode tight).run target = .error (.corruptHierarchy field value)) ↔
      tight.nodes < h.names.length) ∧
    ∀ field value, (decode tight).run target = .error (.corruptHierarchy field value) →
      field = "node_count" ∧ value = tight.nodes + 1

theorem Inspection.Curtails.onlyRejects {decode : Limits → Inspection ClassHierarchy}
    (hcurtails : (decode tight).Curtails (decode loose)) : OnlyRejects tight loose decode where
  keeps target h htight := by
    rcases hcurtails target with hsame | ⟨field, value, hcorrupt⟩
    · rw [← hsame, htight]
    · rw [hcorrupt] at htight
      contradiction
  rejects target h hloose := by
    rcases hcurtails target with hsame | hcorrupt
    · exact .inl (hsame.trans hloose)
    · exact .inr hcorrupt

/-- A common beginning counts no classes. -/
theorem RejectsByNodes.bind {α : Type} {x : Inspection α}
    {f : α → Limits → Inspection ClassHierarchy}
    (hf : ∀ value, RejectsByNodes tight loose (f value)) :
    RejectsByNodes tight loose fun limits => x >>= fun value => f value limits := by
  intro target h hloose
  obtain ⟨value, hvalue, hrest⟩ := exists_of_run_bind_eq_ok hloose
  simp only [run_bind_of_ok hvalue]
  exact hf value target h hrest

theorem rejectsByNodes_fail (error : ScanError) :
    RejectsByNodes tight loose fun _ => .fail error := nofun

theorem Itanium.rejectsByNodes_decode (hwithin : tight.Within loose)
    (hbases : tight.itaniumBases = loose.itaniumBases) (typeInfo : Address) :
    RejectsByNodes tight loose fun limits => decode width limits typeInfo := by
  intro target h hloose
  dsimp only
  rw [run_decode_of_nodes hwithin hbases hloose]
  split
  · next hfew => exact ⟨by simpa using hfew, nofun⟩
  · next hmany =>
    refine ⟨⟨fun _ => Nat.lt_of_not_le hmany, fun _ => ⟨_, _, rfl⟩⟩, fun field value hcorrupt => ?_⟩
    obtain ⟨rfl, rfl⟩ := ScanError.corruptHierarchy.inj (Except.error.inj hcorrupt)
    exact ⟨rfl, rfl⟩

namespace Decoder

variable {undecorate : Msvc.Undecorator}

theorem curtails_decode (hwithin : tight.Within loose) (binding : Binding) (vtable : Address) :
    (decode ⟨binding, tight⟩ width undecorate vtable).Curtails
      (decode ⟨binding, loose⟩ width undecorate vtable) := by
  unfold decode
  cases binding with
  | unbound => exact .refl _
  | bound abi =>
    dsimp only
    split
    · exact .refl _
    · apply curtails_bind
      intro slot
      apply curtails_bind
      intro information
      split
      · exact .refl _
      · cases abi with
        | msvc => exact Msvc.curtails_decode hwithin
        | itanium => exact Itanium.curtails_decode hwithin

theorem curtails_decodeObject (hwithin : tight.Within loose) (binding : Binding) (text : String) :
    (decodeObject ⟨binding, tight⟩ width undecorate text).Curtails
      (decodeObject ⟨binding, loose⟩ width undecorate text) := by
  unfold decodeObject
  apply curtails_bind
  intro object
  split
  · exact .refl _
  · apply curtails_bind
    intro vtable
    exact curtails_decode hwithin binding vtable

theorem rejectsByNodes_decode (hwithin : tight.Within loose)
    (hbases : tight.itaniumBases = loose.itaniumBases) (vtable : Address) :
    RejectsByNodes tight loose fun limits =>
      decode ⟨.bound .itanium, limits⟩ width undecorate vtable := by
  unfold decode
  dsimp only
  split
  · exact rejectsByNodes_fail _
  · refine .bind fun slot => .bind fun information => ?_
    split
    · exact rejectsByNodes_fail _
    · exact Itanium.rejectsByNodes_decode hwithin hbases information

theorem rejectsByNodes_decodeObject (hwithin : tight.Within loose)
    (hbases : tight.itaniumBases = loose.itaniumBases) (text : String) :
    RejectsByNodes tight loose fun limits =>
      decodeObject ⟨.bound .itanium, limits⟩ width undecorate text := by
  unfold decodeObject
  refine .bind fun object => ?_
  split
  · exact rejectsByNodes_fail _
  · exact .bind fun vtable => rejectsByNodes_decode hwithin hbases vtable

/-- Tighter limits only reject hierarchies, wherever a decoding begins.  For the
Itanium ABI, if the limit on bases stays, those with too many classes. -/
theorem onlyRejects_of_within (hwithin : tight.Within loose) (width : PointerWidth)
    (undecorate : Msvc.Undecorator) :
    (∀ locator, OnlyRejects tight loose fun limits =>
      Msvc.decode width limits undecorate locator) ∧
    (∀ typeInfo, OnlyRejects tight loose fun limits => Itanium.decode width limits typeInfo) ∧
    (∀ binding vtable, OnlyRejects tight loose fun limits =>
      decode ⟨binding, limits⟩ width undecorate vtable) ∧
    (∀ binding text, OnlyRejects tight loose fun limits =>
      decodeObject ⟨binding, limits⟩ width undecorate text) ∧
    (tight.itaniumBases = loose.itaniumBases →
      (∀ typeInfo, RejectsByNodes tight loose fun limits =>
        Itanium.decode width limits typeInfo) ∧
      (∀ vtable, RejectsByNodes tight loose fun limits =>
        decode ⟨.bound .itanium, limits⟩ width undecorate vtable) ∧
      ∀ text, RejectsByNodes tight loose fun limits =>
        decodeObject ⟨.bound .itanium, limits⟩ width undecorate text) := by
  refine ⟨fun locator => ?_, fun typeInfo => ?_, fun binding vtable => ?_, fun binding text => ?_,
    fun hbases => ⟨fun typeInfo => ?_, fun vtable => ?_, fun text => ?_⟩⟩
  · exact (Msvc.curtails_decode hwithin).onlyRejects
  · exact (Itanium.curtails_decode hwithin).onlyRejects
  · exact (curtails_decode hwithin binding vtable).onlyRejects
  · exact (curtails_decodeObject hwithin binding text).onlyRejects
  · exact Itanium.rejectsByNodes_decode hwithin hbases typeInfo
  · exact rejectsByNodes_decode hwithin hbases vtable
  · exact rejectsByNodes_decodeObject hwithin hbases text

/-! ## An example -/

/-- The examples have four classes each.  They are found with limits of four and
rejected with limits of three. -/
theorem onlyRejects_diamond_crossed :
    let tight : Limits := { nameUnits := 8, msvcBases := 3, nodes := 3 }
    let loose : Limits := { nameUnits := 8, msvcBases := 4, nodes := 4 }
    let diamond : ClassHierarchy := ⟨.itanium, "Bottom", ["Bottom", "Left", "Top", "Right"],
      .ofEdges [("Bottom", "Left"), ("Bottom", "Right"), ("Left", "Top"), ("Right", "Top"),
        ("Right", "Bottom")]⟩
    let crossed : ClassHierarchy := ⟨.msvc, "Most", ["Most", "Left", "Top", "Right"],
      .ofEdges [("Most", "Left"), ("Left", "Top"), ("Left", "Right")]⟩
    let itanium (limits : Limits) :=
      (Itanium.decode .bits64 limits (.ofNat 0x30000)).run (Itanium.diamond 0x30300).target
    let msvc (limits : Limits) :=
      (Msvc.decode .bits32 limits .ok (.ofNat 0x20000)).run crossedMemory.target
    tight.Within loose ∧
    (itanium loose = .ok diamond ∧ itanium tight = .error (.corruptHierarchy "node_count" 4)) ∧
    msvc loose = .ok crossed ∧
      ∃ field value, msvc tight = .error (.corruptHierarchy field value) := by
  intro tight loose diamond crossed itanium msvc
  have hwithin : tight.Within loose := ⟨rfl, rfl, by decide, by decide, by decide⟩
  have hdiamond : itanium loose = .ok diamond := by decide +kernel
  have hcrossed : msvc loose = .ok crossed := by decide +kernel
  obtain ⟨-, -, -, -, hnodes⟩ := onlyRejects_of_within hwithin .bits64 .ok
  obtain ⟨hrejected, hreason⟩ := (hnodes rfl).1 (.ofNat 0x30000) _ diamond hdiamond
  obtain ⟨field, value, htight⟩ := hrejected.2 (by decide)
  obtain ⟨rfl, rfl⟩ := hreason field value htight
  obtain ⟨hmsvc, -⟩ := onlyRejects_of_within hwithin .bits32 .ok
  refine ⟨hwithin, ⟨hdiamond, htight⟩, hcrossed, ?_⟩
  exact ((hmsvc (.ofNat 0x20000)).rejects _ crossed hcrossed).resolve_left (by decide +kernel)

end Decoder

end Rtti
