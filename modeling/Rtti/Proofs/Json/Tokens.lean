import Mathlib.Data.List.TakeDrop
import Mathlib.Data.List.TakeWhile
import Mathlib.Tactic.ByContra
import Rtti.Json
import Rtti.Proofs.Text.Utf8

/-!
# Spellings of tokens

Characters that the pass over a text takes as certain tokens
(`Token.ReadAs`), built from left to right: white space, marks and strings may
stand before any spelling, and a spelling may follow any other if its first
character ends a word or number (`ReadAs.append`).

A string is read as it was written, whatever its characters
(`ReadAs.quoted_append`).
-/

namespace Rtti.Json

namespace Token

variable {c : Char} {cs rest : List Char} {token : Token} {tokens more found : List Token}
  {scan : Scan}

/-! ## Where a token ends -/

/-- Whether a character ends the word or number before it. -/
def endsBare (c : Char) : Bool :=
  isSpace c || c = '"' || (ofMark? c).isSome

/-- The tokens of a pass that is between tokens or may be at the end of a word
or number. -/
def Scan.settled (scan : Scan) : Option (List Token) :=
  match scan.mode with
  | .gap => some scan.found
  | .bare cs => (ofBare? cs.reverse).map (· :: scan.found)
  | _ => none

theorem Scan.finish_of_settled (hsettled : scan.settled = some found) :
    scan.finish = some found.reverse := by
  obtain ⟨mode, earlier⟩ := scan
  cases mode with
  | gap =>
    obtain rfl := Option.some.inj hsettled
    rfl
  | bare cs =>
    obtain ⟨token, htoken, rfl⟩ := Option.map_eq_some_iff.1 hsettled
    simp [finish, htoken]
  | quoted | escape | unit => contradiction

/-- A character that ends a word or number is taken as between tokens. -/
theorem Scan.step_of_settled (hc : endsBare c = true) (hsettled : scan.settled = some found) :
    scan.step c = some (.start found c) := by
  obtain ⟨mode, earlier⟩ := scan
  cases mode with
  | gap =>
    obtain rfl := Option.some.inj hsettled
    rfl
  | bare cs =>
    obtain ⟨token, htoken, rfl⟩ := Option.map_eq_some_iff.1 hsettled
    unfold endsBare at hc
    simp only [step, hc, if_true, htoken, Option.map_some]
  | quoted | escape | unit => contradiction

/-- The characters spell the tokens wherever a token may begin.  The last one
may be a word or number that is not ended yet. -/
def ReadAs (cs : List Char) (tokens : List Token) : Prop :=
  ∀ found, ∃ scan, cs.foldlM Scan.step ⟨.gap, found⟩ = some scan ∧
    scan.settled = some (tokens.reverse ++ found)

theorem readAs_nil : ReadAs [] [] :=
  fun found => ⟨⟨.gap, found⟩, rfl, rfl⟩

/-- The first character of what follows ends the last token. -/
theorem ReadAs.append (hcs : ReadAs cs tokens) (hc : endsBare c = true)
    (hrest : ReadAs (c :: rest) more) : ReadAs (cs ++ c :: rest) (tokens ++ more) := by
  intro found
  obtain ⟨first, hfirst, hsettled⟩ := hcs found
  obtain ⟨scan, hscan, hfound⟩ := hrest (tokens.reverse ++ found)
  refine ⟨scan, ?_, ?_⟩
  · rw [List.foldlM_append, hfirst, ← hscan]
    show List.foldlM Scan.step first (c :: rest) = _
    rw [List.foldlM_cons, Scan.step_of_settled hc hsettled]
    rfl
  · rw [hfound, List.reverse_append, List.append_assoc]

theorem ofText?_eq_some {text : String} (htext : ReadAs text.toList tokens) :
    ofText? text = some tokens := by
  obtain ⟨scan, hscan, hsettled⟩ := htext []
  have hfinish := Scan.finish_of_settled hsettled
  rw [List.append_nil, List.reverse_reverse] at hfinish
  rw [ofText?, hscan]
  exact hfinish

/-! ## White space and marks -/

theorem ReadAs.space_append (hcs : ∀ c ∈ cs, isSpace c = true) (hrest : ReadAs rest tokens) :
    ReadAs (cs ++ rest) tokens := by
  induction cs with
  | nil => exact hrest
  | cons c cs ih =>
    obtain ⟨hc, hcs⟩ := List.forall_mem_cons.1 hcs
    intro found
    rw [List.cons_append, List.foldlM_cons]
    have hstep : Scan.step ⟨.gap, found⟩ c = some ⟨.gap, found⟩ := by
      simp [Scan.step, Scan.start, hc]
    rw [hstep]
    exact ih hcs found

theorem ReadAs.mark (hc : ofMark? c = some token) (hcs : ReadAs cs tokens) :
    ReadAs (c :: cs) (token :: tokens) := by
  intro found
  have hstep : Scan.step ⟨.gap, found⟩ c = some ⟨.gap, token :: found⟩ := by
    unfold ofMark? at hc
    split at hc <;> cases hc <;> rfl
  rw [List.foldlM_cons, hstep, List.reverse_cons, List.append_assoc]
  exact hcs (token :: found)

/-! ## Strings -/

theorem padded_control : ∀ n < 0x20, (Hexadecimal.padded .lower 4 n).toList =
    ['0', '0', Hexadecimal.digitChar .lower (n / 16), Hexadecimal.digitChar .lower (n % 16)] := by
  decide

/-- A control character without a short escape is read as its code unit. -/
theorem foldlM_step_unit {n : Nat} (hn : n < 0x20) (pieces : List Piece) :
    (['\\', 'u'] ++ (Hexadecimal.padded .lower 4 n).toList).foldlM Scan.step
      ⟨.quoted pieces, found⟩ = some ⟨.quoted (.unit n :: pieces), found⟩ := by
  have hhigh := Hexadecimal.digitValue?_digitChar .lower (d := n / 16) (by omega)
  have hlow := Hexadecimal.digitValue?_digitChar .lower (d := n % 16) (by omega)
  have hzero : Hexadecimal.digitValue? '0' = some 0 := rfl
  rw [padded_control n hn]
  simp [Scan.step, hzero, hhigh, hlow, Nat.div_add_mod]

/-- The piece as which a written character is read. -/
def pieceOf (c : Char) : Piece :=
  if c.toNat < 0x20 ∧ c.toNat ∉ [8, 9, 10, 12, 13] then .unit c.toNat else .char c

/-- A written character is read as one piece, and `spellOnto_pieceOf` says that
the piece spells the character. -/
theorem foldlM_step_escaped (c : Char) (pieces : List Piece) :
    (escaped c).foldlM Scan.step ⟨.quoted pieces, found⟩ =
      some ⟨.quoted (pieceOf c :: pieces), found⟩ := by
  have hshort {n : Nat} (hn : c.toNat = n) : c = Char.ofNat n := by
    rw [← hn, Char.ofNat_toNat]
  unfold escaped pieceOf
  by_cases hquote : c = '"'
  · subst hquote
    rfl
  by_cases hslash : c = '\\'
  · subst hslash
    rfl
  by_cases hnamed : c.toNat ∈ [8, 9, 10, 12, 13]
  · simp only [List.mem_cons, List.not_mem_nil, or_false] at hnamed
    rcases hnamed with hn | hn | hn | hn | hn <;> obtain rfl := hshort hn <;> rfl
  obtain ⟨h8, h9, h10, h12, h13⟩ : c.toNat ≠ 8 ∧ c.toNat ≠ 9 ∧ c.toNat ≠ 10 ∧ c.toNat ≠ 12 ∧
      c.toNat ≠ 13 := by
    simpa using hnamed
  by_cases hcontrol : c.toNat < 0x20
  · simp only [hquote, hslash, h8, h9, h10, h12, h13, hcontrol, if_false, if_true]
    rw [foldlM_step_unit hcontrol, if_pos ⟨trivial, hnamed⟩]
  · simp [Scan.step, hquote, hslash, h8, h9, h10, h12, h13, hcontrol]

theorem spellOnto_pieceOf (done : List Char) (c : Char) (pieces : List Piece) :
    spellOnto done (pieceOf c :: pieces) = spellOnto (c :: done) pieces := by
  unfold pieceOf
  split
  · next hcontrol =>
    have hhigh : Utf16.isHigh c.toNat = false := by
      simp only [Utf16.isHigh, Bool.and_eq_false_iff, decide_eq_false_iff_not]
      omega
    rw [spellOnto.eq_def]
    simp [hhigh, Utf8.scalar?_toNat]
  · rfl

theorem foldlM_step_flatMap_escaped (cs : List Char) (pieces : List Piece) :
    (cs.flatMap escaped).foldlM Scan.step ⟨.quoted pieces, found⟩ =
      some ⟨.quoted ((cs.map pieceOf).reverse ++ pieces), found⟩ := by
  induction cs generalizing pieces with
  | nil => rfl
  | cons c cs ih =>
    rw [List.flatMap_cons, List.foldlM_append, foldlM_step_escaped]
    show (cs.flatMap escaped).foldlM Scan.step ⟨.quoted (pieceOf c :: pieces), found⟩ = _
    rw [ih, List.map_cons, List.reverse_cons, List.append_assoc, List.singleton_append]

theorem spellOnto_map_pieceOf (done cs : List Char) :
    spellOnto done (cs.map pieceOf) = some (done.reverse ++ cs) := by
  induction cs generalizing done with
  | nil => rw [List.map_nil, spellOnto, List.append_nil]
  | cons c cs ih =>
    rw [List.map_cons, spellOnto_pieceOf, ih, List.reverse_cons, List.append_assoc,
      List.singleton_append]

theorem toList_quoted (text : String) :
    (quoted text).toList = '"' :: (text.toList.flatMap escaped ++ ['"']) := by
  simp [quoted]

/-- A written text is read as a string of the same text. -/
theorem ReadAs.quoted_append (text : String) (hcs : ReadAs cs tokens) :
    ReadAs ((quoted text).toList ++ cs) (.string (some text) :: tokens) := by
  have hcontent : spell (text.toList.map pieceOf) = some text := by
    simp [spell, spellOnto_map_pieceOf]
  intro found
  have hquoted : (quoted text).toList.foldlM Scan.step ⟨.gap, found⟩ =
      some ⟨.gap, .string (some text) :: found⟩ := by
    have hopen : Scan.step ⟨.gap, found⟩ '"' = some ⟨.quoted [], found⟩ := rfl
    rw [toList_quoted, List.foldlM_cons, hopen]
    show (text.toList.flatMap escaped ++ ['"']).foldlM Scan.step ⟨.quoted [], found⟩ = _
    rw [List.foldlM_append, foldlM_step_flatMap_escaped]
    simp [Scan.step, hcontent]
  rw [List.foldlM_append, hquoted, List.reverse_cons, List.append_assoc]
  exact hcs (.string (some text) :: found)

/-! ## Words and numbers -/

/-- None of the characters ends a word or number. -/
def Plain (cs : List Char) : Prop :=
  ∀ c ∈ cs, endsBare c = false

theorem foldlM_step_of_plain {before : List Char} (hcs : Plain cs) :
    cs.foldlM Scan.step ⟨.bare before, found⟩ = some ⟨.bare (cs.reverse ++ before), found⟩ := by
  induction cs generalizing before with
  | nil => rfl
  | cons c cs ih =>
    obtain ⟨hc, hcs⟩ := List.forall_mem_cons.1 hcs
    have hstep : Scan.step ⟨.bare before, found⟩ c = some ⟨.bare (c :: before), found⟩ := by
      unfold endsBare at hc
      simp only [Scan.step, hc, Bool.false_eq_true, if_false]
    rw [List.foldlM_cons, hstep, List.reverse_cons, List.append_assoc]
    exact ih hcs

theorem readAs_bare (htoken : ofBare? (c :: cs) = some token) (hplain : Plain (c :: cs)) :
    ReadAs (c :: cs) [token] := by
  obtain ⟨hc, hcs⟩ := List.forall_mem_cons.1 hplain
  intro found
  have hstart : Scan.step ⟨.gap, found⟩ c = some ⟨.bare [c], found⟩ := by
    simp only [endsBare, Bool.or_eq_false_iff, decide_eq_false_iff_not,
      Option.isSome_eq_false_iff, Option.isNone_iff_eq_none] at hc
    obtain ⟨⟨hspace, hquote⟩, hmark⟩ := hc
    simp [Scan.step, Scan.start, hspace, hquote, hmark]
  refine ⟨⟨.bare (cs.reverse ++ [c]), found⟩, ?_, ?_⟩
  · rw [List.foldlM_cons, hstart]
    exact foldlM_step_of_plain hcs
  · simp [Scan.settled, htoken]

theorem plain_of_all (hcs : cs.all (fun c => !endsBare c) = true) : Plain cs := by
  simpa [Plain] using hcs

theorem readAs_null : ReadAs "null".toList [.null] :=
  readAs_bare rfl (plain_of_all rfl)

theorem readAs_bool (value : Bool) :
    ReadAs (if value then "true" else "false").toList [.bool value] := by
  cases value <;> exact readAs_bare rfl (plain_of_all rfl)

theorem endsBare_eq_false_of_isDigit (hc : c.isDigit = true) : endsBare c = false := by
  by_contra hends
  rw [Bool.not_eq_false] at hends
  simp only [endsBare, isSpace, Bool.or_eq_true, decide_eq_true_eq] at hends
  rcases hends with ((((rfl | rfl) | rfl) | rfl) | rfl) | hmark
  any_goals contradiction
  obtain ⟨token, htoken⟩ := Option.isSome_iff_exists.1 hmark
  unfold ofMark? at htoken
  split at htoken <;> contradiction

theorem plain_of_digits? (hdigits : digits? cs = some rest) (hrest : Plain rest) : Plain cs := by
  unfold digits? at hdigits
  rw [List.span_eq_takeWhile_dropWhile] at hdigits
  have hrest' : cs.dropWhile Char.isDigit = rest := by
    split at hdigits
    · contradiction
    · next heq =>
      rw [← Option.some.inj hdigits]
      exact (Prod.mk.inj heq).2
  intro c hc
  rw [← List.takeWhile_append_dropWhile (p := Char.isDigit) (l := cs), hrest',
    List.mem_append] at hc
  rcases hc with hc | hc
  · exact endsBare_eq_false_of_isDigit (List.mem_takeWhile_imp hc)
  · exact hrest c hc

theorem plain_of_whole? (hwhole : whole? cs = some rest) (hrest : Plain rest) : Plain cs := by
  unfold whole? at hwhole
  split at hwhole
  · obtain rfl := Option.some.inj hwhole
    exact List.forall_mem_cons.2 ⟨by decide, hrest⟩
  · exact plain_of_digits? hwhole hrest

theorem plain_of_fraction? (hfraction : fraction? cs = some rest) (hrest : Plain rest) :
    Plain cs := by
  unfold fraction? at hfraction
  split at hfraction
  · exact List.forall_mem_cons.2 ⟨by decide, plain_of_digits? hfraction hrest⟩
  · obtain rfl := Option.some.inj hfraction
    exact hrest

theorem plain_of_exponent? (hexponent : exponent? cs = some rest) (hrest : Plain rest) :
    Plain cs := by
  unfold exponent? at hexponent
  split at hexponent
  · next c cs =>
    split at hexponent
    · next hc =>
      have hplain : endsBare c = false := by
        rcases hc with rfl | rfl <;> decide
      refine List.forall_mem_cons.2 ⟨hplain, ?_⟩
      split at hexponent
      · exact List.forall_mem_cons.2 ⟨by decide, plain_of_digits? hexponent hrest⟩
      · exact List.forall_mem_cons.2 ⟨by decide, plain_of_digits? hexponent hrest⟩
      · exact plain_of_digits? hexponent hrest
    · obtain rfl := Option.some.inj hexponent
      exact hrest
  · exact List.forall_mem_nil _

/-- No character of a number ends it. -/
theorem plain_of_isNumber (hcs : isNumber cs = true) : Plain cs := by
  have hunsigned {digits : List Char}
      (hdigits : (whole? digits >>= fraction? >>= exponent?) = some []) : Plain digits := by
    obtain ⟨tail, htail, hexponent⟩ := Option.bind_eq_some_iff.1 hdigits
    obtain ⟨middle, hwhole, hfraction⟩ := Option.bind_eq_some_iff.1 htail
    have hnone : Plain [] := List.forall_mem_nil _
    exact plain_of_whole? hwhole
      (plain_of_fraction? hfraction (plain_of_exponent? hexponent hnone))
  unfold isNumber at hcs
  rw [beq_iff_eq] at hcs
  split at hcs
  · exact List.forall_mem_cons.2 ⟨by decide, hunsigned hcs⟩
  · exact hunsigned hcs

theorem ofBare?_of_isNumber (hcs : isNumber cs = true) :
    ofBare? cs = some (.number (String.ofList cs)) := by
  have hword {word : String} (hword : isNumber word.toList = false) : cs ≠ word.toList := by
    rintro rfl
    rw [hword] at hcs
    contradiction
  unfold ofBare?
  rw [if_neg (hword (by decide)), if_neg (hword (by decide)), if_neg (hword (by decide)),
    if_pos hcs]

theorem readAs_number {literal : String} (hliteral : isNumber literal.toList = true) :
    ReadAs literal.toList [.number literal] := by
  have htoken := ofBare?_of_isNumber hliteral
  have hplain := plain_of_isNumber hliteral
  rw [String.ofList_toList] at htoken
  cases hcs : literal.toList with
  | nil =>
    rw [hcs] at hliteral
    contradiction
  | cons c cs =>
    rw [hcs] at htoken hplain
    exact readAs_bare htoken hplain

end Token

end Rtti.Json
