import Rtti.Proofs.Json.Tokens

/-!
# Written documents are read back

`Json.parse?_render` says that a document is read back from its own text, if
its strings spell texts and its numbers are numbers (`Json.Spelled`).  The
tokens of a document (`Json.tokens`) stand between the two halves: the text is
a spelling of them (`readAs_renderAt`), and they are put together to the
document again, whatever containers are open (`foldlM_step_tokens`).

The inductions follow the three writers, of values, items and fields.
-/

namespace Rtti.Json

open Token

/-! ## Tokens of a document -/

mutual

/-- The tokens of the written value. -/
def tokens : Json → List Token
  | .null => [.null]
  | .bool value => [.bool value]
  | .number literal => [.number literal]
  | .string content => [.string content]
  | .array items => .openArray :: (itemTokens items ++ [.closeArray])
  | .object fields => .openObject :: (fieldTokens fields ++ [.closeObject])

/-- The tokens of written items. -/
def itemTokens : List Json → List Token
  | [] => []
  | [item] => item.tokens
  | item :: rest => item.tokens ++ .comma :: itemTokens rest

/-- The tokens of written fields. -/
def fieldTokens : List (Option String × Json) → List Token
  | [] => []
  | [(key, v)] => .string key :: .colon :: v.tokens
  | (key, v) :: rest => .string key :: .colon :: (v.tokens ++ .comma :: fieldTokens rest)

end

mutual

/-- The strings and keys of the value spell texts, and its numbers are
numbers. -/
def Spelled : Json → Prop
  | .null | .bool _ => True
  | .number literal => isNumber literal.toList = true
  | .string content => content.isSome
  | .array items => SpelledItems items
  | .object fields => SpelledFields fields

/-- All items are spelled. -/
def SpelledItems : List Json → Prop
  | [] => True
  | item :: rest => item.Spelled ∧ SpelledItems rest

/-- All fields are spelled. -/
def SpelledFields : List (Option String × Json) → Prop
  | [] => True
  | (key, v) :: rest => key.isSome ∧ v.Spelled ∧ SpelledFields rest

end

/-! ## From text to tokens -/

section Spellings

variable {cs : List Char} {tokens : List Token} (depth : Nat)

theorem toList_lineBreak : (lineBreak depth).toList = '\n' :: List.replicate (2 * depth) ' ' := by
  simp [lineBreak]

/-- A line break may stand before any spelling. -/
theorem readAs_lineBreak_append (hcs : ReadAs cs tokens) :
    ReadAs ((lineBreak depth).toList ++ cs) tokens := by
  refine ReadAs.space_append (fun c hc => ?_) hcs
  rw [toList_lineBreak, List.mem_cons] at hc
  rcases hc with rfl | hblank
  · rfl
  · rw [List.eq_of_mem_replicate hblank]
    rfl

/-- The spelling of the inside of a container, between its marks. -/
theorem readAs_enclosed (first last : Char) {opening closing : Token}
    (hfirst : ofMark? first = some opening) (hlast : ofMark? last = some closing)
    (hcs : ReadAs cs tokens) :
    ReadAs (first :: (cs ++ ((lineBreak depth).toList ++ [last])))
      (opening :: (tokens ++ [closing])) := by
  have hclose := readAs_lineBreak_append depth (.mark hlast readAs_nil)
  rw [toList_lineBreak] at hclose ⊢
  exact .mark hfirst (hcs.append rfl hclose)

/-- The spelling of the value of a field, after its key. -/
theorem readAs_field {key : Option String} (hkey : key.isSome) (hcs : ReadAs cs tokens) :
    ReadAs ((lineBreak depth).toList ++ ((quoted (key.getD "")).toList ++ ':' :: ' ' :: cs))
      (.string key :: .colon :: tokens) := by
  obtain ⟨text, rfl⟩ := Option.isSome_iff_exists.1 hkey
  have hblank : ReadAs ([' '] ++ cs) tokens := .space_append (List.forall_mem_singleton.2 rfl) hcs
  exact readAs_lineBreak_append depth (.quoted_append text (.mark rfl hblank))

end Spellings

mutual

theorem readAs_renderAt (depth : Nat) :
    ∀ value : Json, value.Spelled → ReadAs (renderAt depth value).toList value.tokens
  | .null, _ => readAs_null
  | .bool true, _ => readAs_bool true
  | .bool false, _ => readAs_bool false
  | .number _, hliteral => readAs_number hliteral
  | .string (some text), _ => by
    have hquoted := readAs_nil.quoted_append text
    rwa [List.append_nil] at hquoted
  | .array [], _ => by
    have hempty : ReadAs ['[', ']'] [.openArray, .closeArray] := .mark rfl (.mark rfl readAs_nil)
    simpa [renderAt, tokens, itemTokens] using hempty
  | .array (item :: rest), hspelled => by
    have hitems := readAs_renderItems (depth + 1) (item :: rest) hspelled
    have harray := readAs_enclosed depth '[' ']' rfl rfl hitems
    simpa [renderAt, tokens] using harray
  | .object [], _ => by
    have hempty : ReadAs ['\x7b', '\x7d'] [.openObject, .closeObject] :=
      .mark rfl (.mark rfl readAs_nil)
    simpa [renderAt, tokens, fieldTokens] using hempty
  | .object (field :: rest), hspelled => by
    have hfields := readAs_renderFields (depth + 1) (field :: rest) hspelled
    have hobject := readAs_enclosed depth '\x7b' '\x7d' rfl rfl hfields
    simpa [renderAt, tokens] using hobject

theorem readAs_renderItems (depth : Nat) :
    ∀ items : List Json, SpelledItems items →
      ReadAs (renderItems depth items).toList (itemTokens items)
  | [], _ => readAs_nil
  | [item], ⟨hitem, _⟩ => by
    have hlast := readAs_lineBreak_append depth (readAs_renderAt depth item hitem)
    simpa [renderItems, itemTokens] using hlast
  | item :: next :: rest, ⟨hitem, hrest⟩ => by
    have hnext := readAs_renderItems depth (next :: rest) hrest
    have hboth := (readAs_renderAt depth item hitem).append (c := ',') rfl (.mark rfl hnext)
    simpa [renderItems, itemTokens] using readAs_lineBreak_append depth hboth

theorem readAs_renderFields (depth : Nat) :
    ∀ fields : List (Option String × Json), SpelledFields fields →
      ReadAs (renderFields depth fields).toList (fieldTokens fields)
  | [], _ => readAs_nil
  | [(key, v)], ⟨hkey, hv, _⟩ => by
    have hlast := readAs_field depth hkey (readAs_renderAt depth v hv)
    simpa [renderFields, fieldTokens] using hlast
  | (key, v) :: next :: rest, ⟨hkey, hv, hrest⟩ => by
    have hnext := readAs_renderFields depth (next :: rest) hrest
    have hboth := (readAs_renderAt depth v hv).append (c := ',') rfl (.mark rfl hnext)
    simpa [renderFields, fieldTokens] using readAs_field depth hkey hboth

end

/-! ## From tokens to the document -/

theorem itemTokens_cons_cons (item next : Json) (items : List Json) :
    itemTokens (item :: next :: items) =
      item.tokens ++ .comma :: itemTokens (next :: items) := by
  rw [itemTokens]
  exact nofun

theorem fieldTokens_cons_cons (key : Option String) (v : Json) (next : Option String × Json)
    (fields : List (Option String × Json)) :
    fieldTokens ((key, v) :: next :: fields) =
      .string key :: .colon :: (v.tokens ++ .comma :: fieldTokens (next :: fields)) := by
  rw [fieldTokens]
  exact nofun

/-- No item begins like the end of an array. -/
theorem exists_itemTokens_eq_cons (item : Json) (items : List Json) :
    ∃ token rest, itemTokens (item :: items) = token :: rest ∧ token ≠ .closeArray := by
  obtain ⟨token, rest, htokens, htoken⟩ :
      ∃ token rest, item.tokens = token :: rest ∧ token ≠ .closeArray := by
    cases item <;> exact ⟨_, _, by rw [tokens], by simp⟩
  cases items with
  | nil => exact ⟨token, rest, by rw [itemTokens, htokens], htoken⟩
  | cons next items =>
    refine ⟨token, rest ++ .comma :: itemTokens (next :: items), ?_, htoken⟩
    rw [itemTokens_cons_cons, htokens, List.cons_append]

/-- The first item is read as any other. -/
theorem foldlM_step_firstItem (item : Json) (items : List Json) (frames : List Frame)
    (rest : List Token) :
    (itemTokens (item :: items) ++ rest).foldlM Partial.step ⟨frames, .firstItem⟩ =
      (itemTokens (item :: items) ++ rest).foldlM Partial.step ⟨frames, .value⟩ := by
  obtain ⟨token, more, htokens, htoken⟩ := exists_itemTokens_eq_cons item items
  have hstep : Partial.step ⟨frames, .firstItem⟩ token = Partial.step ⟨frames, .value⟩ token := by
    cases token <;> first | contradiction | rfl
  rw [htokens, List.cons_append, List.foldlM_cons, List.foldlM_cons, hstep]

/-- The first key is read as any other. -/
theorem foldlM_step_firstKey (key : Option String) (v : Json)
    (fields : List (Option String × Json)) (frames : List Frame) (rest : List Token) :
    (fieldTokens ((key, v) :: fields) ++ rest).foldlM Partial.step ⟨frames, .firstKey⟩ =
      (fieldTokens ((key, v) :: fields) ++ rest).foldlM Partial.step ⟨frames, .key []⟩ := by
  cases fields <;> rfl

mutual

/-- The tokens of a value lead from a place where a value may stand to where it
is complete. -/
theorem foldlM_step_tokens : ∀ (value : Json) (frames : List Frame) (rest : List Token),
    (value.tokens ++ rest).foldlM Partial.step ⟨frames, .value⟩ =
      rest.foldlM Partial.step (.accept frames value)
  | .null, _, _ | .bool _, _, _ | .number _, _, _ | .string _, _, _ => by
    rw [tokens, List.singleton_append, List.foldlM_cons]
    rfl
  | .array [], _, _ => by
    rw [tokens, itemTokens]
    rfl
  | .object [], _, _ => by
    rw [tokens, fieldTokens]
    rfl
  | .array (item :: items), frames, rest => by
    rw [tokens, List.cons_append, List.append_assoc, List.foldlM_cons]
    show (itemTokens (item :: items) ++ .closeArray :: rest).foldlM Partial.step
      ⟨.array [] :: frames, .firstItem⟩ = _
    rw [foldlM_step_firstItem]
    exact foldlM_step_itemTokens (item :: items) [] frames rest nofun
  | .object ((key, v) :: fields), frames, rest => by
    rw [tokens, List.cons_append, List.append_assoc, List.foldlM_cons]
    show (fieldTokens ((key, v) :: fields) ++ .closeObject :: rest).foldlM Partial.step
      ⟨frames, .firstKey⟩ = _
    rw [foldlM_step_firstKey]
    exact foldlM_step_fieldTokens ((key, v) :: fields) [] frames rest nofun

/-- The tokens of the items that an array still lacks complete it. -/
theorem foldlM_step_itemTokens : ∀ (items done : List Json) (outer : List Frame)
    (rest : List Token), items ≠ [] →
    (itemTokens items ++ .closeArray :: rest).foldlM Partial.step ⟨.array done :: outer, .value⟩ =
      rest.foldlM Partial.step (.accept outer (.array (done.reverse ++ items)))
  | [], _, _, _, hitems => absurd rfl hitems
  | [item], done, outer, rest, _ => by
    rw [itemTokens, foldlM_step_tokens, ← List.reverse_cons]
    rfl
  | item :: next :: items, done, outer, rest, _ => by
    have hlater := foldlM_step_itemTokens (next :: items) (item :: done) outer rest nofun
    rw [itemTokens_cons_cons, List.append_assoc, foldlM_step_tokens,
      List.append_cons done.reverse, ← List.reverse_cons]
    exact hlater

/-- The tokens of the fields that an object still lacks complete it. -/
theorem foldlM_step_fieldTokens : ∀ (fields done : List (Option String × Json))
    (outer : List Frame) (rest : List Token), fields ≠ [] →
    (fieldTokens fields ++ .closeObject :: rest).foldlM Partial.step ⟨outer, .key done⟩ =
      rest.foldlM Partial.step (.accept outer (.object (done.reverse ++ fields)))
  | [], _, _, _, hfields => absurd rfl hfields
  | [(key, v)], done, outer, rest, _ => by
    rw [fieldTokens, ← List.reverse_cons]
    exact foldlM_step_tokens v (.object done key :: outer) (.closeObject :: rest)
  | (key, v) :: next :: fields, done, outer, rest, _ => by
    have hlater := foldlM_step_fieldTokens (next :: fields) ((key, v) :: done) outer rest nofun
    rw [fieldTokens_cons_cons, List.append_cons done.reverse, ← List.reverse_cons]
    show (v.tokens ++ .comma :: fieldTokens (next :: fields) ++ .closeObject :: rest).foldlM
      Partial.step ⟨.object done key :: outer, .value⟩ = _
    rw [List.append_assoc, foldlM_step_tokens]
    exact hlater

end

theorem ofTokens?_tokens (document : Json) : ofTokens? document.tokens = some document := by
  have hread := foldlM_step_tokens document [] []
  rw [List.append_nil] at hread
  rw [ofTokens?, hread]
  rfl

/-- A document that can be written is read back from its text. -/
theorem parse?_render {document : Json} (hdocument : document.Spelled) :
    parse? document.render = some document := by
  rw [parse?, render, ofText?_eq_some (readAs_renderAt 0 document hdocument)]
  exact ofTokens?_tokens document

end Rtti.Json
