import Rtti.Json.Token

/-!
# JSON documents

JSON values, their reading from text (`Json.parse?`) and their indented
writing (`Json.render`).  A document is read from its tokens with a stack of
the containers that are still open, so nesting may be of any depth.

`Json.fields?` and the readers after it take a value apart as a record: an
object with named fields, or an array of the fields in order.
-/

namespace Rtti

/-- A JSON value.  A string, as a value or as a key, holds the text that it
spells; there is none if it holds a lone surrogate. -/
inductive Json where
  | null
  | bool (value : Bool)
  | number (literal : String)
  | string (content : Option String)
  | array (items : List Json)
  | object (fields : List (Option String × Json))
  deriving Repr

namespace Json

/-! ## Reading -/

/-- A container that is still open; what it holds so far is in reverse
order. -/
inductive Frame where
  | array (items : List Json)
  /-- An object whose next field has the key `key`. -/
  | object (fields : List (Option String × Json)) (key : Option String)

/-- What may come next. -/
inductive Place where
  /-- A value. -/
  | value
  /-- A value, or the end of an array without items. -/
  | firstItem
  /-- A key. -/
  | key (fields : List (Option String × Json))
  /-- A key, or the end of an object without fields. -/
  | firstKey
  /-- The colon after a key. -/
  | colon (fields : List (Option String × Json)) (key : Option String)
  /-- A comma or the end of the innermost container. -/
  | comma
  /-- Nothing: the document is complete. -/
  | nothing (document : Json)

/-- A document read in part. -/
structure Partial where
  frames : List Frame := []
  place : Place := .value

/-- The part after a complete value. -/
def Partial.accept (frames : List Frame) (v : Json) : Partial :=
  match frames with
  | [] => ⟨[], .nothing v⟩
  | .array items :: outer => ⟨.array (v :: items) :: outer, .comma⟩
  | .object fields key :: outer => ⟨.object ((key, v) :: fields) key :: outer, .comma⟩

/-- The part after a token at which a value may begin. -/
def Partial.begin (frames : List Frame) : Token → Option Partial
  | .null => some (.accept frames .null)
  | .bool value => some (.accept frames (.bool value))
  | .number literal => some (.accept frames (.number literal))
  | .string content => some (.accept frames (.string content))
  | .openArray => some ⟨.array [] :: frames, .firstItem⟩
  | .openObject => some ⟨frames, .firstKey⟩
  | _ => none

/-- The part after one more token. -/
def Partial.step (part : Partial) (token : Token) : Option Partial :=
  match part.place with
  | .value => Partial.begin part.frames token
  | .firstItem =>
    match token, part.frames with
    | .closeArray, .array items :: outer => some (.accept outer (.array items.reverse))
    | token, frames => Partial.begin frames token
  | .key fields =>
    match token with
    | .string key => some { part with place := .colon fields key }
    | _ => none
  | .firstKey =>
    match token with
    | .string key => some { part with place := .colon [] key }
    | .closeObject => some (.accept part.frames (.object []))
    | _ => none
  | .colon fields key =>
    match token with
    | .colon => some ⟨.object fields key :: part.frames, .value⟩
    | _ => none
  | .comma =>
    match token, part.frames with
    | .comma, .array _ :: _ => some { part with place := .value }
    | .comma, .object fields _ :: outer => some ⟨outer, .key fields⟩
    | .closeArray, .array items :: outer => some (.accept outer (.array items.reverse))
    | .closeObject, .object fields _ :: outer => some (.accept outer (.object fields.reverse))
    | _, _ => none
  | .nothing _ => none

/-- The document of a list of tokens. -/
def ofTokens? (tokens : List Token) : Option Json :=
  match tokens.foldlM Partial.step {} with
  | some ⟨_, .nothing document⟩ => some document
  | _ => none

/-- The document of a text. -/
def parse? (text : String) : Option Json :=
  Token.ofText? text >>= ofTokens?

/-! ## Writing -/

/-- A character inside a string. -/
def escaped (c : Char) : List Char :=
  let n := c.toNat
  if c = '"' then ['\\', '"']
  else if c = '\\' then ['\\', '\\']
  else if n = 8 then ['\\', 'b']
  else if n = 9 then ['\\', 't']
  else if n = 10 then ['\\', 'n']
  else if n = 12 then ['\\', 'f']
  else if n = 13 then ['\\', 'r']
  else if n < 0x20 then ['\\', 'u'] ++ (Hexadecimal.padded .lower 4 n).toList
  else [c]

/-- A text as a string. -/
def quoted (text : String) : String :=
  "\"" ++ String.ofList (text.toList.flatMap escaped) ++ "\""

/-- A line break and the blanks of the nesting depth. -/
def lineBreak (depth : Nat) : String :=
  "\n" ++ String.ofList (List.replicate (2 * depth) ' ')

mutual

/-- The value with one item or field on a line, indented by two blanks for
each level; an empty container stays on its line. -/
def renderAt (depth : Nat) : Json → String
  | .null => "null"
  | .bool true => "true"
  | .bool false => "false"
  | .number literal => literal
  | .string content => quoted (content.getD "")
  | .array [] => "[]"
  | .array items => "[" ++ renderItems (depth + 1) items ++ lineBreak depth ++ "]"
  | .object [] => "\x7b\x7d"
  | .object fields => "\x7b" ++ renderFields (depth + 1) fields ++ lineBreak depth ++ "\x7d"

/-- The items of an array, each on a line of its own. -/
def renderItems (depth : Nat) : List Json → String
  | [] => ""
  | [item] => lineBreak depth ++ renderAt depth item
  | item :: rest => lineBreak depth ++ renderAt depth item ++ "," ++ renderItems depth rest

/-- The fields of an object, each on a line of its own. -/
def renderFields (depth : Nat) : List (Option String × Json) → String
  | [] => ""
  | [(key, v)] => lineBreak depth ++ quoted (key.getD "") ++ ": " ++ renderAt depth v
  | (key, v) :: rest =>
    lineBreak depth ++ quoted (key.getD "") ++ ": " ++ renderAt depth v ++ "," ++
      renderFields depth rest

end

/-- The document as text. -/
def render (document : Json) : String := renderAt 0 document

/-! ## Records -/

/-- The value of a named field among the fields of an object; nothing if the
field stands there twice. -/
def field? (fields : List (Option String × Json)) (name : String) : Option (Option Json) :=
  match fields.filter (fun f => f.1 = some name) with
  | [] => some none
  | [f] => some (some f.2)
  | _ => none

/-- The fields of a record with the given names, each absent or with its
value.  An object may hold other fields too, but no field twice and no key
that spells no text; an array holds the fields in order and no further
item. -/
def fields? (names : List String) : Json → Option (List (Option Json))
  | .object fields =>
    if fields.all (fun f => f.1.isSome) then names.mapM (field? fields) else none
  | .array items =>
    if items.length ≤ names.length then
      some ((List.range names.length).map fun i => items[i]?)
    else none
  | _ => none

/-- A text. -/
def text? : Json → Option String
  | .string content => content
  | _ => none

/-- A list of values that `read` accepts. -/
def list? {α : Type} (read : Json → Option α) : Json → Option (List α)
  | .array items => items.mapM read
  | _ => none

/-- An unsigned 64-bit number, written with digits only. -/
def word? : Json → Option Nat
  | .number literal =>
    if literal.toList.all Char.isDigit then
      let n := literal.toList.foldl (fun n c => 10 * n + (c.toNat - 48)) 0
      if n < 0x10000000000000000 then some n else none
    else none
  | _ => none

/-- An object as a map of values that `read` accepts. -/
def entries? {α : Type} (read : Json → Option α) : Json → Option (List (String × α))
  | .object fields => fields.mapM fun (key, v) => do return (← key, ← read v)
  | _ => none

/-- A choice among named alternatives: the name, or an object with the name
as its one key and null as its value. -/
def choice? {α : Type} (names : List (String × α)) : Json → Option α
  | .string (some name) => names.lookup name
  | .object [(some name, .null)] => names.lookup name
  | _ => none

end Json

end Rtti
