import Rtti.Text.Hexadecimal
import Rtti.Text.Utf16

/-!
# JSON tokens

The tokens of a JSON text, found by one pass over its characters with a
small state (`Token.Scan`).  A string may hold `\u` escapes of single
surrogates; such a string is well-formed, but spells no text, and its token
says so.
-/

namespace Rtti.Json

/-- A token of a JSON text. -/
inductive Token where
  | openArray
  | closeArray
  | openObject
  | closeObject
  | colon
  | comma
  | null
  | bool (value : Bool)
  /-- A number, as it is written. -/
  | number (literal : String)
  /-- A string and the text that it spells, if it spells one. -/
  | string (content : Option String)
  deriving Repr, DecidableEq

namespace Token

/-! ## What a string spells -/

/-- An element of a string: a character as itself or from a short escape, or
the UTF-16 code unit of a `\u` escape. -/
inductive Piece where
  | char (c : Char)
  | unit (n : Nat)
  deriving Repr, DecidableEq

/-- The characters of the pieces, put after `done`, which is held in reverse
order; nothing if a surrogate stands alone. -/
def spellOnto (done : List Char) : List Piece → Option (List Char)
  | [] => some done.reverse
  | .char c :: rest => spellOnto (c :: done) rest
  | .unit n :: rest =>
    if Utf16.isHigh n then
      match rest with
      | .unit low :: rest =>
        if Utf16.isLow low then
          (Utf8.scalar? (Utf16.pairValue n low)).bind fun c => spellOnto (c :: done) rest
        else none
      | _ => none
    else (Utf8.scalar? n).bind fun c => spellOnto (c :: done) rest

/-- The text of the pieces. -/
def spell (pieces : List Piece) : Option String :=
  (spellOnto [] pieces).map String.ofList

/-! ## Literals -/

/-- The rest after one or more digits. -/
def digits? (cs : List Char) : Option (List Char) :=
  match cs.span Char.isDigit with
  | ([], _) => none
  | (_, rest) => some rest

/-- The rest after a whole part: zero, or digits that start with no zero. -/
def whole? : List Char → Option (List Char)
  | '0' :: rest => some rest
  | cs => digits? cs

/-- The rest after an optional fraction. -/
def fraction? : List Char → Option (List Char)
  | '.' :: rest => digits? rest
  | cs => some cs

/-- The rest after an optional exponent. -/
def exponent? : List Char → Option (List Char)
  | c :: rest =>
    if c = 'e' ∨ c = 'E' then
      match rest with
      | '+' :: rest => digits? rest
      | '-' :: rest => digits? rest
      | rest => digits? rest
    else some (c :: rest)
  | [] => some []

/-- Whether the characters are a number. -/
def isNumber (cs : List Char) : Bool :=
  let unsigned := match cs with
    | '-' :: rest => rest
    | cs => cs
  (whole? unsigned >>= fraction? >>= exponent?) == some []

/-- The token of a run of characters outside strings. -/
def ofBare? (cs : List Char) : Option Token :=
  if cs = "null".toList then some .null
  else if cs = "true".toList then some (.bool true)
  else if cs = "false".toList then some (.bool false)
  else if isNumber cs then some (.number (String.ofList cs))
  else none

/-! ## The pass over the characters -/

/-- Where the pass stands. -/
inductive Mode where
  /-- Between tokens. -/
  | gap
  /-- In a word or number, of which these characters are read. -/
  | bare (cs : List Char)
  /-- In a string, of which these pieces are read. -/
  | quoted (pieces : List Piece)
  /-- After a backslash in a string. -/
  | escape (pieces : List Piece)
  /-- In a `\u` escape that lacks `missing` digits. -/
  | unit (pieces : List Piece) (missing value : Nat)

/-- The pass after some characters; the lists in it are held in reverse
order. -/
structure Scan where
  mode : Mode := .gap
  found : List Token := []

/-- Whether white space may be this character. -/
def isSpace (c : Char) : Bool :=
  c = ' ' || c = '\n' || c = '\t' || c = '\r'

/-- The token that is this one character. -/
def ofMark? : Char → Option Token
  | '[' => some .openArray
  | ']' => some .closeArray
  | '\x7b' => some .openObject
  | '\x7d' => some .closeObject
  | ':' => some .colon
  | ',' => some .comma
  | _ => none

/-- The character of a short escape. -/
def ofEscape? : Char → Option Char
  | '"' => some '"'
  | '\\' => some '\\'
  | '/' => some '/'
  | 'b' => some '\x08'
  | 'f' => some '\x0c'
  | 'n' => some '\n'
  | 'r' => some '\r'
  | 't' => some '\t'
  | _ => none

/-- A character between tokens. -/
def Scan.start (found : List Token) (c : Char) : Scan :=
  if isSpace c then ⟨.gap, found⟩
  else if c = '"' then ⟨.quoted [], found⟩
  else match ofMark? c with
    | some token => ⟨.gap, token :: found⟩
    | none => ⟨.bare [c], found⟩

/-- The pass after one more character. -/
def Scan.step (scan : Scan) (c : Char) : Option Scan :=
  match scan.mode with
  | .gap => some (.start scan.found c)
  | .bare cs =>
    if isSpace c || c = '"' || (ofMark? c).isSome then
      (ofBare? cs.reverse).map fun token => .start (token :: scan.found) c
    else some { scan with mode := .bare (c :: cs) }
  | .quoted pieces =>
    if c = '"' then some ⟨.gap, .string (spell pieces.reverse) :: scan.found⟩
    else if c = '\\' then some { scan with mode := .escape pieces }
    else if c.toNat < 0x20 then none
    else some { scan with mode := .quoted (.char c :: pieces) }
  | .escape pieces =>
    if c = 'u' then some { scan with mode := .unit pieces 4 0 }
    else (ofEscape? c).map fun e => { scan with mode := .quoted (.char e :: pieces) }
  | .unit pieces missing value =>
    (Hexadecimal.digitValue? c).map fun d =>
      let value := 16 * value + d
      if missing ≤ 1 then { scan with mode := .quoted (.unit value :: pieces) }
      else { scan with mode := .unit pieces (missing - 1) value }

/-- The tokens of a pass that has reached the end of the text. -/
def Scan.finish (scan : Scan) : Option (List Token) :=
  match scan.mode with
  | .gap => some scan.found.reverse
  | .bare cs => (ofBare? cs.reverse).map fun token => (token :: scan.found).reverse
  | _ => none

/-- The tokens of a text. -/
def ofText? (text : String) : Option (List Token) :=
  text.toList.foldlM Scan.step {} >>= Scan.finish

end Token

end Rtti.Json
