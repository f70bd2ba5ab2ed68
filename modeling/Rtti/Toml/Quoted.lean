import Rtti.Text.Hexadecimal
import Rtti.Text.Utf8

/-!
# Quoted text in TOML

The four forms of a TOML string.  A basic string has escapes and a literal
string has none; each may be written on one line between single delimiters,
or as a block between triple ones.  Reading accepts all four, and
`Quoted.encode` chooses the plainest form that can hold a text.
-/

namespace Rtti.Toml.Quoted

/-! ## Reading -/

/-- Whether a character may stand for itself in quoted text. -/
def isPlain (c : Char) : Bool :=
  c = '\t' || (0x20 ≤ c.toNat && c.toNat ≠ 0x7F)

/-- The character of a short escape. -/
def ofEscape? : Char → Option Char
  | 'b' => some '\x08'
  | 't' => some '\t'
  | 'n' => some '\n'
  | 'f' => some '\x0c'
  | 'r' => some '\r'
  | '"' => some '"'
  | '\\' => some '\\'
  | _ => none

/-- The character of the number that the digits spell. -/
def ofDigits? (digits : List Char) : Option Char :=
  Hexadecimal.value? digits >>= Utf8.scalar?

/-- What becomes of reading a quoted text: the text and the characters after
it, or nothing. -/
abbrev Read := Option (String × List Char)

/-- Reads the rest of a basic string on one line, after `done`, which is held
in reverse order. -/
def basicLine (done : List Char) : List Char → Read
  | '"' :: rest => some (String.ofList done.reverse, rest)
  | '\\' :: 'u' :: a :: b :: c :: d :: rest =>
    (ofDigits? [a, b, c, d]).bind fun x => basicLine (x :: done) rest
  | '\\' :: 'U' :: a :: b :: c :: d :: e :: f :: g :: h :: rest =>
    (ofDigits? [a, b, c, d, e, f, g, h]).bind fun x => basicLine (x :: done) rest
  | '\\' :: c :: rest => (ofEscape? c).bind fun x => basicLine (x :: done) rest
  | c :: rest => if isPlain c then basicLine (c :: done) rest else none
  | [] => none

/-- Where the reader of a basic block stands. -/
inductive BlockMode where
  | text
  /-- After a backslash. -/
  | escape
  /-- After a backslash and blanks that must lead to a line break. -/
  | blanks
  /-- After an escaped line break, where white space is skipped. -/
  | skip
  deriving DecidableEq

/-- Reads the rest of a basic block. -/
def basicBlock (done : List Char) : BlockMode → List Char → Read
  | .escape, 'u' :: a :: b :: c :: d :: rest =>
    (ofDigits? [a, b, c, d]).bind fun x => basicBlock (x :: done) .text rest
  | .escape, 'U' :: a :: b :: c :: d :: e :: f :: g :: h :: rest =>
    (ofDigits? [a, b, c, d, e, f, g, h]).bind fun x => basicBlock (x :: done) .text rest
  | .escape, ' ' :: rest => basicBlock done .blanks rest
  | .escape, '\t' :: rest => basicBlock done .blanks rest
  | .escape, '\n' :: rest => basicBlock done .skip rest
  | .escape, '\r' :: '\n' :: rest => basicBlock done .skip rest
  | .escape, c :: rest => (ofEscape? c).bind fun x => basicBlock (x :: done) .text rest
  | .blanks, ' ' :: rest => basicBlock done .blanks rest
  | .blanks, '\t' :: rest => basicBlock done .blanks rest
  | .blanks, '\n' :: rest => basicBlock done .skip rest
  | .blanks, '\r' :: '\n' :: rest => basicBlock done .skip rest
  | .blanks, _ => none
  | .skip, ' ' :: rest => basicBlock done .skip rest
  | .skip, '\t' :: rest => basicBlock done .skip rest
  | .skip, '\n' :: rest => basicBlock done .skip rest
  | .skip, '\r' :: '\n' :: rest => basicBlock done .skip rest
  | _, '"' :: '"' :: '"' :: '"' :: '"' :: rest =>
    some (String.ofList ('"' :: '"' :: done).reverse, rest)
  | _, '"' :: '"' :: '"' :: '"' :: rest => some (String.ofList ('"' :: done).reverse, rest)
  | _, '"' :: '"' :: '"' :: rest => some (String.ofList done.reverse, rest)
  | _, '\\' :: rest => basicBlock done .escape rest
  | _, '\r' :: '\n' :: rest => basicBlock ('\n' :: done) .text rest
  | _, c :: rest =>
    if isPlain c || c = '\n' then basicBlock (c :: done) .text rest else none
  | _, [] => none

/-- Reads the rest of a literal string on one line. -/
def literalLine (done : List Char) : List Char → Read
  | '\'' :: rest => some (String.ofList done.reverse, rest)
  | c :: rest => if isPlain c then literalLine (c :: done) rest else none
  | [] => none

/-- Reads the rest of a literal block. -/
def literalBlock (done : List Char) : List Char → Read
  | '\'' :: '\'' :: '\'' :: '\'' :: '\'' :: rest =>
    some (String.ofList ('\'' :: '\'' :: done).reverse, rest)
  | '\'' :: '\'' :: '\'' :: '\'' :: rest => some (String.ofList ('\'' :: done).reverse, rest)
  | '\'' :: '\'' :: '\'' :: rest => some (String.ofList done.reverse, rest)
  | '\r' :: '\n' :: rest => literalBlock ('\n' :: done) rest
  | c :: rest => if isPlain c || c = '\n' then literalBlock (c :: done) rest else none
  | [] => none

/-- The characters after a line break, if one comes first. -/
def dropBreak : List Char → List Char
  | '\n' :: rest => rest
  | '\r' :: '\n' :: rest => rest
  | rest => rest

/-- Reads quoted text on one line. -/
def line : List Char → Read
  | '"' :: rest => basicLine [] rest
  | '\'' :: rest => literalLine [] rest
  | _ => none

/-- Reads quoted text; a line break at the start of a block is not part of
it. -/
def decode : List Char → Read
  | '"' :: '"' :: '"' :: rest => basicBlock [] .text (dropBreak rest)
  | '\'' :: '\'' :: '\'' :: rest => literalBlock [] (dropBreak rest)
  | cs => line cs

/-! ## Writing -/

/-- The length of the longest run of a character. -/
def longestRun (c : Char) (cs : List Char) : Nat :=
  (cs.foldl (fun (longest, current) x =>
    if x = c then (max longest (current + 1), current + 1) else (longest, 0)) (0, 0)).1

/-- Whether a character can be written only as an escape. -/
def needsEscape (c : Char) : Bool :=
  (c.toNat < 0x20 && c ≠ '\t' && c ≠ '\n') || c.toNat = 0x7F

/-- A character in a basic string. -/
def escaped (c : Char) : List Char :=
  let n := c.toNat
  if n = 8 then ['\\', 'b']
  else if n = 9 then ['\\', 't']
  else if n = 10 then ['\\', 'n']
  else if n = 12 then ['\\', 'f']
  else if n = 13 then ['\\', 'r']
  else if c = '"' then ['\\', '"']
  else if c = '\\' then ['\\', '\\']
  else if needsEscape c then ['\\', 'u'] ++ (Hexadecimal.padded .upper 4 n).toList
  else [c]

/-- The characters in a basic block, after `quotes` quotes in a row.  A quote
is escaped only if it is the third in a row. -/
def escapedBlock (quotes : Nat) : List Char → List Char
  | [] => []
  | '"' :: rest =>
    if quotes = 2 then ['\\', '"'] ++ escapedBlock 0 rest else '"' :: escapedBlock (quotes + 1) rest
  | '\n' :: rest => '\n' :: escapedBlock 0 rest
  | c :: rest => escaped c ++ escapedBlock 0 rest

/-- The text in quotes, in the plainest form that can hold it: basic without
escapes, literal, basic block, literal block, and at last basic with
escapes. -/
def encode (text : String) : String :=
  let cs := text.toList
  let hasBreak := cs.contains '\n'
  let hasControl := cs.any needsEscape
  let hasBackslash := cs.contains '\\'
  let doubles := longestRun '"' cs
  let singles := longestRun '\'' cs
  let opening := if hasBreak then "\n" else ""
  let basic := "\"" ++ String.ofList (cs.flatMap escaped) ++ "\""
  let block := "\"\"\"" ++ opening ++ String.ofList (escapedBlock 0 cs) ++ "\"\"\""
  if !hasControl && !hasBackslash && doubles = 0 && !hasBreak then basic
  else if !hasControl && singles = 0 && !hasBreak then "'" ++ text ++ "'"
  else if !hasControl && !hasBackslash && doubles ≤ 2 then block
  else if !hasControl && singles ≤ 2 then "'''" ++ opening ++ text ++ "'''"
  else if hasBreak then block
  else basic

end Rtti.Toml.Quoted
