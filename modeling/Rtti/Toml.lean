import Rtti.Toml.Number
import Rtti.Toml.Quoted

/-!
# TOML documents

The reading of a TOML document: lines with a key and a value, with the header
of a table, with a comment, or with nothing.  Values contain each other, and
their readers are recursive in `fuel`, of which there is as much as there are
characters, so it never runs out.
-/

namespace Rtti.Toml

/-! ## Blanks and lines -/

/-- Whether a character is a blank inside a line. -/
def isBlank (c : Char) : Bool := c = ' ' || c = '\t'

/-- The characters after leading blanks. -/
def dropBlanks (cs : List Char) : List Char := cs.dropWhile isBlank

/-- The characters after leading blanks, line breaks and comments. -/
def dropGap (inComment : Bool) : List Char → List Char
  | '\n' :: rest => dropGap false rest
  | '\r' :: '\n' :: rest => dropGap false rest
  | c :: rest =>
    if inComment && Quoted.isPlain c then dropGap true rest
    else if isBlank c then dropGap false rest
    else if c = '#' then dropGap true rest
    else c :: rest
  | [] => []

/-- The characters after the end of a line, before which only blanks and a
comment may stand. -/
def endLine (cs : List Char) : Option (List Char) :=
  let rest := match dropBlanks cs with
    | '#' :: comment => comment.dropWhile Quoted.isPlain
    | rest => rest
  match rest with
  | [] => some []
  | '\n' :: rest => some rest
  | '\r' :: '\n' :: rest => some rest
  | _ => none

/-! ## Keys -/

/-- Whether a character may stand in a key without quotes. -/
def isBare (c : Char) : Bool := c.isAlphanum || c = '_' || c = '-'

/-- Reads one part of a key. -/
def keyPart (cs : List Char) : Option (String × List Char) :=
  match cs.span isBare with
  | ([], _) => Quoted.line cs
  | (part, rest) => some (String.ofList part, rest)

/-- Reads a key of parts with dots between them, and the blanks around
it. -/
def key : (fuel : Nat) → List Char → Option (List String × List Char)
  | 0, _ => none
  | fuel + 1, cs => do
    let (part, rest) ← keyPart (dropBlanks cs)
    match dropBlanks rest with
    | '.' :: rest =>
      let (parts, rest) ← key fuel rest
      return (part :: parts, rest)
    | rest => return ([part], rest)

/-! ## Values -/

/-- How deep arrays and inline tables may be nested, and how many parts a key
may have. -/
def maxDepth : Nat := 79

mutual

/-- Reads a value that may nest `depth` levels deep. -/
def value (depth : Nat) : (fuel : Nat) → List Char → Option (Item × List Char)
  | 0, _ => none
  | fuel + 1, cs =>
    match cs with
    | '[' :: rest => do
      if depth = 0 then none
      else
        let (values, rest) ← items (depth - 1) fuel (dropGap false rest)
        return (.array values, rest)
    | '\x7b' :: rest => do
      if depth = 0 then none
      else
        match dropBlanks rest with
        | '\x7d' :: rest => return (.table .inlined [], rest)
        | rest =>
          let (fields, rest) ← pairs (depth - 1) [] fuel rest
          return (.table .inlined fields, rest)
    | 't' :: 'r' :: 'u' :: 'e' :: rest => some (.boolean true, rest)
    | 'f' :: 'a' :: 'l' :: 's' :: 'e' :: rest => some (.boolean false, rest)
    | cs =>
      match Quoted.decode cs with
      | some (text, rest) => some (.text text, rest)
      | none => numberOrDate cs

/-- Reads the items of an array and its closing bracket. -/
def items (depth : Nat) : (fuel : Nat) → List Char → Option (List Item × List Char)
  | 0, _ => none
  | fuel + 1, cs =>
    match cs with
    | ']' :: rest => some ([], rest)
    | cs => do
      let (item, rest) ← value depth fuel cs
      match dropGap false rest with
      | ',' :: rest =>
        let (more, rest) ← items depth fuel (dropGap false rest)
        return (item :: more, rest)
      | ']' :: rest => return ([item], rest)
      | _ => none

/-- Reads the pairs of an inline table after the given ones, and its closing
brace. -/
def pairs (depth : Nat) (fields : Fields) : (fuel : Nat) → List Char → Option (Fields × List Char)
  | 0, _ => none
  | fuel + 1, cs => do
    let (path, rest) ← key maxDepth cs
    match rest with
    | '=' :: rest =>
      let (item, rest) ← value depth fuel (dropBlanks rest)
      let fields ← fields.insertDotted path item
      match dropBlanks rest with
      | ',' :: rest => pairs depth fields fuel rest
      | '\x7d' :: rest => return (fields, rest)
      | _ => none
    | _ => none

end

/-! ## Documents -/

/-- A document read in part. -/
structure Draft where
  /-- The fields so far. -/
  root : Fields := []
  /-- The path of the table that the next keys belong to. -/
  current : List String := []

/-- Sets a key in the current table. -/
def Draft.set (draft : Draft) (path : List String) (item : Item) : Option Draft := do
  let root ← Fields.change .passing (fun _ fields => fields.insertDotted path item)
    draft.current .header draft.root
  return { draft with root }

/-- Reads one line that is not empty. -/
def Draft.line (draft : Draft) (fuel : Nat) (cs : List Char) : Option (Draft × List Char) :=
  match cs with
  | '[' :: '[' :: rest => do
    let (path, rest) ← key maxDepth rest
    match rest with
    | ']' :: ']' :: rest => return (⟨← draft.root.beginElement path, path⟩, rest)
    | _ => none
  | '[' :: rest => do
    let (path, rest) ← key maxDepth rest
    match rest with
    | ']' :: rest => return (⟨← draft.root.beginTable path, path⟩, rest)
    | _ => none
  | cs => do
    let (path, rest) ← key maxDepth cs
    match rest with
    | '=' :: rest =>
      let (item, rest) ← value maxDepth fuel (dropBlanks rest)
      return (← draft.set path item, rest)
    | _ => none

/-- Reads the remaining lines of a document. -/
def Draft.lines (draft : Draft) : (fuel : Nat) → List Char → Option Fields
  | 0, _ => none
  | fuel + 1, cs =>
    match dropGap false cs with
    | [] => some draft.root
    | cs => do
      let (draft, rest) ← draft.line (cs.length + 1) cs
      draft.lines fuel (← endLine rest)

/-- The fields of a document.  A byte order mark may come first. -/
def parse? (text : String) : Option Fields :=
  let cs := match text.toList with
    | '\uFEFF' :: rest => rest
    | cs => cs
  Draft.lines {} (cs.length + 1) cs

end Rtti.Toml
