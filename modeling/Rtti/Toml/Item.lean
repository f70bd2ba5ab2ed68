/-!
# TOML tables

The items of a TOML document and the rules by which its tables grow.  A
table comes to be by a header of its own, in passing by the header of a table
inside it, by a dotted key, or written inline; where it came from decides
whether it may be reopened.
-/

namespace Rtti.Toml

/-- How a table came to be. -/
inductive Origin where
  /-- By its own header; the document itself counts as such. -/
  | header
  /-- In passing, by the header of a table inside it. -/
  | passing
  /-- In passing, by a dotted key. -/
  | dotted
  /-- Written inline. -/
  | inlined
  deriving Repr, DecidableEq

/-- A value or a table.  Of floating-point numbers and of dates it is only
kept that they are there. -/
inductive Item where
  | text (content : String)
  | integer (n : Int)
  | float
  | boolean (value : Bool)
  | date
  | array (items : List Item)
  | table (origin : Origin) (fields : List (String × Item))
  /-- An array of tables that were begun by headers, the latest first. -/
  | tables (elements : List (List (String × Item)))
  deriving Repr

/-- The fields of a table, in the order in which they came. -/
abbrev Fields := List (String × Item)

namespace Fields

/-- The fields with another item under a key that is there. -/
def set (fields : Fields) (key : String) (item : Item) : Fields :=
  fields.map fun field => if field.1 = key then (key, item) else field

/-- Changes the table that a path leads to.  Missing tables on the way are
made as `made` says; a table made by a header is closed to dotted keys, and
an inline table to everything.  An array of tables leads to its latest
table. -/
def change (made : Origin) (f : Origin → Fields → Option Fields) :
    (path : List String) → (origin : Origin) → Fields → Option Fields
  | [], origin, fields => f origin fields
  | key :: path, _, fields =>
    match fields.lookup key with
    | none => do
      let inner ← change made f path made []
      return fields ++ [(key, .table made inner)]
    | some (.table origin inner) =>
      if origin = .inlined ∨ (made = .dotted ∧ origin = .header) then none
      else do
        let inner ← change made f path origin inner
        return set fields key (.table origin inner)
    | some (.tables (latest :: others)) => do
      let latest ← change made f path .header latest
      return set fields key (.tables (latest :: others))
    | some _ => none

/-- The fields with a new one. -/
def add (fields : Fields) (key : String) (item : Item) : Option Fields :=
  if (fields.lookup key).isSome then none else some (fields ++ [(key, item)])

/-- Sets a dotted key that is not set yet.  All but the first table of its
path must have come to be by dotted keys. -/
def insertDotted (fields : Fields) (path : List String) (item : Item) : Option Fields := do
  let key ← path.getLast?
  let outer := path.dropLast
  change .dotted (fun origin fields =>
    if !outer.isEmpty && origin ≠ .dotted then none else fields.add key item) outer .header fields

/-- Begins the table of a header, which may be there only in passing. -/
def beginTable (fields : Fields) (path : List String) : Option Fields := do
  let key ← path.getLast?
  change .passing (fun _ fields =>
    match fields.lookup key with
    | none => some (fields ++ [(key, .table .header [])])
    | some (.table .passing inner) => some (fields.set key (.table .header inner))
    | some _ => none) path.dropLast .header fields

/-- Begins the next table of an array of tables. -/
def beginElement (fields : Fields) (path : List String) : Option Fields := do
  let key ← path.getLast?
  change .passing (fun _ fields =>
    match fields.lookup key with
    | none => some (fields ++ [(key, .tables [[]])])
    | some (.tables elements) => some (fields.set key (.tables ([] :: elements)))
    | some _ => none) path.dropLast .header fields

end Fields

end Rtti.Toml
