import Rtti.DecoratedName.Syntax
import Rtti.Text.Hexadecimal

/-!
# Reading decorated names

A decoration spells names from the inside to the outside, each ended by `@`,
and types by letters.  The first ten different names, and the first ten
different types of more than one character, can be repeated by a digit; a
template has lists of its own for this.

Names and types contain each other, so their readers are recursive in a
depth, and `symbol?` begins with more depth than the characters of a
decoration can use up.
-/

namespace Rtti.DecoratedName

/-- A decoration read in part. -/
structure Cursor where
  /-- The characters that are still to be read. -/
  rest : List Char
  /-- The names that can be repeated. -/
  names : List Name := []
  /-- The types that can be repeated. -/
  types : List CxxType := []

/-- A reader of a part of a decoration. -/
abbrev Reader := StateT Cursor Option

namespace Reader

/-! ## Characters -/

/-- The characters that are still to be read. -/
def rest : Reader (List Char) := return (← get).rest

/-- Goes on at the given characters. -/
def goTo (cs : List Char) : Reader Unit := modify fun cursor => { cursor with rest := cs }

/-- Reads the given characters if they come next, and says whether it
did. -/
def accept (text : String) : Reader Bool := do
  let cs ← rest
  if text.toList.isPrefixOf cs then
    goTo (cs.drop text.length)
    return true
  else return false

/-- Reads the given characters. -/
def expect (text : String) : Reader Unit := do
  unless ← accept text do failure

/-- Reads one character. -/
def next : Reader Char := do
  match ← rest with
  | [] => failure
  | c :: cs =>
    goTo cs
    return c

/-- Reads one character if `p` gives it a meaning. -/
def meaning? {α : Type} (p : Char → Option α) : Reader (Option α) := do
  match ← rest with
  | [] => return none
  | c :: cs =>
    match p c with
    | none => return none
    | some value =>
      goTo cs
      return some value

/-- The value of a decimal digit. -/
def digitValue? (c : Char) : Option Nat :=
  if c.isDigit then some (c.toNat - 48) else none

/-- Reads the characters up to the next `@`, and that sign. -/
def text : Reader String := do
  match (← rest).span (· ≠ '@') with
  | (_, []) => failure
  | (cs, _ :: after) =>
    goTo after
    return String.ofList cs

/-- The number of a digit from `A`, zero, to `P`, fifteen. -/
def letterValue? (c : Char) : Option Nat :=
  if 'A' ≤ c ∧ c ≤ 'P' then some (c.toNat - 65) else none

/-- The signed 32-bit number with the same low bits. -/
def wrapped (n : Int) : Int := Int.bmod n 0x100000000

/-- Reads a number: one decimal digit for one to ten, or letters as digits
of base sixteen ended by `@`.  A question mark in front negates it. -/
def number : Reader Int := do
  let negative ← accept "?"
  let magnitude : Int ← do
    match ← meaning? digitValue? with
    | some d => pure (d + 1)
    | none =>
      match (← text).toList.mapM letterValue? with
      | some ds => pure (wrapped (ds.foldl (fun n d => 16 * n + d) 0 : Nat))
      | none => failure
  return if negative then wrapped (-magnitude) else magnitude

/-! ## Repetition -/

/-- The number of names, and of types, that can be repeated. -/
def memory : Nat := 10

/-- Makes a name repeatable. -/
def rememberName (name : Name) : Reader Unit :=
  modify fun cursor =>
    if cursor.names.length < memory ∧ name ∉ cursor.names then
      { cursor with names := cursor.names ++ [name] }
    else cursor

/-- Makes a type repeatable. -/
def rememberType (type : CxxType) : Reader Unit :=
  modify fun cursor =>
    if cursor.types.length < memory ∧ type ∉ cursor.types then
      { cursor with types := cursor.types ++ [type] }
    else cursor

/-- The name that a digit repeats. -/
def nameAt (index : Nat) : Reader Name := do
  match (← get).names[index]? with
  | some name => return name
  | none => failure

/-- The type that a digit repeats. -/
def typeAt (index : Nat) : Reader CxxType := do
  match (← get).types[index]? with
  | some type => return type
  | none => failure

/-! ## Letters with a fixed meaning -/

/-- The qualifiers of a letter before the result of a member function. -/
def resultQualifiers? : Char → Option Qualifiers
  | 'A' => some {}
  | 'B' => some { isConst := true }
  | 'C' => some { isVolatile := true }
  | 'D' => some { isConst := true, isVolatile := true }
  | _ => none

/-- The qualifiers of a letter before a member function. -/
def nearQualifiers? : Char → Option Qualifiers
  | 'Q' => some {}
  | 'R' => some { isConst := true }
  | 'S' => some { isVolatile := true }
  | 'T' => some { isConst := true, isVolatile := true }
  | c => resultQualifiers? c

/-- The qualifiers of a letter before the target of an indirection. -/
def targetQualifiers? : Char → Option Qualifiers
  | 'E' => some { isFar := true }
  | 'F' => some { isConst := true, isFar := true }
  | 'G' => some { isVolatile := true, isFar := true }
  | 'H' => some { isConst := true, isVolatile := true, isFar := true }
  | c => nearQualifiers? c

/-- The qualifiers of a letter before the items of an array. -/
def itemQualifiers? : Char → Option Qualifiers
  | 'A' => some {}
  | 'B' => some { isConst := true }
  | 'C' | 'D' => some { isConst := true, isVolatile := true }
  | _ => none

/-- The calling convention of a letter. -/
def convention? : Char → Option Convention
  | 'A' | 'B' => some .cdecl
  | 'C' => some .pascal
  | 'E' => some .thiscall
  | 'G' => some .stdcall
  | 'I' => some .fastcall
  | _ => none

/-- The built-in type of a letter. -/
def basic? : Char → Option String
  | 'X' => some "void"
  | 'D' => some "char"
  | 'C' => some "signed char"
  | 'E' => some "unsigned char"
  | 'F' => some "short"
  | 'G' => some "unsigned short"
  | 'H' => some "int"
  | 'I' => some "unsigned int"
  | 'J' => some "long"
  | 'K' => some "unsigned long"
  | 'M' => some "float"
  | 'N' => some "double"
  | 'O' => some "long double"
  | _ => none

/-- The built-in type of a letter after an underscore. -/
def extendedBasic? : Char → Option String
  | 'N' => some "bool"
  | 'J' => some "int64_t"
  | 'K' => some "uint64_t"
  | 'L' => some "int128_t"
  | 'M' => some "uint128_t"
  | 'W' => some "wchar_t"
  | 'Q' => some "char8_t"
  | 'S' => some "char16_t"
  | 'U' => some "char32_t"
  | _ => none

/-- The tag of a letter. -/
def tag? : Char → Option String
  | 'T' => some "union"
  | 'U' => some "struct"
  | 'V' => some "class"
  | _ => none

/-- The indirection of a letter.  Some letters tell its qualifiers as well,
which then stand in place of those spelled before. -/
def indirection? : Char → Option (Indirection × Option Qualifiers)
  | 'A' => some (.reference, none)
  | 'B' => some (.reference, some { isVolatile := true })
  | 'P' => some (.pointer, none)
  | 'Q' => some (.pointer, some { isConst := true })
  | 'R' => some (.pointer, some { isVolatile := true })
  | 'S' => some (.pointer, some { isConst := true, isVolatile := true })
  | _ => none

/-- Reads a letter that `p` gives a meaning. -/
def letter {α : Type} (p : Char → Option α) : Reader α := do
  match p (← next) with
  | some value => return value
  | none => failure

/-- Reads the letter of a calling convention. -/
def convention : Reader Convention := letter convention?

/-- The reference of a letter by which an object must be given. -/
def receiverReference? : Char → Option Indirection
  | 'G' => some .reference
  | 'H' => some .rvalueReference
  | _ => none

/-- Reads what a member function demands of its object. -/
def receiver : Reader Receiver := do
  let wide ← accept "E"
  let restrict ← accept "I"
  let unaligned ← accept "F"
  let reference ← meaning? receiverReference?
  let own := (← meaning? nearQualifiers?).getD {}
  return {
    qualifiers := { own with isWide := wide, isRestrict := restrict, isUnaligned := unaligned }
    reference }

/-- The functions of a class have eight letters for each access, two for each
way to reach them, of which the second is for a far function; two letters
remain for functions that belong to no class.  The letters `D` and `F` have
the meaning of `C` and `E`: the static and the virtual functions that only
their own class may use are never far. -/
def functionKind? (c : Char) : Option FunctionKind := do
  guard ('A' ≤ c ∧ c ≤ 'Z')
  let index := c.toNat - 65
  let access ← [Access.ownClass, .derivedClasses, .everyone, .unowned][index / 8]?
  let dispatch ← [Dispatch.direct, .static, .virtual, .adjusted][index % 8 / 2]?
  return { access, dispatch, isFar := index % 2 = 1 ∧ c ∉ ['D', 'F'] }

/-- Reads the kind of a function, and the number by which its object pointer
moves. -/
def functionKind : Reader FunctionKind := do
  let kind ← letter functionKind?
  if kind.dispatch = .adjusted then
    let _ ← number
  return kind

/-- A placeholder for a template parameter. -/
def placeholder (n : Int) : CxxType :=
  .literal ("`template-parameter" ++ toString n ++ "'")

/-! ## Names and types -/

/-- Reads the rest of the name of an anonymous namespace. -/
def anonymousNamespace : Reader Name := do
  if ← accept "0x" then
    let (digits, after) := (← rest).span Hexadecimal.isDigit
    goTo after
    expect "@"
    let name := Name.anonymousNamespace (some (String.ofList digits))
    rememberName name
    return name
  else
    expect "@"
    return .anonymousNamespace none

mutual

/-- Reads a name with its scopes.  A template is made repeatable if
`remembered` says so. -/
def path (remembered : Bool) : (depth : Nat) → Reader Path
  | 0 => failure
  | depth + 1 => do
    let name ← unqualified remembered depth
    let scopes ← scopes depth
    return .ofNames name scopes

/-- Reads a name without its scopes. -/
def unqualified (remembered : Bool) : (depth : Nat) → Reader Name
  | 0 => failure
  | depth + 1 => do
    match ← meaning? digitValue? with
    | some index => nameAt index
    | none =>
      if ← accept "?$" then
        let name ← template depth
        if remembered then rememberName name
        return name
      else if ← accept "?" then failure
      else
        let name := Name.plain (← text)
        rememberName name
        return name

/-- Reads scopes up to the `@` that ends them. -/
def scopes : (depth : Nat) → Reader (List Name)
  | 0 => failure
  | depth + 1 => do
    if ← accept "@" then return []
    else
      let scope ← scope depth
      let outer ← scopes depth
      return scope :: outer

/-- Reads one scope. -/
def scope : (depth : Nat) → Reader Name
  | 0 => failure
  | depth + 1 => do
    match ← meaning? digitValue? with
    | some index => nameAt index
    | none =>
      if ← accept "?$" then
        let name ← template depth
        rememberName name
        return name
      else if ← accept "?A" then anonymousNamespace
      else if ← accept "?Q" then
        let name := Name.interface (← text)
        rememberName name
        expect "@"
        return name
      else if ← accept "??" then failure
      else if ← accept "?" then return .block (← number)
      else
        let name := Name.plain (← text)
        rememberName name
        return name

/-- Reads the name and the arguments of a template, with lists of its own
for repetition. -/
def template : (depth : Nat) → Reader Name
  | 0 => failure
  | depth + 1 => do
    let outside ← get
    set { outside with names := [], types := [] }
    let name ← unqualified true depth
    let arguments ← arguments depth
    modify fun cursor => { outside with rest := cursor.rest }
    return .template name (.ofList arguments)

/-- Reads arguments up to their end: a sign `@`, a `Z` for an ellipsis, or
the end of the decoration. -/
def arguments : (depth : Nat) → Reader (List CxxType)
  | 0 => failure
  | depth + 1 => do
    let before ← rest
    if before.isEmpty then return []
    else if ← accept "@" then return []
    else if ← accept "Z" then return [.literal "..."]
    else
      match ← meaning? digitValue? with
      | some index =>
        let argument ← typeAt index
        return argument :: (← arguments depth)
      | none =>
        let argument ← type {} depth
        let after ← rest
        if after.length + 1 < before.length then rememberType argument
        return argument :: (← arguments depth)

/-- Reads a type that is to have the given qualifiers. -/
def type (qualifiers : Qualifiers) : (depth : Nat) → Reader CxxType
  | 0 => failure
  | depth + 1 => do
    if ← accept "W4" then return .tagged "enum" (← path true depth) qualifiers
    else if ← accept "A6" then return .indirect .reference (← function {} depth) qualifiers
    else if ← accept "P6" then return .indirect .pointer (← function {} depth) qualifiers
    else if ← accept "P8" then memberFunctionPointer depth
    else if ← accept "$0" then return .literal (toString (← number))
    else if ← accept "$D" then return placeholder (← number)
    else if ← accept "$S" then return .emptyPack
    else if ← accept "$$V" then return .emptyPack
    else if ← accept "$$Z" then return .emptyPack
    else if ← accept "$$$V" then return .emptyPack
    else if ← accept "$$T" then return .literal "std::nullptr_t"
    else if ← accept "$$Q" then return .indirect .rvalueReference (← target depth) qualifiers
    else if ← accept "$$BY" then array depth
    else if ← accept "$$A6" then function {} depth
    else if ← accept "$$A8@@" then function (← receiver) depth
    else if ← accept "$$Y" then return .untagged (← path false depth) qualifiers
    else if ← accept "$$C" then
      let own ← meaning? nearQualifiers?
      letterType (own.getD {}) depth
    else if ← ["$1", "$H", "$I", "$J"].anyM accept then memberFunctionAddress depth
    else
      let _ ← accept "$"
      letterType qualifiers depth

/-- Reads a type that is spelled by a letter, a digit or a question mark. -/
def letterType (qualifiers : Qualifiers) : (depth : Nat) → Reader CxxType
  | 0 => failure
  | depth + 1 => do
    if ← accept "?" then return placeholder (-(← number))
    else if ← accept "Y" then array depth
    else if ← accept "_" then return .basic (← letter extendedBasic?) qualifiers
    else
      match ← meaning? digitValue? with
      | some index => typeAt index
      | none =>
        match ← meaning? tag? with
        | some tag => return .tagged tag (← path true depth) qualifiers
        | none =>
          match ← meaning? indirection? with
          | some (kind, own) =>
            return .indirect kind (← target depth) (own.getD qualifiers)
          | none => return .basic (← letter basic?) qualifiers

/-- Reads the target of an indirection. -/
def target : (depth : Nat) → Reader CxxType
  | 0 => failure
  | depth + 1 => do
    let wide ← accept "E"
    let own := (← meaning? targetQualifiers?).getD {}
    type { own with isWide := wide } depth

/-- Reads an array after its number of dimensions.  The qualifiers before the
type of the items belong to the array in each dimension, and not to that
type. -/
def dimensions (count : Nat) : (depth : Nat) → Reader (CxxType × Qualifiers)
  | 0 => failure
  | depth + 1 => do
    if count = 0 then
      let own : Qualifiers ← if ← accept "$$C" then letter itemQualifiers? else pure {}
      return (← type {} depth, own)
    else
      let length ← number
      let (item, own) ← dimensions (count - 1) depth
      return (.array length item own, own)

/-- Reads an array. -/
def array : (depth : Nat) → Reader CxxType
  | 0 => failure
  | depth + 1 => do
    let count ← number
    if count < 1 then failure
    else
      let (array, _) ← dimensions count.toNat depth
      return array

/-- Reads the arguments of a function; the letter `X` stands for none. -/
def parameters : (depth : Nat) → Reader TypeList
  | 0 => failure
  | depth + 1 => do
    let list ← if ← accept "X" then pure [.basic "void" {}] else arguments depth
    expect "Z"
    return .ofList list

/-- Reads a function that has the given demands. -/
def function (receiver : Receiver) : (depth : Nat) → Reader CxxType
  | 0 => failure
  | depth + 1 => do
    let convention ← convention
    let own : Qualifiers ←
      if ← accept "?" then pure ((← meaning? targetQualifiers?).getD {}) else pure {}
    let result ← type own depth
    return .function convention result (← parameters depth) receiver

/-- Reads the result of a member function; the sign `@` stands for none. -/
def memberResult : (depth : Nat) → Reader CxxType
  | 0 => failure
  | depth + 1 => do
    let own : Qualifiers ← if ← accept "?" then letter resultQualifiers? else pure {}
    if ← accept "@" then return .absent else type own depth

/-- Reads a pointer to a member function. -/
def memberFunctionPointer : (depth : Nat) → Reader CxxType
  | 0 => failure
  | depth + 1 => do
    let owner ← path false depth
    let wide ← accept "E"
    let qualifiers := (← meaning? nearQualifiers?).getD {}
    let convention ← convention
    let result ← memberResult depth
    return .memberFunctionPointer owner convention result (← parameters depth)
      { qualifiers with isWide := wide }

/-- Reads the address of a member function. -/
def memberFunctionAddress : (depth : Nat) → Reader CxxType
  | 0 => failure
  | depth + 1 => do
    expect "?"
    let function ← path false depth
    let wide ← accept "E"
    let kind ← functionKind
    let convention ← convention
    let result ← memberResult depth
    return .memberFunctionAddress function kind convention result (← parameters depth) wide

end

/-! ## Symbols -/

/-- Reads the digest of a name. -/
def digest : Reader Symbol := do
  let digits := (← rest).take 32
  goTo ((← rest).drop 32)
  expect "@"
  if digits.length = 32 ∧ digits.all Hexadecimal.isDigit then
    return .digest (String.ofList digits)
  else failure

/-- Reads the guard of a static variable, which has a number and is shown as
the variable.  The name of the variable is spelled like a scope. -/
def guardedVariable (depth : Nat) : Reader Symbol := do
  let (digits, after) := (← rest).span Char.isDigit
  if digits.isEmpty then failure
  goTo after
  expect "@"
  match ← scopes depth with
  | [] => failure
  | name :: outer =>
    expect "4HA"
    return .named (.ofNames name outer)

/-- Reads a symbol: a digest, the guard of a static variable, a template, or
a name at the end of the decoration or before the digit of a table. -/
def symbol (depth : Nat) : Reader Symbol := do
  expect "?"
  if ← accept "?@" then digest
  else if ← accept "$TSS" then guardedVariable depth
  else if ← accept "$" then return .named (.outermost (← template depth))
  else
    let path ← path false depth
    match ← rest with
    | [] | '8' :: _ | '9' :: _ => return .named path
    | _ => failure

end Reader

/-- The symbol of a decorated name. -/
def symbol? (decorated : String) : Option Symbol :=
  let cs := decorated.toList
  (Reader.symbol (8 * (cs.length + 1)) |>.run { rest := cs }).map Prod.fst

end Rtti.DecoratedName
