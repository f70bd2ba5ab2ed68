/-!
# Decorated names as terms

The names and types that a decorated C++ name is made of.  Types carry the
qualifiers that the decoration spells, also those that are not shown, since
two types are the same only if all of them agree.
-/

namespace Rtti.DecoratedName

/-- The qualifiers of a type. -/
structure Qualifiers where
  isConst : Bool := false
  isVolatile : Bool := false
  /-- Whether the type lies in a far segment. -/
  isFar : Bool := false
  /-- Whether the type is reached by a 64-bit pointer. -/
  isWide : Bool := false
  isRestrict : Bool := false
  isUnaligned : Bool := false
  deriving Repr, DecidableEq

/-- How a function is called. -/
inductive Convention where
  | cdecl
  | pascal
  | thiscall
  | stdcall
  | fastcall
  deriving Repr, DecidableEq

/-- The keyword of the convention. -/
def Convention.keyword : Convention → String
  | cdecl => "__cdecl"
  | pascal => "__pascal"
  | thiscall => "__thiscall"
  | stdcall => "__stdcall"
  | fastcall => "__fastcall"

/-- How a type leads to another. -/
inductive Indirection where
  | pointer
  | reference
  | rvalueReference
  deriving Repr, DecidableEq

/-- The sign of the indirection. -/
def Indirection.sign : Indirection → String
  | pointer => "*"
  | reference => "&"
  | rvalueReference => "&&"

/-- What a member function demands of its object.  A function without an
object demands nothing. -/
structure Receiver where
  qualifiers : Qualifiers := {}
  /-- The reference by which the object must be given. -/
  reference : Option Indirection := none
  deriving Repr, DecidableEq

/-- Who may use a function. -/
inductive Access where
  | ownClass
  | derivedClasses
  | everyone
  /-- The function belongs to no class. -/
  | unowned
  deriving Repr, DecidableEq

/-- How a call reaches a function. -/
inductive Dispatch where
  | direct
  | static
  | virtual
  /-- By code that moves the object pointer a fixed way. -/
  | adjusted
  deriving Repr, DecidableEq

/-- What the decoration of a function tells of it besides its type. -/
structure FunctionKind where
  access : Access
  dispatch : Dispatch
  isFar : Bool
  deriving Repr, DecidableEq

mutual

/-- A name without its scope. -/
inductive Name where
  | plain (text : String)
  | template (name : Name) (arguments : TypeList)
  /-- An anonymous namespace, which may have a number of its own. -/
  | anonymousNamespace (id : Option String)
  | interface (text : String)
  /-- A block of a function, by number. -/
  | block (number : Int)
  deriving DecidableEq

/-- A name with the scopes around it, from the inside to the outside. -/
inductive Path where
  | outermost (name : Name)
  | inside (name : Name) (scope : Path)
  deriving DecidableEq

/-- A type. -/
inductive CxxType where
  /-- A built-in type. -/
  | basic (text : String) (qualifiers : Qualifiers)
  /-- A class, structure, union or enumeration. -/
  | tagged (tag : String) (path : Path) (qualifiers : Qualifiers)
  /-- A type that is named without its tag. -/
  | untagged (path : Path) (qualifiers : Qualifiers)
  | indirect (kind : Indirection) (target : CxxType) (qualifiers : Qualifiers)
  | array (length : Int) (item : CxxType) (qualifiers : Qualifiers)
  /-- A function, also that of a member function without its class. -/
  | function (convention : Convention) (result : CxxType) (arguments : TypeList)
      (receiver : Receiver)
  | memberFunctionPointer (owner : Path) (convention : Convention) (result : CxxType)
      (arguments : TypeList) (qualifiers : Qualifiers)
  /-- The address of one member function, as an argument of a template. -/
  | memberFunctionAddress (function : Path) (kind : FunctionKind) (convention : Convention)
      (result : CxxType) (arguments : TypeList) (isWide : Bool)
  /-- An argument that is shown as it is: a number, a placeholder, an
  ellipsis. -/
  | literal (text : String)
  /-- A parameter pack without members. -/
  | emptyPack
  /-- The missing result of a constructor. -/
  | absent
  deriving DecidableEq

/-- The arguments of a template or a function. -/
inductive TypeList where
  | nil
  | cons (head : CxxType) (tail : TypeList)
  deriving DecidableEq

end

/-- The path of a name in the given scopes, the innermost first. -/
def Path.ofNames (name : Name) : List Name → Path
  | [] => outermost name
  | scope :: outer => inside name (ofNames scope outer)

/-- The list with the given members. -/
def TypeList.ofList : List CxxType → TypeList
  | [] => nil
  | head :: tail => cons head (ofList tail)

/-- What a decorated name stands for. -/
inductive Symbol where
  /-- A name that is kept only as a digest of 32 hexadecimal digits. -/
  | digest (digits : String)
  | named (path : Path)
  deriving DecidableEq

end Rtti.DecoratedName
