import Rtti.DecoratedName.Syntax

/-!
# Writing names and types

A type is written in two parts, around what it declares: for an array or a
function, the part after holds the length or the arguments.  Some blanks
depend on the character written before them, so the printer passes on the
text written so far, last character first.
-/

namespace Rtti.DecoratedName

/-- The text written so far, in reverse order. -/
abbrev Written := List Char

namespace Written

/-- The text with more text after it. -/
def put (out : Written) (text : String) : Written := text.toList.reverse ++ out

/-- The text, with a blank after it if `p` holds of its last character. -/
def blankAfter (out : Written) (p : Char → Bool) : Written :=
  match out with
  | c :: _ => if p c then out.put " " else out
  | [] => out

/-- The text with a blank before the next word, where one is needed. -/
def blank (out : Written) : Written :=
  out.blankAfter fun c => c.isAlpha || c = '*' || c = '&' || c = '>' || c = ')'

/-- The text with a blank before the next name, where one is needed. -/
def nameBlank (out : Written) : Written :=
  out.blankAfter fun c => c.isAlpha || c = '&' || c = '>' || c = ')'

/-- The text with the qualifiers that are shown. -/
def qualifiers (out : Written) (q : Qualifiers) : Written :=
  let out := if q.isConst then out.blank.put "const" else out
  let out := if q.isVolatile then out.blank.put "volatile" else out
  if q.isRestrict then out.blank.put "__restrict" else out

/-- The text with what a member function demands of its object. -/
def receiver (out : Written) (r : Receiver) : Written :=
  let out := out.qualifiers r.qualifiers
  match r.reference with
  | some kind => out.blank.put kind.sign
  | none => out

mutual

/-- Writes a name without its scopes. -/
def name (out : Written) : Name → Written
  | .plain text => out.put text
  | .template inner arguments =>
    let out := ((out.name inner).put "<").types true arguments
    (out.blankAfter (· = '>')).put ">"
  | .anonymousNamespace _ => out.put "`anonymous namespace'"
  | .interface text => ((out.put "[").put text).put "]"
  | .block number => ((out.put "`").put (toString number)).put "'"

/-- Writes a name after its scopes, the outermost first. -/
def path (out : Written) : Path → Written
  | .outermost inner => out.name inner
  | .inside inner scope => ((out.path scope).put "::").name inner

/-- Writes types with commas between them; empty packs are left out.
`first` says that none was written yet. -/
def types (out : Written) (first : Bool) : TypeList → Written
  | .nil => out
  | .cons .emptyPack tail => out.types first tail
  | .cons head tail =>
    let out := if first then out else out.put ","
    ((out.before head).after head).types false tail

/-- Writes the part of a type before what it declares. -/
def before (out : Written) : CxxType → Written
  | .basic text q => (out.put text).qualifiers q
  | .tagged tag path q => ((((out.put tag).put " ").nameBlank).path path).qualifiers q
  | .untagged path q => (out.nameBlank.path path).qualifiers q
  | .indirect kind (.array _ item own) q =>
    (((((out.before item).qualifiers own).blank).put "(").put kind.sign).qualifiers q
  | .indirect kind (.function convention result _ _) q =>
    (((((out.before result).blank).put "(").put (convention.keyword ++ " ")).put
      kind.sign).qualifiers q
  | .indirect kind target q => (((out.before target).blank).put kind.sign).qualifiers q
  | .array _ item q => (out.before item).qualifiers q
  | .function convention result _ _ =>
    ((out.before result).blankAfter fun c => c ≠ ' ' && c ≠ '(').put (convention.keyword ++ " ")
  | .memberFunctionPointer path convention result _ _
  | .memberFunctionAddress path _ convention result _ _ =>
    ((((((out.before result).blank).put "(").put (convention.keyword ++ " ")).nameBlank).path
      path).put "::*"
  | .literal text => out.put text
  | .emptyPack => out
  | .absent => out

/-- Writes the part of a type after what it declares. -/
def after (out : Written) : CxxType → Written
  | .indirect .rvalueReference _ _ => out
  | .indirect _ (.array length item _) _ =>
    ((((out.put ")").put "[").put (toString length)).put "]").after item
  | .indirect _ (.function _ result arguments receiver) _ =>
    (((((out.put ")").put "(").types true arguments).put ")").receiver receiver).after result
  | .indirect _ target _ => out.after target
  | .array length item _ => (((out.put "[").put (toString length)).put "]").after item
  | .function _ result arguments receiver =>
    ((((out.put "(").types true arguments).put ")").receiver receiver).after result
  | .memberFunctionPointer _ _ result arguments q =>
    ((((out.put ")(").types true arguments).put ")").after result).qualifiers
      { isConst := q.isConst }
  | .memberFunctionAddress _ _ _ result arguments _ =>
    (((out.put ")(").types true arguments).put ")").after result
  | _ => out

end

/-- The text as it reads. -/
def text (out : Written) : String := String.ofList out.reverse

end Written

/-- The symbol as it is shown. -/
def Symbol.render : Symbol → String
  | digest digits => "??@" ++ digits ++ "@"
  | named path => (Written.path [] path).text

end Rtti.DecoratedName
