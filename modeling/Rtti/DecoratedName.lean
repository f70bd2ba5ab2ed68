import Rtti.DecoratedName.Printer
import Rtti.DecoratedName.Reader

/-!
# Decorated names

The names in MSVC type information are decorated.  Undecorating one never
fails: what cannot be read, or stands for no name at all, is kept as it is.
-/

namespace Rtti.DecoratedName

/-- The readable form of a decorated name. -/
def undecorate (decorated : String) : String :=
  match (symbol? decorated).map Symbol.render with
  | some name => if name.isEmpty then decorated else name
  | none => decorated

end Rtti.DecoratedName
