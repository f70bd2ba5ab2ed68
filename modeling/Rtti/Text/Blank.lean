/-!
# Blanks, letter case and lines of text

The white space that is trimmed from names, the lowering of ASCII letters,
and the division of a text into lines.
-/

namespace Rtti.Text

/-- Whether a character has the Unicode property White_Space. -/
def isBlank (c : Char) : Bool :=
  let n := c.toNat
  (9 ≤ n && n ≤ 13) || n == 0x20 || n == 0x85 || n == 0xA0 || n == 0x1680 ||
    (0x2000 ≤ n && n ≤ 0x200A) || n == 0x2028 || n == 0x2029 || n == 0x202F ||
    n == 0x205F || n == 0x3000

/-- The characters left when those that satisfy `p` are taken off the end. -/
def trimEnd (p : Char → Bool) (cs : List Char) : List Char :=
  (cs.reverse.dropWhile p).reverse

/-- The text without the white space at its two ends. -/
def trim (text : String) : String :=
  String.ofList (trimEnd isBlank (text.toList.dropWhile isBlank))

/-- The text with the letters A to Z in lower case. -/
def lower (text : String) : String :=
  String.ofList (text.toList.map Char.toLower)

/-- Whether the text ends in `ending`. -/
def endsIn (text ending : String) : Bool :=
  ending.toList.isSuffixOf text.toList

/-- The parts between line feeds, at least one, of a text read after `line`,
which is held in reverse order. -/
def splitLinesOnto (line : List Char) : List Char → List (List Char)
  | [] => [line.reverse]
  | '\n' :: rest => line.reverse :: splitLinesOnto [] rest
  | c :: rest => splitLinesOnto (c :: line) rest

/-- A line without the carriage return at its end. -/
def dropReturn (line : List Char) : List Char :=
  match line.getLast? with
  | some '\r' => line.dropLast
  | _ => line

/-- The lines of a text.  A line ends in a line feed, of which a carriage
return before it is part; what follows the last line feed is a line unless
it is empty. -/
def lines (text : String) : List String :=
  let parts := splitLinesOnto [] text.toList
  let ended := parts.dropLast.map fun line => String.ofList (dropReturn line)
  match parts.getLast? with
  | none | some [] => ended
  | some rest => ended ++ [String.ofList rest]

end Rtti.Text
