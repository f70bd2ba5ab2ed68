import Rtti.Text.Hexadecimal
import Rtti.Toml.Item

/-!
# Numbers and dates in TOML

Integers of 64 bits in four bases, floating-point numbers, and dates and
times, each read from the start of a text.
-/

namespace Rtti.Toml

/-- Reads the rest of a run of digits, with single underscores between
digits, after `done`, which is held in reverse order. -/
def moreDigits (isDigit : Char → Bool) (done : List Char) :
    List Char → Option (List Char × List Char)
  | ['_'] => none
  | '_' :: c :: rest => if isDigit c then moreDigits isDigit (c :: done) rest else none
  | c :: rest =>
    if isDigit c then moreDigits isDigit (c :: done) rest else some (done.reverse, c :: rest)
  | [] => some (done.reverse, [])

/-- Reads a run of one or more digits. -/
def digits (isDigit : Char → Bool) : List Char → Option (List Char × List Char)
  | c :: rest => if isDigit c then moreDigits isDigit [c] rest else none
  | [] => none

/-- The number of a run of digits in a base up to sixteen. -/
def ofDigits (base : Nat) (ds : List Char) : Nat :=
  ds.foldl (fun n c => base * n + (Hexadecimal.digitValue? c).getD 0) 0

/-- The integer item of a number that fits 64 bits. -/
def integer? (n : Int) : Option Item :=
  if -0x8000000000000000 ≤ n ∧ n < 0x8000000000000000 then some (.integer n) else none

/-- Reads an integer in another base than ten, after its mark. -/
def based (base : Nat) (isDigit : Char → Bool) (cs : List Char) : Option (Item × List Char) := do
  let (ds, rest) ← digits isDigit cs
  return (← integer? (ofDigits base ds), rest)

/-- Whether `mantissa` times ten to the power `exponent` is rounded to
infinity as a double: whether it is at least halfway between the largest
double and the power of two above. -/
def overflows (mantissa : Nat) (exponent : Int) : Bool :=
  let digits := (Nat.toDigits 10 mantissa).length
  if mantissa = 0 ∨ (digits : Int) + exponent < 300 then false
  else if (digits : Int) + exponent > 320 then true
  else
    Nat.pow 2 970 * (Nat.pow 2 54 - 1) * Nat.pow 10 (-exponent).toNat ≤
      mantissa * Nat.pow 10 exponent.toNat

/-- Reads an optional exponent. -/
def exponent : List Char → Option (Option Int × List Char)
  | c :: rest =>
    if c = 'e' ∨ c = 'E' then do
      let (negative, rest) := match rest with
        | '-' :: rest => (true, rest)
        | '+' :: rest => (false, rest)
        | rest => (false, rest)
      let (ds, rest) ← digits Char.isDigit rest
      let n := ofDigits 10 ds
      return (some (if negative then -n else n), rest)
    else some (none, c :: rest)
  | [] => some (none, [])

/-- Reads a number in base ten, after its sign. -/
def decimal (negative : Bool) (cs : List Char) : Option (Item × List Char) := do
  let (whole, rest) ← match cs with
    | '0' :: rest => some (['0'], rest)
    | cs => digits Char.isDigit cs
  let (fraction, rest) ← match rest with
    | '.' :: rest => do
      let (ds, rest) ← digits Char.isDigit rest
      some (some ds, rest)
    | rest => some (none, rest)
  let (power, rest) ← exponent rest
  if fraction.isNone && power.isNone then
    let n := ofDigits 10 whole
    return (← integer? (if negative then -n else n), rest)
  else
    let places := fraction.getD []
    let mantissa := ofDigits 10 (whole ++ places)
    if !negative && overflows mantissa (power.getD 0 - places.length) then none
    else some (.float, rest)

/-- Reads a number. -/
def number : List Char → Option (Item × List Char)
  | '0' :: 'x' :: rest => based 16 Hexadecimal.isDigit rest
  | '0' :: 'o' :: rest => based 8 (fun c => '0' ≤ c && c ≤ '7') rest
  | '0' :: 'b' :: rest => based 2 (fun c => c = '0' || c = '1') rest
  | cs =>
    let (sign, unsigned) := match cs with
      | '+' :: rest => (some '+', rest)
      | '-' :: rest => (some '-', rest)
      | cs => (none, cs)
    match unsigned with
    | 'i' :: 'n' :: 'f' :: rest => some (.float, rest)
    | 'n' :: 'a' :: 'n' :: rest => some (.float, rest)
    | unsigned => decimal (sign = some '-') unsigned

/-! ## Dates and times -/

/-- Reads exactly `count` decimal digits. -/
def fixedDigits (count : Nat) (cs : List Char) : Option (Nat × List Char) :=
  let ds := cs.take count
  if ds.length = count ∧ ds.all Char.isDigit then some (ofDigits 10 ds, cs.drop count) else none

/-- Reads the given character. -/
def mark (c : Char) : List Char → Option (List Char)
  | d :: rest => if c = d then some rest else none
  | [] => none

/-- The number of days of a month. -/
def daysIn (year month : Nat) : Nat :=
  if month = 2 then
    if year % 4 = 0 ∧ (year % 100 ≠ 0 ∨ year % 400 = 0) then 29 else 28
  else if month = 4 ∨ month = 6 ∨ month = 9 ∨ month = 11 then 30
  else 31

/-- Reads a day. -/
def day (cs : List Char) : Option (List Char) := do
  let (year, rest) ← fixedDigits 4 cs
  let (month, rest) ← fixedDigits 2 (← mark '-' rest)
  let (day, rest) ← fixedDigits 2 (← mark '-' rest)
  if 1 ≤ month ∧ month ≤ 12 ∧ 1 ≤ day ∧ day ≤ daysIn year month then some rest else none

/-- Reads a time of day with an optional fraction of a second. -/
def time (cs : List Char) : Option (List Char) := do
  let (hour, rest) ← fixedDigits 2 cs
  let (minute, rest) ← fixedDigits 2 (← mark ':' rest)
  let (second, rest) ← fixedDigits 2 (← mark ':' rest)
  if hour ≤ 23 ∧ minute ≤ 59 ∧ second ≤ 60 then
    match rest with
    | '.' :: rest =>
      match rest.span Char.isDigit with
      | ([], _) => none
      | (_, rest) => some rest
    | rest => some rest
  else none

/-- Reads an optional distance from universal time. -/
def zone : List Char → Option (List Char)
  | c :: rest =>
    if c = 'Z' ∨ c = 'z' then some rest
    else if c = '+' ∨ c = '-' then do
      let (hour, rest) ← fixedDigits 2 rest
      let (minute, rest) ← fixedDigits 2 (← mark ':' rest)
      if hour ≤ 23 ∧ minute ≤ 59 then some rest else none
    else some (c :: rest)
  | [] => some []

/-- Whether a text begins with `count` digits and the character `c`. -/
def beginsWithDigits (count : Nat) (c : Char) (cs : List Char) : Bool :=
  ((fixedDigits count cs).bind fun r => mark c r.2).isSome

/-- Reads what may follow a day: a time after a separator, with an optional
distance from universal time. -/
def timeAfterDay : List Char → Option (List Char)
  | c :: rest =>
    if (c = 'T' || c = 't' || c = ' ') && beginsWithDigits 2 ':' rest then time rest >>= zone
    else some (c :: rest)
  | [] => some []

/-- Reads a number, a date or a time.  Four digits and a hyphen begin a date,
and two digits and a colon a time. -/
def numberOrDate (cs : List Char) : Option (Item × List Char) :=
  if beginsWithDigits 4 '-' cs then (day cs >>= timeAfterDay).map fun rest => (.date, rest)
  else if beginsWithDigits 2 ':' cs then (time cs).map fun rest => (.date, rest)
  else number cs

end Rtti.Toml
