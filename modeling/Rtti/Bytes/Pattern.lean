/-!
# Byte patterns

The first place in a buffer at which a pattern stands, among the places at
multiples of a stride.
-/

namespace Rtti.Pattern

/-- Whether the whole pattern stands in the buffer at `index`. -/
def matchesAt (pattern data : List UInt8) (index : Nat) : Bool :=
  index ≤ data.length && pattern.isPrefixOf (data.drop index)

/-- The first multiple of `stride`, counted from `index` at the head of the
buffer, at which the pattern stands. -/
def findFrom (pattern : List UInt8) (stride index : Nat) (data : List UInt8) : Option Nat :=
  if index % stride = 0 && pattern.isPrefixOf data then some index
  else match data with
    | [] => none
    | _ :: rest => findFrom pattern stride (index + 1) rest

/-- The first multiple of `stride` at which the pattern stands in the buffer.
The empty pattern is found nowhere, and a stride of zero counts as one. -/
def findAligned (pattern data : List UInt8) (stride : Nat) : Option Nat :=
  if pattern.isEmpty then none else findFrom pattern (max stride 1) 0 data

/-- The first index at which the pattern stands in the buffer. -/
def find (pattern data : List UInt8) : Option Nat :=
  findAligned pattern data 1

/-- The pattern of `count` zero bytes. -/
def zeros (count : Nat) : List UInt8 := List.replicate count 0

end Rtti.Pattern
