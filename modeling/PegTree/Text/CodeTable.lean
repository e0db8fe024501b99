/-!
# Tables of code points

Character properties and character maps as short tables: ranges, strides (every so many code
points of a range) and strides that are moved by a fixed distance.
-/

namespace PegTree

def inRanges (ranges : List (Nat × Nat)) (code : Nat) : Bool :=
  ranges.any fun (first, last) => first ≤ code && code ≤ last

/-- The code points `first`, `first + step`, … up to `last`. -/
structure Stride where
  first : Nat
  last : Nat
  step : Nat

def Stride.contains (s : Stride) (code : Nat) : Bool :=
  s.first ≤ code && code ≤ s.last && (code - s.first) % s.step == 0

structure Shift where
  stride : Stride
  distance : Int

namespace Shift

def image? (s : Shift) (code : Nat) : Option Nat :=
  if s.stride.contains code then some (code + s.distance).toNat else none

/-- The code point that is moved to `code`. -/
def source? (s : Shift) (code : Nat) : Option Nat :=
  let source := (code - s.distance).toNat
  if s.stride.contains source then some source else none

end Shift

end PegTree
