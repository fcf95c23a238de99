import BinGrade.Scalar

/-!
# Binary64 scalars

The arithmetic in which the library is run: rounded operations on double precision numbers.
-/

namespace BinGrade

namespace Scalar.Binary64

/-- The bit pattern with the sign bit flipped, and all other bits too if it was set. Patterns so
changed stand in the order negative infinity, negative numbers, negative zero, zero, positive
numbers, infinity, not a number. -/
def sortKey (x : Float) : UInt64 :=
  let bits := x.toBits
  if bits >>> 63 = 1 then ~~~bits else bits ^^^ 0x8000000000000000

/-- The number truncated toward zero, at least zero and at most the largest 64-bit count. -/
def floorCount (x : Float) : Nat :=
  x.toUInt64.toNat

def ceilCount (x : Float) : Nat :=
  let whole := floorCount x
  if Float.ofNat whole < x then whole + 1 else whole

end Scalar.Binary64

instance : Scalar Float where
  decLe := Float.decLe
  decLt := Float.decLt
  ofCount := Float.ofNat
  abs := Float.abs
  sqrt := Float.sqrt
  pow := Float.pow
  log := Float.log
  exp := Float.exp
  floorCount := Scalar.Binary64.floorCount
  ceilCount := Scalar.Binary64.ceilCount
  isNaN := Float.isNaN
  isFinite := Float.isFinite
  sortsBefore a b := Scalar.Binary64.sortKey a ≤ Scalar.Binary64.sortKey b

end BinGrade
