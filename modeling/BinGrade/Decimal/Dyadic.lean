/-!
# The exact value of a binary64 number

A finite number is a signed whole multiple of a power of two. Its decimal text is computed from
that value in natural numbers, so no rounding enters but the one that the text asks for.
-/

namespace BinGrade.Decimal

/-- A finite number `± mantissa * 2 ^ exponent`. -/
structure Dyadic where
  negative : Bool
  mantissa : Nat
  exponent : Int
deriving DecidableEq

inductive Reading where
  | finite (value : Dyadic)
  | infinite (negative : Bool)
  | missing
deriving DecidableEq

/-- A bit pattern split into sign, eleven bits of exponent and fifty-two bits of fraction. -/
def Reading.ofBits (bits : Nat) : Reading :=
  let negative : Bool := bits / Nat.pow 2 63 = 1
  let field : Nat := bits / Nat.pow 2 52 % Nat.pow 2 11
  let fraction : Nat := bits % Nat.pow 2 52
  if field = 2047 then
    if fraction = 0 then .infinite negative else .missing
  else if field = 0 then
    .finite ⟨negative, fraction, -1074⟩
  else
    .finite ⟨negative, Nat.pow 2 52 + fraction, (field : Int) - 1075⟩

def Reading.ofFloat (x : Float) : Reading :=
  Reading.ofBits x.toBits.toNat

structure Fraction where
  num : Nat
  den : Nat
deriving DecidableEq

def Fraction.scaled (m : Nat) (e : Int) : Fraction :=
  match e with
  | .ofNat k => ⟨m * Nat.pow 2 k, 1⟩
  | .negSucc k => ⟨m, Nat.pow 2 (k + 1)⟩

def Fraction.powerOfTen (k : Int) : Fraction :=
  match k with
  | .ofNat j => ⟨Nat.pow 10 j, 1⟩
  | .negSucc j => ⟨1, Nat.pow 10 (j + 1)⟩

def digitCount (n : Nat) : Nat :=
  (Nat.toDigits 10 n).length

/-- The exponent of the first decimal digit of a positive fraction. -/
def Fraction.leading (q : Fraction) : Int :=
  if q.den ≤ q.num then
    (digitCount (q.num / q.den) : Int) - 1
  else
    let d := digitCount (q.den / q.num)
    if q.den ≤ q.num * Nat.pow 10 (d - 1) then -((d : Int) - 1) else -(d : Int)

def digitsOf (n : Nat) : List Char :=
  Nat.toDigits 10 n

end BinGrade.Decimal
