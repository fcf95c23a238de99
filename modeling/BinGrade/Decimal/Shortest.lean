import BinGrade.Decimal.Dyadic

/-!
# Shortest decimals

The fewest decimal digits that read back as the same number: of the decimals that lie in the
interval of reals rounding to the number, one with the least count of digits, and of those the
nearest. The grids of one, two, up to seventeen digits are tried in turn, and on each grid only the
two neighbours of the value have to be looked at.
-/

namespace BinGrade.Decimal

inductive Tie where
  | up
  | toEven
deriving DecidableEq

/-- A positive decimal `0.d₁d₂… * 10 ^ (exponent + 1)` without trailing zeros: the exponent is that
of the first digit. -/
structure Digits where
  digits : List Char
  exponent : Int
deriving DecidableEq

/-- The interval of reals that round to a positive number, on a common denominator; its ends round
to the number too if it is closed. -/
structure Basin where
  low : Nat
  value : Nat
  high : Nat
  den : Nat
  closed : Bool

/-- Half a unit in the last place on each side, but a quarter below a power of two; the ends belong
to an even multiple. -/
def Basin.of (m : Nat) (e : Int) : Basin :=
  let below := if m = Nat.pow 2 52 && e > -1074 then 1 else 2
  let unit := Fraction.scaled 1 (e - 2)
  ⟨(4 * m - below) * unit.num, 4 * m * unit.num, (4 * m + 2) * unit.num, unit.den, m % 2 = 0⟩

def Basin.holds (b : Basin) (num scale : Nat) : Bool :=
  if b.closed then b.low * scale ≤ num && num ≤ b.high * scale
  else b.low * scale < num && num < b.high * scale

/-- The neighbour of the value on the grid of multiples of `10 ^ k` that rounds to the number: the
nearer one, or as the tie rule says. -/
def Basin.onGrid (tie : Tie) (b : Basin) (k : Int) : Option Nat :=
  let grid := Fraction.powerOfTen k
  let down := b.value * grid.den / (grid.num * b.den)
  let up := down + 1
  let place (n : Nat) : Nat := n * grid.num * b.den
  let downHolds := b.holds (place down) grid.den
  let upHolds := b.holds (place up) grid.den
  let toDown := b.value * grid.den - place down
  let toUp := place up - b.value * grid.den
  match downHolds, upHolds with
  | false, false => none
  | true, false => some down
  | false, true => some up
  | true, true =>
    if toDown < toUp then some down
    else if toUp < toDown then some up
    else match tie with
      | .up => some up
      | .toEven => some (if down % 2 = 0 then down else up)

def stripZeros (ds : List Char) : List Char :=
  (ds.reverse.dropWhile (· = '0')).reverse

def Basin.search (tie : Tie) (b : Basin) (lead : Int) : List Nat → Digits
  | [] => ⟨['0'], 0⟩
  | n :: finer =>
    let k := lead + 1 - (n : Int)
    match b.onGrid tie k with
    | some p =>
      let ds := digitsOf p
      ⟨stripZeros ds, k + (ds.length : Int) - 1⟩
    | none => b.search tie lead finer

def shortest (tie : Tie) (m : Nat) (e : Int) : Digits :=
  (Basin.of m e).search tie (Fraction.scaled m e).leading ((List.range 17).map (· + 1))

end BinGrade.Decimal
