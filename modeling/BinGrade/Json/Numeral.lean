import BinGrade.Decimal.Text

/-!
# Numerals

The number literals of documents: an optional minus sign, a whole part without leading zeros, and
optionally a fraction and an exponent. A numeral is kept as it is written; what it stands for is
computed when a number or a count is asked for. Counts are read exactly; which double a numeral gives
is left to a reader.
-/

namespace BinGrade.Json

/-- Where a literal stops being one: it can be malformed, or the text can end inside a number, or
inside a word that begins with some letter. -/
inductive Flaw where
  | malformed
  | cut
  | cutNumber
  | cutWord (initial : Char)
deriving DecidableEq

namespace Numeral

def isDigit (c : Char) : Bool := '0' ≤ c && c ≤ '9'

/-- The digits that must follow a point or an exponent mark, and what comes after them. -/
def someDigits (cs : List Char) : Except Flaw (List Char × List Char) :=
  match cs.takeWhile isDigit, cs with
  | [], [] => .error .cutNumber
  | [], _ => .error .malformed
  | ds, _ => .ok (ds, cs.dropWhile isDigit)

/-- The whole part: a single zero, or digits that do not begin with one. -/
def scanWhole (cs : List Char) : Except Flaw (List Char × List Char) := do
  let (ds, rest) ← someDigits cs
  match ds with
  | '0' :: _ :: _ => .error .malformed
  | _ => .ok (ds, rest)

def scanFraction : List Char → Except Flaw (List Char × List Char)
  | '.' :: cs => do
    let (ds, rest) ← someDigits cs
    .ok ('.' :: ds, rest)
  | cs => .ok ([], cs)

def scanSign : List Char → List Char × List Char
  | '+' :: cs => (['+'], cs)
  | '-' :: cs => (['-'], cs)
  | cs => ([], cs)

def scanExponent : List Char → Except Flaw (List Char × List Char)
  | [] => .ok ([], [])
  | c :: cs =>
    if c = 'e' || c = 'E' then do
      let (sign, more) := scanSign cs
      let (ds, rest) ← someDigits more
      .ok (c :: sign ++ ds, rest)
    else .ok ([], c :: cs)

def scanMinus : List Char → List Char × List Char
  | '-' :: cs => (['-'], cs)
  | cs => ([], cs)

/-- The longest numeral at the start of a text, and what comes after it. -/
def scan (cs : List Char) : Except Flaw (List Char × List Char) := do
  let (minus, cs) := scanMinus cs
  let (whole, cs) ← scanWhole cs
  let (fraction, cs) ← scanFraction cs
  let (exponent, cs) ← scanExponent cs
  .ok (minus ++ whole ++ fraction ++ exponent, cs)

def valueOf (ds : List Char) : Nat :=
  ds.foldl (fun n c => 10 * n + (c.toNat - '0'.toNat)) 0

/-- What a numeral stands for: `± significand * 10 ^ exponent`. It is whole if it is written without
fraction and exponent. -/
structure Parts where
  negative : Bool
  significand : Nat
  exponent : Int
  whole : Bool
deriving DecidableEq

def exponentOf : List Char → Int
  | _ :: '-' :: ds => -(valueOf ds : Int)
  | _ :: '+' :: ds => valueOf ds
  | _ :: ds => valueOf ds
  | [] => 0

def parts (literal : List Char) : Parts :=
  let (minus, cs) := scanMinus literal
  let whole := cs.takeWhile isDigit
  let rest := cs.dropWhile isDigit
  let fraction := match rest with
    | '.' :: more => more.takeWhile isDigit
    | _ => []
  let tail := match rest with
    | '.' :: more => more.dropWhile isDigit
    | more => more
  { negative := minus ≠ []
    significand := valueOf (whole ++ fraction)
    exponent := exponentOf tail - (fraction.length : Int)
    whole := fraction.isEmpty && tail.isEmpty }

/-- The number nearest to `significand * 10 ^ exponent`. Far beyond the largest number nothing has
to be computed to find infinity, and far below the smallest one nothing to find zero. -/
def nearest (significand : Nat) (exponent : Int) : Float :=
  let lead := (Decimal.digitCount significand : Int) + exponent
  if significand = 0 || lead < -330 then 0.0
  else if lead > 330 then 1.0 / 0.0
  else match exponent with
    | .ofNat k => Float.ofScientific significand false k
    | .negSucc k => Float.ofScientific significand true (k + 1)

def toFloat? (literal : List Char) : Option Float :=
  let p := parts literal
  let x := nearest p.significand p.exponent
  if x.isInf then none else some (if p.negative then -x else x)

def maxCount : Nat := Nat.pow 2 64 - 1

inductive Count where
  | count (n : Nat)
  | negative
  | other
deriving DecidableEq

/-- The count that a numeral stands for. Whole numbers down to `-2 ^ 63` are known to be negative;
negative zero is a number with a sign and no whole one. -/
def toCount (literal : List Char) : Count :=
  let p := parts literal
  if !p.whole then .other
  else if p.negative then
    if 1 ≤ p.significand && p.significand ≤ Nat.pow 2 63 then .negative else .other
  else if p.significand ≤ maxCount then .count p.significand
  else .other

end Numeral

/-- What reading a document makes of the numeral of a number; none if it is out of range. How the
digits are rounded is up to the reader: documents are stated over any one. -/
class NumberReader where
  read? : List Char → Option Float

/-- Numerals stand for the nearest double. A reader that rounds in several steps may miss it. -/
instance nearestReader : NumberReader := ⟨Numeral.toFloat?⟩

end BinGrade.Json
