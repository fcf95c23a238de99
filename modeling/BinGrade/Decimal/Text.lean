import BinGrade.Decimal.Shortest

/-!
# Decimal texts of numbers

Three texts are written: in documents, where a number is recognisable as one with a fraction and
very large or small numbers carry an exponent; in messages, where digits are written out in full;
and in summaries, with a fixed number of places.
-/

namespace BinGrade.Decimal

/-- How the shortest digits of a number are laid out. The exponent of the first digit decides
whether they are plain, without an exponent; a whole number may keep a point and a zero. -/
structure Layout where
  tie : Tie
  plain : Int → Bool
  keepsPoint : Bool

/-- Numbers in documents: plain from `0.00001` up to sixteen digits before the point. -/
def Layout.document : Layout :=
  ⟨.toEven, fun e => -5 ≤ e && e ≤ 15, true⟩

/-- Numbers in messages: never an exponent, and a point only before a fraction. -/
def Layout.message : Layout :=
  ⟨.up, fun _ => true, false⟩

/-- Digits before and after a point, for a number whose first digit has the given exponent. -/
def spread (ds : List Char) (e : Int) : List Char × List Char :=
  match e with
  | .ofNat k =>
    let padded := ds ++ List.replicate (k + 1 - ds.length) '0'
    (padded.take (k + 1), padded.drop (k + 1))
  | .negSucc k => (['0'], List.replicate k '0' ++ ds)

def Layout.lay (l : Layout) (d : Digits) : List Char :=
  if l.plain d.exponent then
    match spread d.digits d.exponent with
    | (whole, []) => if l.keepsPoint then whole ++ ['.', '0'] else whole
    | (whole, fraction) => whole ++ '.' :: fraction
  else
    let sign := if d.exponent < 0 then '-' else '+'
    let mantissa := match d.digits with
      | first :: second :: more => first :: '.' :: second :: more
      | short => short
    mantissa ++ 'e' :: sign :: digitsOf d.exponent.natAbs

def Layout.finite (l : Layout) (x : Dyadic) : List Char :=
  let body :=
    if x.mantissa = 0 then (if l.keepsPoint then ['0', '.', '0'] else ['0'])
    else l.lay (shortest l.tie x.mantissa x.exponent)
  if x.negative then '-' :: body else body

def unbounded : Reading → String
  | .infinite true => "-inf"
  | .infinite false => "inf"
  | _ => "NaN"

def document? (x : Float) : Option String :=
  match Reading.ofFloat x with
  | .finite d => some (String.ofList (Layout.document.finite d))
  | _ => none

def plain (x : Float) : String :=
  match Reading.ofFloat x with
  | .finite d => String.ofList (Layout.message.finite d)
  | r => unbounded r

/-- The whole number nearest to a fraction; a tie goes to the even neighbour. -/
def roundToEven (q : Fraction) : Nat :=
  let down := q.num / q.den
  let twice := 2 * (q.num % q.den)
  if twice < q.den then down
  else if q.den < twice then down + 1
  else if down % 2 = 0 then down else down + 1

def fixedFinite (places : Nat) (x : Dyadic) : List Char :=
  let q := Fraction.scaled x.mantissa x.exponent
  let ds := digitsOf (roundToEven ⟨q.num * Nat.pow 10 places, q.den⟩)
  let padded := List.replicate (places + 1 - ds.length) '0' ++ ds
  let whole := padded.take (padded.length - places)
  let fraction := padded.drop (padded.length - places)
  let body := if places = 0 then whole else whole ++ '.' :: fraction
  if x.negative then '-' :: body else body

def fixed (places : Nat) (x : Float) : String :=
  match Reading.ofFloat x with
  | .finite d => String.ofList (fixedFinite places d)
  | r => unbounded r

end BinGrade.Decimal
