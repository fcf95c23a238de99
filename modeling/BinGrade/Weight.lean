import BinGrade.Error
import BinGrade.Scalar.Binary64

/-!
# Weights of the moments

A weight vector says how much each moment counts. Its components are not negative and sum to one;
vectors are either given so, or scaled to be so.
-/

namespace BinGrade

/-- One weight for each moment (`WeightVector`, once it is accepted). -/
abbrev Weights (α : Type) := PerMoment α

namespace Weights

variable {α : Type} [Scalar α]

def sumTolerance : α := 1e-9

def sum (w : Weights α) : α := Scalar.total w.toList

/-- A weight that may be used: finite and not negative. -/
def isUsable (x : α) : Bool := Scalar.isFinite x && !(x < 0.0)

def checkComponent (m : Moment) (x : α) : Except (ParameterFault α) Unit :=
  if isUsable x then .ok () else .error (.weight m x)

/-- Refuses weights of which some may not be used; the first one is named. -/
def checkComponents (w : Weights α) : Except (ParameterFault α) Unit := do
  checkComponent .mean w.mean
  checkComponent .variance w.variance
  checkComponent .skewness w.skewness
  checkComponent .kurtosis w.kurtosis

/-- Accepts weights that sum to one. -/
def check (w : Weights α) : Except (ParameterFault α) (Weights α) := do
  w.checkComponents
  if sumTolerance < Scalar.abs (w.sum - 1.0) then .error (.weightSum w.sum) else pure w

/-- Scales weights so that they sum to one; if all are zero, there is no such scale. -/
def normalize (w : Weights α) : Except (ParameterFault α) (Weights α) := do
  w.checkComponents
  let sum := w.sum
  if sum ≤ 0.0 then .error .noWeight else pure (w.map fun x => x / sum)

def ofList (xs : List α) : Except (ParameterFault α) (Weights α) :=
  match PerMoment.ofList? xs with
  | some w => .ok w
  | none => .error (.weightCount xs.length)

def even : Weights α := .all 0.25

def describe (w : Weights Float) : String :=
  "[mean=" ++ Decimal.fixed 3 w.mean ++ ", variance=" ++ Decimal.fixed 3 w.variance
    ++ ", skewness=" ++ Decimal.fixed 3 w.skewness ++ ", kurtosis=" ++ Decimal.fixed 3 w.kurtosis
    ++ "]"

end Weights

end BinGrade
