import BinGrade.Moment.Estimate
import BinGrade.Weight

/-!
# Errors of moments

How far estimated moments are from those of the sample: the relative error of each in percent, and
the sum of these errors under weights.
-/

namespace BinGrade

variable {α : Type} [Scalar α]

/-- A magnitude up to this counts as zero. -/
def zeroTolerance : α := 1e-10

/-- The error of an estimate that is not zero where it should be. -/
def fullError : α := 100.0

/-- Relative error of an estimate in percent. Against zero every estimate is either right or fully
wrong. -/
def relativeError (raw estimated : α) : α :=
  if zeroTolerance < Scalar.abs raw then
    Scalar.abs (raw - estimated) / Scalar.abs raw * 100.0
  else if zeroTolerance < Scalar.abs estimated then fullError
  else 0.0

structure ErrorComponent (α : Type) where
  rawPercent : α
  weight : α
  weighted : α
deriving BEq

def ErrorComponent.of (rawPercent weight : α) : ErrorComponent α :=
  ⟨rawPercent, weight, weight * rawPercent⟩

structure Comparison (α : Type) where
  total : α
  components : PerMoment (ErrorComponent α)

/-- The weights that a comparison applies: scaled to sum to one, unless all are zero. -/
def appliedWeights (w : Weights α) : Weights α :=
  if 0.0 < w.sum then w.map fun x => x / w.sum else w

def errorComponents (raw estimated : Moments α) (applied : Weights α) :
    PerMoment (ErrorComponent α) :=
  .of fun m => .of (relativeError (raw.get m) (estimated.get m)) (applied.get m)

def compareMoments (raw estimated : Moments α) (weights : List α) :
    Except (ParameterFault α) (Comparison α) := do
  let w ← Weights.ofList weights
  w.checkComponents
  let components := errorComponents raw estimated (appliedWeights w)
  pure ⟨Scalar.total (components.map (·.weighted)).toList, components⟩

namespace Estimator

/-- The error of one moment of a histogram against its sample under a weight (`per_moment`). -/
def momentError (e : Estimator) (xs : List α) (h : Histogram α) (m : Moment) (weight : α) :
    Except (ParameterFault α) (ErrorComponent α) := do
  Weights.checkComponent m weight
  pure (.of (relativeError ((Moments.ofSample xs).get m) ((e.estimate h).get m)) weight)

/-- The weighted error of all moments of a histogram against its sample (`total`). -/
def totalError (e : Estimator) (xs : List α) (h : Histogram α) (weights : List α) :
    Except (ParameterFault α) (Comparison α) :=
  compareMoments (Moments.ofSample xs) (e.estimate h) weights

def varianceError (e : Estimator) (xs : List α) (h : Histogram α) : α :=
  relativeError (Moments.ofSample xs).variance (e.estimate h).variance

end Estimator

end BinGrade
