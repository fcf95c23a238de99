import BinGrade.Threshold.Registry
import BinGrade.Verdict
import BinGrade.Weight.Blend

/-!
# Evaluating a histogram

An evaluation prepares the sample, which does not depend on the histogram, and then grades the
histogram. What the caller leaves open is settled on the way: the shape by classifying the sample and
the weights by blending. The thresholds are those in force when the sample was prepared.
-/

namespace BinGrade

structure Request (α : Type) where
  context : Context
  distribution : Option Distribution
  precision : Option Precision
  weights : Option (List α)
  objective : Option Objective
deriving BEq

/-- The parts of an evaluation that do not change with the request (`QualityEvaluator`). -/
structure Evaluator (α : Type) where
  classifier : Classifier α
  engine : WeightEngine α
  estimator : Estimator

/-- What all histograms of a sample have in common. -/
structure Prepared (α : Type) where
  sampleSize : Nat
  moments : Moments α
  label : ShapeLabel α
  tables : Tables α

variable {α : Type} [Scalar α]

namespace Request

def plain : Request α := ⟨.general, none, none, none, none⟩

def check (r : Request α) : Except (ParameterFault α) Unit :=
  match r.weights with
  | none => .ok ()
  | some xs => do
    let w ← Weights.ofList xs
    w.checkComponents

end Request

namespace Evaluator

def standard : Evaluator α := ⟨.standard, .standard, ⟨true⟩⟩

variable (e : Evaluator α)

/-- The label of a sample: as assumed by the request, else as found. -/
def labelOf (xs : List α) (moments : Moments α) (r : Request α) :
    Except (Error α) (ShapeLabel α) :=
  match r.distribution with
  | some d => .ok (.assumed d moments)
  | none => e.classifier.label xs

/-- Prepares a sample. The request is checked before the sample is looked at. -/
def prepare (tables : Tables α) (xs : List α) (r : Request α) :
    Except (Error α) (Prepared α) := do
  r.check.mapError .invalidParameter
  Sample.checkFinite "sample" xs
  let moments := Moments.ofSample xs
  let label ← e.labelOf xs moments r
  pure ⟨xs.length, moments, label, tables⟩

/-- The weights to compare with: as given by the request, else blended. -/
def weightsFor (label : ShapeLabel α) (r : Request α) : List α :=
  match r.weights with
  | some xs => xs
  | none => (e.engine.resolve r.context (some label) r.objective).toList

def grade (thresholds : ThresholdSet α) (p : Prepared α) (r : Request α)
    (histogramMoments : Moments α) (c : Comparison α) : Verdict α :=
  let momentTiers : PerMoment Tier :=
    .of fun m => thresholds.momentTier m (c.components.get m).weighted
  let totalTier := thresholds.totalTier c.total
  let sizeTier := thresholds.sizeTier p.sampleSize
  let overall := Tier.worstOf (momentTiers.toList ++ [totalTier, sizeTier])
  { totalError := c.total
    components := fun m => some (c.components.get m)
    momentTiers := fun m => some (momentTiers.get m)
    totalTier := totalTier
    sizeTier := sizeTier
    overallTier := overall
    score := score overall c.total
    sampleSize := p.sampleSize
    label := p.label
    context := r.context
    precision := r.precision
    weights := c.components.map (·.weight)
    rawMoments := p.moments
    histogramMoments := histogramMoments }

def evaluatePrepared (p : Prepared α) (h : Histogram α) (r : Request α) :
    Except (Error α) (Verdict α) := do
  let histogramMoments := e.estimator.estimate h
  let c ← (compareMoments p.moments histogramMoments (e.weightsFor p.label r)).mapError
    .invalidParameter
  let thresholds := p.tables.resolve p.label.distribution r.context r.precision
  pure (grade thresholds p r histogramMoments c)

/-- The verdict on a histogram of a sample, under the tables in force. -/
def evaluate (registry : Registry α) (xs : List α) (h : Histogram α) (r : Request α) :
    Except (Error α) (Verdict α) := do
  let p ← e.prepare registry.tables xs r
  e.evaluatePrepared p h r

end Evaluator

end BinGrade
