import BinGrade.Key.Catalog
import BinGrade.Moment.Moments
import BinGrade.Shape.Modes

/-!
# The shape of a sample

A sample is labelled by its modes, its tails and its skewness, in this order. The label comes with a
confidence: how deep the statistics lie in the range of the label, less for small samples.
-/

namespace BinGrade

structure CutPoints (α : Type) where
  minModeSeparation : α
  leptokurticExcess : α
  asymmetricSkewness : α
  normalSkewness : α
  normalExcess : α
  fullConfidenceSize : Nat
deriving BEq

/-- A shape with the statistics that support it (`DistributionLabel`). -/
structure ShapeLabel (α : Type) where
  distribution : Distribution
  confidence : α
  skewness : α
  excessKurtosis : α
  modeCount : Option Nat
deriving BEq

structure Classifier (α : Type) where
  cutPoints : CutPoints α
  modes : ModeConfig α
deriving BEq

variable {α : Type} [Scalar α]

def CutPoints.standard : CutPoints α := ⟨0.4, 2.0, 1.0, 0.5, 1.0, 200⟩

def Classifier.standard : Classifier α := ⟨.standard, .standard⟩

namespace ShapeLabel

/-- A shape that is supplied and not found, at full confidence. -/
def assumed (d : Distribution) (p : Moments α) : ShapeLabel α :=
  ⟨d, 1.0, p.skewness, p.excessKurtosis, none⟩

def describe (l : ShapeLabel Float) : String :=
  l.distribution.name ++ " (confidence " ++ Decimal.fixed 2 l.confidence ++ ")"

end ShapeLabel

namespace CutPoints

/-- The shape of a sample, and how deep its statistics lie in the range of that shape. -/
def classify (c : CutPoints α) (p : Moments α) (modes : ModeSummary α) : Distribution × α :=
  let skew := Scalar.abs p.skewness
  let excess := p.excessKurtosis
  if 2 ≤ modes.modeCount && c.minModeSeparation ≤ modes.separation then
    (.multimodal, modes.separation)
  else if c.leptokurticExcess < excess then
    (.leptokurtic, (excess - c.leptokurticExcess) / c.leptokurticExcess)
  else if c.asymmetricSkewness ≤ skew then
    (.asymmetric, skew - c.asymmetricSkewness)
  else if skew < c.normalSkewness && Scalar.abs excess < c.normalExcess then
    (.normal, Scalar.lesser ((c.normalSkewness - skew) / c.normalSkewness)
      ((c.normalExcess - Scalar.abs excess) / c.normalExcess))
  else
    (.quasiNormal, Scalar.lesser
      ((c.asymmetricSkewness - skew) / (c.asymmetricSkewness - c.normalSkewness))
      ((c.leptokurticExcess - excess) / (c.leptokurticExcess - c.normalExcess)))

/-- Confidence that a shape starts from; quasi-normal is a fallback and starts lower. -/
def baseConfidence : Distribution → α
  | .quasiNormal => 0.4
  | _ => 0.5

/-- Confidence that full depth adds; quasi-normal never reaches full confidence. -/
def spanConfidence : Distribution → α
  | .quasiNormal => 0.4
  | _ => 0.5

def sizeFactor (c : CutPoints α) (n : Nat) : α :=
  Scalar.lesser
    (Scalar.sqrt (Scalar.ofCount n / Scalar.ofCount (max c.fullConfidenceSize 1))) 1.0

def confidence (d : Distribution) (depth factor : α) : α :=
  let inside := if Scalar.isFinite depth then Scalar.clamp 0.0 1.0 depth else 0.0
  Scalar.clamp 0.0 1.0 ((baseConfidence d + spanConfidence d * inside) * factor)

end CutPoints

namespace Classifier

def labelFrom (c : Classifier α) (p : Moments α) (modes : ModeSummary α) (n : Nat) :
    ShapeLabel α :=
  let (d, depth) := c.cutPoints.classify p modes
  ⟨d, CutPoints.confidence d depth (c.cutPoints.sizeFactor n), p.skewness, p.excessKurtosis,
    some modes.modeCount⟩

/-- The label of a sample. An empty sample and one without spread are normal, without confidence. -/
def label (c : Classifier α) (xs : List α) : Except (Error α) (ShapeLabel α) := do
  Sample.checkFinite "sample" xs
  let p := Moments.ofSample xs
  if xs.isEmpty || p.variance < Moments.leastVariance then
    pure ⟨.normal, 0.0, p.skewness, p.excessKurtosis, some 1⟩
  else do
    let modes ← Modes.detect c.modes xs
    pure (c.labelFrom p modes xs.length)

end Classifier

end BinGrade
