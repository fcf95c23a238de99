import BinGrade.Moment.Deviation
import BinGrade.Shape.Label
import BinGrade.Tier

/-!
# Verdicts

What grading one histogram of a sample gives: its errors, the tier of each metric, the worst of them
as the overall tier, and a score. The tier chooses a band of scores, and the total error the place in
that band.
-/

namespace BinGrade

/-- The verdict on a histogram of a sample (`QualityResult`). -/
structure Verdict (α : Type) where
  totalError : α
  components : Moment → Option (ErrorComponent α)
  momentTiers : Moment → Option Tier
  totalTier : Tier
  sizeTier : Tier
  overallTier : Tier
  score : α
  sampleSize : Nat
  label : ShapeLabel α
  context : Context
  precision : Option Precision
  weights : Weights α
  rawMoments : Moments α
  histogramMoments : Moments α

variable {α : Type} [Scalar α]

def scoreBand : Tier → α × α
  | .excellent => (0.9, 1.0)
  | .good => (0.75, 0.9)
  | .acceptable => (0.5, 0.75)
  | .poor => (0.25, 0.5)
  | .unacceptable => (0.0, 0.25)

/-- A total error of this size stands in the middle of a band. -/
def scoreScale : α := 10.0

/-- Place in a band: one for no error, falling towards zero as the error grows, and zero for an error
that is no number. -/
def scorePosition (totalError : α) : α :=
  if Scalar.isNaN totalError then 0.0
  else 1.0 / (1.0 + Scalar.greater totalError 0.0 / scoreScale)

/-- The score of a tier and a total error (`composite_score`). -/
def score (tier : Tier) (totalError : α) : α :=
  let (low, high) := scoreBand tier
  low + (high - low) * scorePosition totalError

def sameTable {κ β : Type} [Key κ] [BEq β] (s t : κ → β) : Bool :=
  (Key.all : List κ).all fun k => s k == t k

instance : BEq (Verdict α) where
  beq u v :=
    u.totalError == v.totalError && sameTable u.components v.components
      && sameTable u.momentTiers v.momentTiers && u.totalTier == v.totalTier
      && u.sizeTier == v.sizeTier && u.overallTier == v.overallTier && u.score == v.score
      && u.sampleSize == v.sampleSize && u.label == v.label && u.context == v.context
      && u.precision == v.precision && u.weights == v.weights && u.rawMoments == v.rawMoments
      && u.histogramMoments == v.histogramMoments

namespace Verdict

variable (v : Verdict α)

def meets (target : Tier) : Bool := v.overallTier.isAtLeast target

def rawError? (m : Moment) : Option α := (v.components m).map (·.rawPercent)

/-- The moment with the larger weighted error of the best one so far and the next one; the earlier
one if both are the same. -/
def dominantStep (best : Option (Moment × α)) (next : Moment × α) : Option (Moment × α) :=
  match best with
  | none => some next
  | some b => if b.2 < next.2 then some next else some b

def dominant? : Option Moment :=
  let errors := (Key.all : List Moment).filterMap fun m =>
    (v.components m).map fun c => (m, c.weighted)
  (errors.foldl dominantStep none).map (·.1)

def describe (v : Verdict Float) : String :=
  v.overallTier.name ++ " (score " ++ Decimal.fixed 3 v.score ++ ", total error "
    ++ Decimal.fixed 4 v.totalError ++ ", " ++ v.label.describe ++ ")"

end Verdict

end BinGrade
