import BinGrade.Histogram
import BinGrade.Moment.Moments

/-!
# Moments of a histogram

The moments of binned data, with the mass of each bin at its center. Binning adds variance; unless
the estimator is told otherwise, it takes Sheppard's correction off again.
-/

namespace BinGrade

/-- How moments are estimated from a histogram (`MomentEstimator`): with or without a correction of
the variance for the width of the bins. -/
structure Estimator where
  corrected : Bool
deriving DecidableEq

instance : Inhabited Estimator := ⟨⟨true⟩⟩

variable {α : Type} [Scalar α]

/-- Sheppard's correction of the variance: a twelfth of the squared mean width of the bins. -/
def Histogram.sheppard (h : Histogram α) : α :=
  let width := Scalar.total (h.frequencies.zipWith (fun f w => f * w) h.widths)
  width * width / 12.0

namespace Estimator

def powerSums (mean : α) (mass : List (α × α)) : Moments.PowerSums α :=
  mass.foldl (fun (s : Moments.PowerSums α) p =>
    let d := p.2 - mean
    let d2 := d * d
    ⟨s.second + p.1 * d2, s.third + p.1 * d2 * d, s.fourth + p.1 * d2 * d2⟩) .zero

def estimate (e : Estimator) (h : Histogram α) : Moments α :=
  if h.totalCount = 0 then Moments.ofNothing
  else
    let mass := h.frequencies.zip h.centers
    let mean := Scalar.total (mass.map fun p => p.1 * p.2)
    let sums := powerSums mean mass
    let second :=
      if e.corrected then Scalar.greater (sums.second - h.sheppard) 0.0 else sums.second
    Moments.ofCentral mean second sums.third sums.fourth

end Estimator

end BinGrade
