import BinGrade.Error
import BinGrade.Scalar

/-!
# Moments of a distribution

Mean, variance, skewness and kurtosis, put together from central moments. A distribution with next
to no spread has no shape: its skewness is taken as zero and its kurtosis as that of a normal one.
-/

namespace BinGrade

/-- Mean, variance, skewness and kurtosis (`MomentSet`); the kurtosis of a normal distribution is
three. -/
abbrev Moments (α : Type) := PerMoment α

namespace Moments

variable {α : Type} [Scalar α]

/-- A second moment below this counts as no spread. -/
def leastVariance : α := 1e-10

def flatKurtosis : α := 3.0

def ofCentral (mean m2 m3 m4 : α) : Moments α :=
  if m2 < leastVariance then ⟨mean, m2, 0.0, flatKurtosis⟩
  else ⟨mean, m2, m3 / Scalar.pow m2 1.5, m4 / (m2 * m2)⟩

@[simp] theorem mean_ofCentral (mean m2 m3 m4 : α) : (ofCentral mean m2 m3 m4).mean = mean := by
  unfold ofCentral
  split <;> rfl

@[simp] theorem variance_ofCentral (mean m2 m3 m4 : α) :
    (ofCentral mean m2 m3 m4).variance = m2 := by
  unfold ofCentral
  split <;> rfl

def ofNothing : Moments α := ⟨0.0, 0.0, 0.0, flatKurtosis⟩

def excessKurtosis (p : Moments α) : α := p.kurtosis - 3.0

def isFinite (p : Moments α) : Bool := p.toList.all Scalar.isFinite

def describe (p : Moments Float) : String :=
  "mean=" ++ Decimal.fixed 4 p.mean ++ ", variance=" ++ Decimal.fixed 4 p.variance
    ++ ", skewness=" ++ Decimal.fixed 4 p.skewness ++ ", kurtosis=" ++ Decimal.fixed 4 p.kurtosis

structure PowerSums (α : Type) where
  second : α
  third : α
  fourth : α

def PowerSums.zero : PowerSums α := ⟨0.0, 0.0, 0.0⟩

/-- Population moments of a sample (`sample_moments`). -/
def ofSample (xs : List α) : Moments α :=
  if xs.isEmpty then ofNothing
  else
    let n : α := Scalar.ofCount xs.length
    let mean := Scalar.total xs / n
    let sums := xs.foldl (fun (s : PowerSums α) x =>
      let d := x - mean
      let d2 := d * d
      ⟨s.second + d2, s.third + d2 * d, s.fourth + d2 * d2⟩) .zero
    ofCentral mean (sums.second / n) (sums.third / n) (sums.fourth / n)

end Moments

end BinGrade
