import BinGrade.Key

/-!
# The four moments

Mean, variance, skewness and kurtosis, in the order in which weights and errors list them.
-/

namespace BinGrade

inductive Moment where
  | mean
  | variance
  | skewness
  | kurtosis
deriving DecidableEq

namespace Moment

def name : Moment → String
  | mean => "mean"
  | variance => "variance"
  | skewness => "skewness"
  | kurtosis => "kurtosis"

instance : Key Moment where
  kind := "moment"
  all := [mean, variance, skewness, kurtosis]
  name := name
  separatorsAlike := false

def index : Moment → Nat
  | mean => 0
  | variance => 1
  | skewness => 2
  | kurtosis => 3

end Moment

/-- One value for each moment. -/
structure PerMoment (β : Type) where
  mean : β
  variance : β
  skewness : β
  kurtosis : β
deriving BEq

namespace PerMoment

variable {β γ : Type}

def get (p : PerMoment β) : Moment → β
  | .mean => p.mean
  | .variance => p.variance
  | .skewness => p.skewness
  | .kurtosis => p.kurtosis

def toList (p : PerMoment β) : List β :=
  [p.mean, p.variance, p.skewness, p.kurtosis]

def ofList? : List β → Option (PerMoment β)
  | [a, b, c, d] => some ⟨a, b, c, d⟩
  | _ => none

def of (f : Moment → β) : PerMoment β :=
  ⟨f .mean, f .variance, f .skewness, f .kurtosis⟩

def map (f : β → γ) (p : PerMoment β) : PerMoment γ :=
  ⟨f p.mean, f p.variance, f p.skewness, f p.kurtosis⟩

def all (b : β) : PerMoment β := ⟨b, b, b, b⟩

@[simp] theorem get_of (f : Moment → β) (m : Moment) : (of f).get m = f m := by
  cases m <;> rfl

@[simp] theorem get_map (f : β → γ) (p : PerMoment β) (m : Moment) :
    (p.map f).get m = f (p.get m) := by
  cases m <;> rfl

@[simp] theorem get_all (b : β) (m : Moment) : (all b).get m = b := by
  cases m <;> rfl

@[simp] theorem ofList?_toList (p : PerMoment β) : ofList? p.toList = some p := rfl

end PerMoment

end BinGrade
