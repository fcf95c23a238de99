import BinGrade.Threshold.Tables

/-!
# Built-in thresholds

The tables that a registry starts from.
-/

namespace BinGrade

variable {α : Type} [Scalar α]

namespace Tables

def standardSizes : SizeMinima := ⟨500, 100, 30, 10⟩

/-- The built-in set of each shape. The skewness of a symmetric sample lies near zero, so that its
relative error is large and mostly noise; the ceilings of the normal shape allow for that. -/
def builtinDistribution : Distribution → ThresholdSet α
  | .normal =>
    { ceilings :=
        { moments :=
            { mean := ⟨0.05, 0.15, 0.5, 1.5⟩
              variance := ⟨0.3, 1.25, 3.0, 6.0⟩
              skewness := ⟨6.0, 25.0, 60.0, 150.0⟩
              kurtosis := ⟨0.15, 0.4, 1.0, 2.5⟩ }
          total := ⟨8.0, 30.0, 70.0, 170.0⟩ }
      sizes := standardSizes }
  | .quasiNormal =>
    { ceilings :=
        { moments :=
            { mean := ⟨0.1, 0.3, 0.8, 2.0⟩
              variance := ⟨0.5, 1.5, 4.0, 8.0⟩
              skewness := ⟨1.0, 3.0, 8.0, 20.0⟩
              kurtosis := ⟨0.3, 0.8, 2.0, 5.0⟩ }
          total := ⟨2.0, 6.0, 15.0, 35.0⟩ }
      sizes := standardSizes }
  | .asymmetric =>
    { ceilings :=
        { moments :=
            { mean := ⟨0.1, 0.3, 1.0, 2.5⟩
              variance := ⟨0.5, 1.5, 4.0, 8.0⟩
              skewness := ⟨0.5, 1.5, 4.0, 10.0⟩
              kurtosis := ⟨0.3, 1.0, 2.5, 6.0⟩ }
          total := ⟨1.5, 5.0, 12.0, 30.0⟩ }
      sizes := standardSizes }
  | .leptokurtic =>
    { ceilings :=
        { moments :=
            { mean := ⟨0.1, 0.3, 1.0, 2.5⟩
              variance := ⟨0.8, 2.0, 5.0, 10.0⟩
              skewness := ⟨1.0, 3.0, 8.0, 20.0⟩
              kurtosis := ⟨1.0, 3.0, 8.0, 20.0⟩ }
          total := ⟨3.0, 8.0, 20.0, 50.0⟩ }
      sizes := standardSizes }
  | .multimodal =>
    { ceilings :=
        { moments :=
            { mean := ⟨0.15, 0.4, 1.2, 3.0⟩
              variance := ⟨0.8, 2.0, 5.0, 10.0⟩
              skewness := ⟨1.5, 4.0, 10.0, 25.0⟩
              kurtosis := ⟨0.8, 2.0, 5.0, 12.0⟩ }
          total := ⟨3.0, 8.0, 20.0, 50.0⟩ }
      sizes := ⟨1000, 300, 100, 30⟩ }

def builtinContext : Context → Multipliers α
  | .general => .ones
  | .monitoring => ⟨⟨0.8, 0.9, 1.5, 1.5⟩, 1.0⟩
  | .stability => ⟨⟨1.0, 0.8, 1.2, 1.2⟩, 0.9⟩
  | .anomalyDetection => ⟨⟨1.2, 1.0, 0.8, 0.7⟩, 1.0⟩
  | .characterization => ⟨⟨0.9, 0.9, 0.9, 0.9⟩, 0.8⟩

def builtinPrecision : Precision → ThresholdSet α
  | .high =>
    { ceilings :=
        { moments :=
            { mean := ⟨0.02, 0.05, 0.1, 0.25⟩
              variance := ⟨0.1, 0.3, 0.75, 1.5⟩
              skewness := ⟨0.5, 1.5, 4.0, 10.0⟩
              kurtosis := ⟨0.1, 0.3, 0.75, 1.5⟩ }
          total := ⟨0.5, 1.5, 4.0, 10.0⟩ }
      sizes := ⟨1000, 500, 200, 50⟩ }
  | .medium =>
    { ceilings :=
        { moments :=
            { mean := ⟨0.05, 0.15, 0.5, 1.5⟩
              variance := ⟨0.3, 1.25, 3.0, 6.0⟩
              skewness := ⟨2.0, 8.0, 20.0, 50.0⟩
              kurtosis := ⟨0.2, 0.5, 1.25, 3.0⟩ }
          total := ⟨3.0, 10.0, 25.0, 60.0⟩ }
      sizes := standardSizes }
  | .low =>
    { ceilings :=
        { moments :=
            { mean := ⟨0.125, 0.375, 1.25, 3.75⟩
              variance := ⟨0.75, 3.0, 7.5, 15.0⟩
              skewness := ⟨5.0, 20.0, 50.0, 125.0⟩
              kurtosis := ⟨0.5, 1.25, 3.0, 7.5⟩ }
          total := ⟨7.5, 25.0, 60.0, 150.0⟩ }
      sizes := ⟨200, 50, 20, 5⟩ }
  | .minimal =>
    { ceilings :=
        { moments :=
            { mean := ⟨0.3, 0.9, 3.0, 9.0⟩
              variance := ⟨1.8, 7.5, 18.0, 36.0⟩
              skewness := ⟨12.0, 48.0, 120.0, 300.0⟩
              kurtosis := ⟨1.2, 3.0, 7.5, 18.0⟩ }
          total := ⟨18.0, 60.0, 150.0, 360.0⟩ }
      sizes := ⟨100, 30, 10, 3⟩ }

def builtin : Tables α := ⟨builtinDistribution, builtinContext, builtinPrecision⟩

end Tables

instance : Inhabited (Tables α) := ⟨.builtin⟩

end BinGrade
