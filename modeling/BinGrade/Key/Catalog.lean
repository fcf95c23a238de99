import BinGrade.Key

/-!
# The catalogue of lookup keys

The keys under which weights and thresholds are filed: the shape of a sample, the use a histogram
is made for, the strictness asked for, and the objective of the analysis.
-/

namespace BinGrade

/-- The shape of a sample (`DistributionType`). -/
inductive Distribution where
  | normal
  | quasiNormal
  | asymmetric
  | leptokurtic
  | multimodal
deriving DecidableEq

/-- What a histogram is going to be used for (`AnalysisContext`). -/
inductive Context where
  | general
  | monitoring
  | stability
  | anomalyDetection
  | characterization
deriving DecidableEq

/-- Requested strictness of the thresholds (`PrecisionLevel`). -/
inductive Precision where
  | high
  | medium
  | low
  | minimal
deriving DecidableEq

/-- The objective of an analysis; it shifts weight towards some of the moments. -/
inductive Objective where
  | centralTendency
  | dispersion
  | shape
  | tailRisk
  | balanced
deriving DecidableEq

def Distribution.name : Distribution → String
  | .normal => "normal"
  | .quasiNormal => "quasi_normal"
  | .asymmetric => "asymmetric"
  | .leptokurtic => "leptokurtic"
  | .multimodal => "multimodal"

def Context.name : Context → String
  | .general => "default"
  | .monitoring => "monitoring"
  | .stability => "stability"
  | .anomalyDetection => "anomaly_detection"
  | .characterization => "characterization"

def Precision.name : Precision → String
  | .high => "high"
  | .medium => "medium"
  | .low => "low"
  | .minimal => "minimal"

def Objective.name : Objective → String
  | .centralTendency => "central_tendency"
  | .dispersion => "dispersion"
  | .shape => "shape"
  | .tailRisk => "tail_risk"
  | .balanced => "balanced"

instance : Key Distribution where
  kind := "distribution type"
  all := [.normal, .quasiNormal, .asymmetric, .leptokurtic, .multimodal]
  name := Distribution.name

instance : Key Context where
  kind := "analysis context"
  all := [.general, .monitoring, .stability, .anomalyDetection, .characterization]
  name := Context.name

instance : Key Precision where
  kind := "precision level"
  all := [.high, .medium, .low, .minimal]
  name := Precision.name

instance : Key Objective where
  kind := "objective"
  all := [.centralTendency, .dispersion, .shape, .tailRisk, .balanced]
  name := Objective.name

instance : Inhabited Distribution := ⟨.normal⟩

instance : Inhabited Context := ⟨.general⟩

end BinGrade
