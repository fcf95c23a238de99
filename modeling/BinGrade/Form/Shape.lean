import BinGrade.Json.Record
import BinGrade.Shape.Label
import BinGrade.Shape.Region

/-!
# Documents of shapes and regions
-/

namespace BinGrade

open Json Json.Record

variable [NumberReader]

def ModeConfig.form : Form (ModeConfig Float) :=
  (field "min_peak_ratio" Form.number <| field "valley_ratio" Form.number <|
    field "min_separation_bins" Form.count <| field "min_sample_size" Form.count <|
    field "min_bins" Form.count <| field "max_bins" Form.count nil).lenient.via
    (fun (peak, valley, separation, size, least, greatest, _) =>
      ⟨peak, valley, separation, size, least, greatest⟩)
    (fun c => (c.minPeakRatio, c.valleyRatio, c.minSeparationBins, c.minSampleSize, c.minBins,
      c.maxBins, ()))

def ModeSummary.form : Form (ModeSummary Float) :=
  (field "mode_count" Form.count <| field "separation" Form.number <|
    field "peak_locations" Form.number.list nil).lenient.via
    (fun (count, separation, peaks, _) => ⟨count, separation, peaks⟩)
    (fun s => (s.modeCount, s.separation, s.peaks, ()))

def CutPoints.form : Form (CutPoints Float) :=
  (field "min_mode_separation" Form.number <| field "leptokurtic_excess" Form.number <|
    field "asymmetric_skewness" Form.number <| field "normal_skewness" Form.number <|
    field "normal_excess" Form.number <| field "full_confidence_size" Form.count nil).lenient.via
    (fun (separation, leptokurtic, asymmetric, skewness, excess, size, _) =>
      ⟨separation, leptokurtic, asymmetric, skewness, excess, size⟩)
    (fun c => (c.minModeSeparation, c.leptokurticExcess, c.asymmetricSkewness, c.normalSkewness,
      c.normalExcess, c.fullConfidenceSize, ()))

def ShapeLabel.form : Form (ShapeLabel Float) :=
  (field "distribution_type" (Form.key Distribution) <| field "confidence" Form.number <|
    field "skewness" Form.number <| field "excess_kurtosis" Form.number <|
    option "mode_count" Form.count nil).lenient.via
    (fun (distribution, confidence, skewness, excess, modes, _) =>
      ⟨distribution, confidence, skewness, excess, modes⟩)
    (fun l => (l.distribution, l.confidence, l.skewness, l.excessKurtosis, l.modeCount, ()))

def RegionBand.form : Form (RegionBand Float) :=
  (field "name" Form.text <| field "lower" Form.number <| field "upper" Form.number nil).lenient.via
    (fun (name, lower, upper, _) => ⟨name, lower, upper⟩)
    (fun b => (b.name, b.lower, b.upper, ()))

def RegionLabel.form : Form (RegionLabel Float) :=
  (field "name" Form.text <| field "confidence" Form.number nil).lenient.via
    (fun (name, confidence, _) => ⟨name, confidence⟩) (fun l => (l.name, l.confidence, ()))

/-- Bands that are sound as a table. -/
def RegionTable.form : Form (RegionTable Float) :=
  RegionBand.form.list.checked
    (fun bands => (RegionTable.ofBands bands).mapError fun f => Error.message (.invalidConfig f))
    (·.bands)

/-- The region table of a document. Bands that are read but are not sound are an error of the
configuration, not of the document. -/
def RegionTable.ofDocument (s : String) : Except (Error Float) (RegionTable Float) := do
  let bands ← (RegionBand.form.list.parse s).mapError .document
  (RegionTable.ofBands bands).mapError .invalidConfig

def RegionTable.ofFile : Option String → Except (Error Float) (RegionTable Float)
  | some s => RegionTable.ofDocument s
  | none => .error .file

end BinGrade
