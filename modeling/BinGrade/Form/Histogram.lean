import BinGrade.Histogram.Binning
import BinGrade.Json.Record
import BinGrade.Moment.Deviation
import BinGrade.Weight.Blend

/-!
# Documents of histograms, moments and weights

Histograms and weight vectors are checked when they are read, and refused with the same words as
when they are built from values.
-/

namespace BinGrade

open Json Json.Record

variable [NumberReader]

def PerMoment.fields :
    Record (Option Float × Option Float × Option Float × Option Float × Unit)
      (Float × Float × Float × Float × Unit) :=
  field "mean" Form.number <| field "variance" Form.number <| field "skewness" Form.number <|
    field "kurtosis" Form.number nil

def PerMoment.ofFields : Float × Float × Float × Float × Unit → PerMoment Float
  | (mean, variance, skewness, kurtosis, _) => ⟨mean, variance, skewness, kurtosis⟩

def PerMoment.toFields (p : PerMoment Float) : Float × Float × Float × Float × Unit :=
  (p.mean, p.variance, p.skewness, p.kurtosis, ())

def Moments.form : Form (Moments Float) :=
  PerMoment.fields.lenient.via PerMoment.ofFields PerMoment.toFields

/-- Weights as a list of four numbers, as they are. -/
def Weights.rawForm : Form (Weights Float) :=
  PerMoment.fields.tuple.via PerMoment.ofFields PerMoment.toFields

/-- Weights as a list of four numbers that sum to one. -/
def Weights.form : Form (Weights Float) :=
  Weights.rawForm.checked (fun w => w.check.mapError ParameterFault.sentence) id

def Histogram.form : Form (Histogram Float) :=
  (field "bin_edges" Form.number.list <| field "bin_counts" Form.count.list nil).lenient.checked
    (fun (edges, counts, _) => (Histogram.ofEdges edges counts).mapError Error.message)
    (fun h => (h.edges, h.counts, ()))

def Binning.form : Form Binning :=
  (field "strategy" (Form.key Strategy) <| field "num_bins" Form.count nil).lenient.via
    (fun (strategy, bins, _) => ⟨strategy, bins⟩) (fun b => (b.strategy, b.bins, ()))

def Estimator.form : Form Estimator :=
  (field "apply_correction" Form.bool nil).lenient.via (fun (corrected, _) => ⟨corrected⟩)
    (fun e => (e.corrected, ()))

def ErrorComponent.form : Form (ErrorComponent Float) :=
  (field "raw_error_pct" Form.number <| field "weight" Form.number <|
    field "weighted_error" Form.number nil).lenient.via
    (fun (raw, weight, weighted, _) => ⟨raw, weight, weighted⟩)
    (fun c => (c.rawPercent, c.weight, c.weighted, ()))

def Influence.form : Form (Influence Float) :=
  (field "distribution" Form.number <| field "objective" Form.number <|
    field "max_blend" Form.number nil).lenient.via
    (fun (distribution, objective, maxBlend, _) => ⟨distribution, objective, maxBlend⟩)
    (fun i => (i.distribution, i.objective, i.maxBlend, ()))

/-! ### Weight tables -/

/-- One value for each use, all of them present. -/
def Context.tableForm {β : Type} (f : Form β) : Form (Context → β) :=
  (field "default" f <| field "monitoring" f <| field "stability" f <|
    field "anomaly_detection" f <| field "characterization" f nil).strict.via
    (fun (g, m, s, a, c, _) => fun
      | .general => g
      | .monitoring => m
      | .stability => s
      | .anomalyDetection => a
      | .characterization => c)
    (fun t => (t .general, t .monitoring, t .stability, t .anomalyDetection,
      t .characterization, ()))

def Distribution.tableForm {β : Type} (f : Form β) : Form (Distribution → β) :=
  (field "normal" f <| field "quasi_normal" f <| field "asymmetric" f <|
    field "leptokurtic" f <| field "multimodal" f nil).strict.via
    (fun (n, q, a, l, m, _) => fun
      | .normal => n
      | .quasiNormal => q
      | .asymmetric => a
      | .leptokurtic => l
      | .multimodal => m)
    (fun t => (t .normal, t .quasiNormal, t .asymmetric, t .leptokurtic, t .multimodal, ()))

def Objective.tableForm {β : Type} (f : Form β) : Form (Objective → β) :=
  (field "central_tendency" f <| field "dispersion" f <| field "shape" f <|
    field "tail_risk" f <| field "balanced" f nil).strict.via
    (fun (c, d, s, t, b, _) => fun
      | .centralTendency => c
      | .dispersion => d
      | .shape => s
      | .tailRisk => t
      | .balanced => b)
    (fun t => (t .centralTendency, t .dispersion, t .shape, t .tailRisk, t .balanced, ()))

def WeightTables.form : Form (WeightTables Float) :=
  (field "contexts" (Context.tableForm Weights.form) <|
    field "distributions" (Distribution.tableForm Weights.form) <|
    field "objectives" (Objective.tableForm Weights.form) nil).strict.via
    (fun (contexts, distributions, objectives, _) => ⟨contexts, distributions, objectives⟩)
    (fun t => (t.contexts, t.distributions, t.objectives, ()))

/-- The weight tables of a document (`from_json`). -/
def WeightTables.ofDocument (s : String) : Except (Error Float) (WeightTables Float) :=
  (WeightTables.form.parse s).mapError .document

/-- The weight tables of a file with these contents; none if it cannot be read. -/
def WeightTables.ofFile : Option String → Except (Error Float) (WeightTables Float)
  | some s => WeightTables.ofDocument s
  | none => .error .file

end BinGrade
