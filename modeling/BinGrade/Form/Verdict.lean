import BinGrade.Form.Histogram
import BinGrade.Form.Shape
import BinGrade.Search

/-!
# Documents of requests and verdicts
-/

namespace BinGrade

open Json Json.Record

variable [NumberReader]

def Request.form : Form (Request Float) :=
  (field "context" (Form.key Context) <| option "distribution" (Form.key Distribution) <|
    option "precision" (Form.key Precision) <| option "weights" Form.number.list <|
    option "objective" (Form.key Objective) nil).lenient.via
    (fun (context, distribution, precision, weights, objective, _) =>
      ⟨context, distribution, precision, weights, objective⟩)
    (fun r => (r.context, r.distribution, r.precision, r.weights, r.objective, ()))

def SearchRequest.form : Form (SearchRequest Float) :=
  (field "target" (Form.key Tier) <| field "strategies" (Form.key Strategy).list <|
    field "bin_counts" Form.count.list <| field "evaluation" Request.form nil).lenient.via
    (fun (target, strategies, binCounts, evaluation, _) =>
      ⟨target, strategies, binCounts, evaluation⟩)
    (fun r => (r.target, r.strategies, r.binCounts, r.evaluation, ()))

def Verdict.form : Form (Verdict Float) :=
  (field "total_error" Form.number <|
    field "components" (Form.table Moment ErrorComponent.form) <|
    field "moment_tiers" (Form.table Moment (Form.key Tier)) <|
    field "total_tier" (Form.key Tier) <| field "size_tier" (Form.key Tier) <|
    field "overall_tier" (Form.key Tier) <| field "composite_score" Form.number <|
    field "sample_size" Form.count <| field "distribution" ShapeLabel.form <|
    field "context" (Form.key Context) <| option "precision" (Form.key Precision) <|
    field "weights" Weights.rawForm <| field "raw_moments" Moments.form <|
    field "histogram_moments" Moments.form nil).lenient.via
    (fun (totalError, components, momentTiers, totalTier, sizeTier, overallTier, score, sampleSize,
        label, context, precision, weights, rawMoments, histogramMoments, _) =>
      ⟨totalError, components, momentTiers, totalTier, sizeTier, overallTier, score, sampleSize,
        label, context, precision, weights, rawMoments, histogramMoments⟩)
    (fun v => (v.totalError, v.components, v.momentTiers, v.totalTier, v.sizeTier, v.overallTier,
      v.score, v.sampleSize, v.label, v.context, v.precision, v.weights, v.rawMoments,
      v.histogramMoments, ()))

def Attempt.form : Form (Attempt Float) :=
  (field "config" Binning.form <| field "result" Verdict.form nil).lenient.via
    (fun (binning, verdict, _) => ⟨binning, verdict⟩) (fun a => (a.binning, a.verdict, ()))

def SearchResult.form : Form (SearchResult Float) :=
  (field "chosen" Binning.form <| field "result" Verdict.form <|
    field "trace" Attempt.form.list <| field "target_met" Form.bool nil).lenient.via
    (fun (chosen, verdict, trace, targetMet, _) => ⟨chosen, verdict, trace, targetMet⟩)
    (fun r => (r.chosen, r.verdict, r.trace, r.targetMet, ()))

end BinGrade
