import BinGrade.Decimal.Dyadic
import BinGrade.Decimal.Shortest
import BinGrade.Decimal.Text
import BinGrade.Error
import BinGrade.Form.Histogram
import BinGrade.Form.Shape
import BinGrade.Form.Threshold
import BinGrade.Form.Verdict
import BinGrade.Histogram
import BinGrade.Histogram.Binning
import BinGrade.Json.Fault
import BinGrade.Json.Form
import BinGrade.Json.Numeral
import BinGrade.Json.Print
import BinGrade.Json.Record
import BinGrade.Json.Scan
import BinGrade.Json.Tree
import BinGrade.Key
import BinGrade.Key.Catalog
import BinGrade.Moment
import BinGrade.Moment.Deviation
import BinGrade.Moment.Estimate
import BinGrade.Moment.Moments
import BinGrade.Proofs.Binary64.Arithmetic
import BinGrade.Proofs.Binary64.Grid
import BinGrade.Proofs.Binary64.Rounding
import BinGrade.Proofs.Binary64.Value
import BinGrade.Proofs.Registry.Soundness
import BinGrade.Proofs.Registry.Store
import BinGrade.Proofs.Search.Answer
import BinGrade.Proofs.Search.Order
import BinGrade.Proofs.Search.Snapshot
import BinGrade.Proofs.Verdict.Score
import BinGrade.Proofs.Weight.Usable
import BinGrade.Sample
import BinGrade.Scalar
import BinGrade.Scalar.Binary64
import BinGrade.Search
import BinGrade.Shape.Label
import BinGrade.Shape.Modes
import BinGrade.Shape.Region
import BinGrade.Text.Blank
import BinGrade.Threshold
import BinGrade.Threshold.Builtin
import BinGrade.Threshold.Registry
import BinGrade.Threshold.Tables
import BinGrade.Tier
import BinGrade.Verdict
import BinGrade.Verdict.Evaluate
import BinGrade.Weight
import BinGrade.Weight.Blend
import BinGrade.Weight.Tables
import BinGrade.Proofs.Scalar.Order
import BinGrade.Proofs.Binary64.Order
import BinGrade.Proofs.Histogram.Counting
import BinGrade.Proofs.Histogram.Conservation
import BinGrade.Proofs.Threshold.Lookup
import BinGrade.Proofs.Verdict.Monotone
import BinGrade.Proofs.Threshold.Resolved
import BinGrade.Proofs.Verdict.Acceptance
import BinGrade.Proofs.Binary64.Sign
import BinGrade.Proofs.Verdict.Shielding
import BinGrade.Proofs.Moment.ZeroWeight
import BinGrade.Proofs.Binary64.Accuracy
import BinGrade.Proofs.Binary64.Overflow
import BinGrade.Proofs.Histogram.Uniform
import BinGrade.Proofs.Shape.Detection
import BinGrade.Proofs.Verdict.Refusal
import BinGrade.Proofs.Decimal.Basin
import BinGrade.Proofs.Json.Literal
import BinGrade.Proofs.Json.Number
import BinGrade.Proofs.Json.Scan
import BinGrade.Proofs.Json.Form
import BinGrade.Proofs.Weight.Normalization
import BinGrade.Proofs.Search.Target
import BinGrade.Proofs.Verdict.Addressing
import BinGrade.Proofs.Search.NormalForm
import BinGrade.Proofs.Json.Carried
import BinGrade.Proofs.Registry.Document
import BinGrade.Proofs.Scalar.Extremes
import BinGrade.Proofs.Shape.Peaks
import BinGrade.Proofs.Histogram.Validity
import BinGrade.Proofs.Shape.Groups
import BinGrade.Proofs.Shape.RegionDocument
import BinGrade.Proofs.Json.Members
import BinGrade.Proofs.Histogram.Document
import BinGrade.Proofs.Histogram.Lookup
import BinGrade.Proofs.Histogram.Indexed
import BinGrade.Proofs.Shape.Indexed
import BinGrade.Proofs.Shape.Summary
import BinGrade.Proofs.Scalar.Exact
import BinGrade.Proofs.Weight.Convex
import BinGrade.Proofs.Binary64.Interval
import BinGrade.Proofs.Weight.Strength
import BinGrade.Proofs.Weight.Share
import BinGrade.Proofs.Binary64.Monotone
import BinGrade.Proofs.Verdict.Ranking
import BinGrade.Proofs.Histogram.Reordering
import BinGrade.Proofs.Scalar.Field
import BinGrade.Proofs.Moment.Grouping
import BinGrade.Proofs.Histogram.Balance
import BinGrade.Proofs.Key.Spelling
import BinGrade.Proofs.Weight.Document
import BinGrade.Proofs.Binary64.Root
import BinGrade.Proofs.Shape.Confidence
import BinGrade.Proofs.Binary64.Missing
import BinGrade.Proofs.Shape.RegionConfidence
import BinGrade.Proofs.Shape.Settings
