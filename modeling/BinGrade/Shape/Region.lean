import BinGrade.Sample
import BinGrade.Scalar.Binary64
import BinGrade.Text.Blank

/-!
# Value regions

A table of named half-open bands, each of which may be open at either end. A sample belongs to the
first band that holds its mean, with a confidence that grows the deeper the mean lies in the band and
the more of the sample's range the band covers.
-/

namespace BinGrade

/-- A named band of values, without its upper bound. -/
structure RegionBand (α : Type) where
  name : String
  lower : α
  upper : α
deriving BEq

structure RegionLabel (α : Type) where
  name : String
  confidence : α
deriving BEq

/-- Bands in the order in which they are tried. -/
structure RegionTable (α : Type) where
  bands : List (RegionBand α)
deriving BEq

variable {α : Type} [Scalar α]

def RegionBand.contains (b : RegionBand α) (x : α) : Bool := b.lower ≤ x && x < b.upper

def RegionLabel.describe (l : RegionLabel Float) : String :=
  l.name ++ " (confidence " ++ Decimal.fixed 2 l.confidence ++ ")"

namespace RegionTable

/-- Refuses a band without a name, with a name seen before, or without room between its bounds. -/
def checkBand (seen : List String) (b : RegionBand α) : Except (ConfigFault α) Unit :=
  if (Text.trimChars b.name.toList).isEmpty then .error .blankBand
  else if seen.contains b.name then .error (.duplicateBand b.name)
  else if Scalar.isNaN b.lower || Scalar.isNaN b.upper || b.upper ≤ b.lower then
    .error (.bandBounds b.name b.lower b.upper)
  else .ok ()

def checkBands : List String → List (RegionBand α) → Except (ConfigFault α) Unit
  | _, [] => .ok ()
  | seen, b :: bands => do
    checkBand seen b
    checkBands (b.name :: seen) bands

def ofBands (bands : List (RegionBand α)) : Except (ConfigFault α) (RegionTable α) := do
  checkBands [] bands
  pure ⟨bands⟩

/-- How deep a mean lies in a band: its distance to the nearer bound, relative to half the width of
the band, or to the range of the sample if the band is open. -/
def depth (b : RegionBand α) (mean range : α) : α :=
  let distance := Scalar.lesser (mean - b.lower) (b.upper - mean)
  let halfWidth := (b.upper - b.lower) / 2.0
  if Scalar.isFinite halfWidth then distance / halfWidth
  else if (!Scalar.isFinite distance && !Scalar.isNaN distance) || range ≤ 0.0 then 1.0
  else distance / range

def coverage (b : RegionBand α) (least greatest : α) : α :=
  let range := greatest - least
  if 0.0 < range then
    Scalar.greater (Scalar.lesser greatest b.upper - Scalar.greater least b.lower) 0.0 / range
  else 1.0

/-- The band of a finite sample, by its mean. -/
def label? (t : RegionTable α) (xs : List α) : Option (RegionLabel α) := do
  let (least, greatest) ← Sample.range? xs
  let mean := Sample.mean xs
  let b ← t.bands.find? (·.contains mean)
  let deep := Scalar.clamp 0.0 1.0 (depth b mean (greatest - least))
  let covered := Scalar.clamp 0.0 1.0 (coverage b least greatest)
  pure ⟨b.name, 0.5 * deep + 0.5 * covered⟩

/-- The band of a sample in an optional table; samples with values that are not finite are refused
even without a table. -/
def classify (t : Option (RegionTable α)) (xs : List α) :
    Except (Error α) (Option (RegionLabel α)) := do
  Sample.checkFinite "sample" xs
  pure (t.bind (·.label? xs))

end RegionTable

end BinGrade
