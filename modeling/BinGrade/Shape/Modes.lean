import BinGrade.Histogram.Binning

/-!
# Modes of a sample

Modes are counted on a smoothed histogram of equal widths. A candidate is a bin that rises above its
left neighbour, does not fall below its right one and is tall enough. Candidates are walked from left
to right: one that is far enough from the last peak kept, across a deep enough valley, is kept too;
one that is not replaces that peak if it is taller.
-/

namespace BinGrade

/-- Parameters of the count of modes (`ModeDetectorConfig`). -/
structure ModeConfig (α : Type) where
  minPeakRatio : α
  valleyRatio : α
  minSeparationBins : Nat
  minSampleSize : Nat
  minBins : Nat
  maxBins : Nat
deriving BEq

/-- What counting the modes of a sample gives. The separation is the depth of the shallowest valley
between neighbouring modes, zero for a single mode. -/
structure ModeSummary (α : Type) where
  modeCount : Nat
  separation : α
  peaks : List α
deriving BEq

variable {α : Type} [Scalar α]

namespace ModeConfig

def standard : ModeConfig α := ⟨0.15, 0.6, 3, 30, 8, 40⟩

def conservative : ModeConfig α := ⟨0.25, 0.4, 4, 50, 8, 40⟩

def sensitive : ModeConfig α := ⟨0.08, 0.75, 2, 20, 8, 40⟩

/-- Every parameter brought into the range that the count can work with. -/
def sanitized (c : ModeConfig α) : ModeConfig α :=
  { minPeakRatio := Scalar.unit c.minPeakRatio
    valleyRatio := Scalar.unit c.valleyRatio
    minSeparationBins := max c.minSeparationBins 1
    minSampleSize := max c.minSampleSize 3
    minBins := max c.minBins 3
    maxBins := max c.maxBins (max c.minBins 3) }

/-- One change of the parameters (a step of the `ModeDetectorBuilder`). -/
inductive Setting (α : Type) where
  | minPeakRatio (ratio : α)
  | valleyRatio (ratio : α)
  | minSeparationBins (bins : Nat)
  | minSampleSize (size : Nat)
  | binRange (least greatest : Nat)

def set (c : ModeConfig α) : Setting α → ModeConfig α
  | .minPeakRatio r => { c with minPeakRatio := Scalar.clamp 0.0 1.0 r }
  | .valleyRatio r => { c with valleyRatio := Scalar.clamp 0.0 1.0 r }
  | .minSeparationBins n => { c with minSeparationBins := max n 1 }
  | .minSampleSize n => { c with minSampleSize := max n 3 }
  | .binRange least greatest =>
    { c with minBins := max least 3, maxBins := max greatest (max least 3) }

/-- The parameters after some changes, brought into range as a whole. -/
def configured (c : ModeConfig α) (changes : List (Setting α)) : ModeConfig α :=
  (changes.foldl set c).sanitized

end ModeConfig

namespace Modes

/-! ### Peaks of a smoothed density -/

def smooth (counts : List Nat) : List α :=
  (List.range counts.length).map fun i =>
    let window := (counts.take (min (i + 2) counts.length)).drop (i - 1)
    Scalar.ofCount (sumCounts window) / Scalar.ofCount window.length

def height (heights : List α) (i : Nat) : α := heights.getD i 0.0

/-- A bin stands above its left neighbour, not below its right one, and is tall enough. -/
def isCandidate (heights : List α) (floor : α) (i : Nat) : Bool :=
  let h := height heights i
  (i = 0 || height heights (i - 1) < h)
    && (i = heights.length - 1 || height heights (i + 1) ≤ h)
    && floor ≤ h

def peakFloor (c : ModeConfig α) (heights : List α) : α :=
  c.minPeakRatio * Scalar.highest (heights.head?.getD 0.0) heights

def candidates (c : ModeConfig α) (heights : List α) : List Nat :=
  (List.range heights.length).filter (isCandidate heights (peakFloor c heights))

def valley (heights : List α) (left right : Nat) : α :=
  Scalar.lowest (height heights left) ((heights.take (right + 1)).drop left)

def lowerPeak (heights : List α) (left right : Nat) : α :=
  Scalar.lesser (height heights left) (height heights right)

/-- How deep the valley between two peaks is, relative to the lower one. -/
def depth (heights : List α) (left right : Nat) : α :=
  let lower := lowerPeak heights left right
  if 0.0 < lower then 1.0 - valley heights left right / lower else 0.0

def areSeparate (c : ModeConfig α) (heights : List α) (left right : Nat) : Bool :=
  let lower := lowerPeak heights left right
  c.minSeparationBins ≤ right - left
    && 0.0 < lower && valley heights left right ≤ c.valleyRatio * lower

/-- The peaks kept so far, the last one first, and the depths of the valleys between neighbours. -/
structure Walk (α : Type) where
  kept : List Nat
  depths : List α

def step (c : ModeConfig α) (heights : List α) (w : Walk α) (peak : Nat) : Walk α :=
  match w.kept with
  | [] => ⟨[peak], w.depths⟩
  | previous :: before =>
    if areSeparate c heights previous peak then
      ⟨peak :: w.kept, depth heights previous peak :: w.depths⟩
    else if height heights previous < height heights peak then
      match before, w.depths with
      | earlier :: _, _ :: depths => ⟨peak :: before, depth heights earlier peak :: depths⟩
      | _, depths => ⟨peak :: before, depths⟩
    else w

/-- The separate peaks of a density from left to right, and the depths of the valleys between
neighbours (`separated_peaks`). -/
def separatePeaks (c : ModeConfig α) (heights : List α) : List Nat × List α :=
  let w := (candidates c heights).foldl (step c heights) ⟨[], []⟩
  (w.kept.reverse, w.depths.reverse)

/-! ### Counting modes -/

/-- Number of bins after Scott's rule, within the configured range. -/
def binCount (c : ModeConfig α) (n : Nat) (deviation range : α) : Nat :=
  let width := 3.49 * deviation * Scalar.pow (Scalar.ofCount n) (-1.0 / 3.0)
  let bins := range / width
  let wanted := if Scalar.isFinite bins then Scalar.ceilCount bins else c.maxBins
  min (max wanted c.minBins) c.maxBins

def single (location : α) : ModeSummary α := ⟨1, 0.0, [location]⟩

/-- The summary of a histogram's separate peaks; without any there is a single mode. -/
def ofHistogram (c : ModeConfig α) (center : α) (h : Histogram α) : ModeSummary α :=
  match separatePeaks c (smooth h.counts) with
  | ([], _) => single center
  | (kept, depths) =>
    let separation := match depths with
      | [] => 0.0
      | d :: ds => Scalar.lowest d ds
    ⟨kept.length, separation, kept.map fun i => h.centers.getD i 0.0⟩

def detect (c : ModeConfig α) (xs : List α) : Except (Error α) (ModeSummary α) :=
  let n := xs.length
  let center := Sample.mean xs
  if n < c.minSampleSize then .ok (single center)
  else
    let sorted := Sample.sorted xs
    match sorted.head?, sorted.getLast? with
    | some least, some greatest =>
      let deviation := Sample.deviation xs
      if greatest ≤ least || deviation ≤ 0.0 then .ok (single center)
      else do
        let bins := binCount c n deviation (greatest - least)
        let h ← Strategy.uniform.histogram bins sorted
        pure (ofHistogram c center h)
    | _, _ => .ok (single center)

end Modes

def ModeSummary.isMultimodal (s : ModeSummary α) : Bool := 1 < s.modeCount

end BinGrade
