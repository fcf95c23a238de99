import BinGrade.Histogram

/-!
# Binning a sample

Three strategies place the edges of a histogram between the smallest and the largest value of a
sorted sample: at equal widths, at equal frequencies, or at equal widths of the logarithm. Rounding
may bring edges together or out of order, so edges that do not rise are dropped before the values
are counted in one sweep. A sample without spread gets a single bin around its value.
-/

namespace BinGrade

/-- How the edges of bins are placed (`BinningStrategy`). -/
inductive Strategy where
  | uniform
  | quantile
  | logarithmic
deriving DecidableEq

def Strategy.name : Strategy → String
  | uniform => "uniform"
  | quantile => "quantile"
  | logarithmic => "logarithmic"

instance : Key Strategy where
  kind := "binning strategy"
  all := [.uniform, .quantile, .logarithmic]
  name := Strategy.name
  aliases
    | .logarithmic => ["log"]
    | _ => []
  separatorsAlike := false

/-- A strategy with a number of bins (`BinningConfig`). -/
structure Binning where
  strategy : Strategy
  bins : Nat
deriving DecidableEq

variable {α : Type} [Scalar α]

namespace Binning

/-! ### Edges -/

def halfWidth : α := 0.5

/-- Quantiles closer than this are merged. -/
def edgeTolerance : α := 1e-10

/-- Keeps a member only if it is not the same as the last one kept. -/
def dropSame (same : α → α → Bool) : List α → List α
  | [] => []
  | x :: xs => x :: go x xs
where
  go (kept : α) : List α → List α
    | [] => []
    | y :: ys => if same y kept then go kept ys else y :: go y ys

/-- The quantile of a sorted sample at a share between zero and one, interpolated linearly between
the two values around the rank. -/
def quantile (sorted : List α) (p : α) : α :=
  if sorted.isEmpty then 0.0
  else
    let n := sorted.length
    let rank := Scalar.ofCount (n - 1) * Scalar.clamp 0.0 1.0 p
    let low := Scalar.floorCount rank
    let high := min (low + 1) (n - 1)
    let below := sorted.getD low 0.0
    below + (rank - Scalar.ofCount low) * (sorted.getD high 0.0 - below)

def uniformEdges (first last : α) (bins : Nat) : List α :=
  let width := (last - first) / Scalar.ofCount bins
  (List.range bins).map (fun i => first + Scalar.ofCount i * width) ++ [last]

/-- Edges at the quantiles of a sorted sample, the outer ones at its ends. -/
def quantileEdges (sorted : List α) (first last : α) (bins : Nat) : List α :=
  first :: (List.range' 1 (bins - 1)).map
    (fun i => quantile sorted (Scalar.ofCount i / Scalar.ofCount bins)) ++ [last]

/-- Merges edges that are nearly the same; the last edge is the end of the sample again. -/
def mergeEdges (last : α) (edges : List α) : List α :=
  (dropSame (fun a b => Scalar.abs (a - b) < edgeTolerance) edges).dropLast ++ [last]

def logarithmicEdges (first last : α) (bins : Nat) : List α :=
  let start := Scalar.log first
  let step := (Scalar.log last - start) / Scalar.ofCount bins
  first :: (List.range' 1 (bins - 1)).map
    (fun i => Scalar.exp (start + Scalar.ofCount i * step)) ++ [last]

/-! ### Counting -/

/-- Counts values in one sweep: each goes into the current bin, after the sweep has moved on past all
right edges that are not above it. Values beyond the listed edges go into a last bin. -/
def sweep : (rights xs : List α) → (count : Nat) → List Nat
  | [], xs, count => [count + xs.length]
  | _ :: rights, [], count => count :: sweep rights [] 0
  | right :: rights, x :: xs, count =>
    if right ≤ x then count :: sweep rights (x :: xs) 0
    else sweep (right :: rights) xs (count + 1)
termination_by rights xs => rights.length + xs.length

theorem length_sweep (rights xs : List α) (count : Nat) :
    (sweep rights xs count).length = rights.length + 1 := by
  fun_induction sweep rights xs count with
  | case1 xs count => rfl
  | case2 right rights count ih => simp [ih]
  | case3 right rights x xs count h ih => simp [ih]
  | case4 right rights x xs count h ih => exact ih

/-- A sweep counts every value once. -/
theorem sumCounts_sweep (rights xs : List α) (count : Nat) :
    sumCounts (sweep rights xs count) = count + xs.length := by
  fun_induction sweep rights xs count with
  | case1 xs count => simp
  | case2 right rights count ih => simp [ih]
  | case3 right rights x xs count h ih => simp [ih]
  | case4 right rights x xs count h ih =>
    simp only [ih, List.length_cons]
    omega

def single (sorted : List α) : Except (Error α) (Histogram α) :=
  let value := sorted.head?.getD 0.0
  Histogram.ofEdges [value - halfWidth, value + halfWidth] [sorted.length]

/-- Drops edges that do not rise, then counts the sorted sample between the others. -/
def finish (edges sorted : List α) : Except (Error α) (Histogram α) :=
  let rising := dropSame (fun a b => a ≤ b) edges
  if rising.length < 2 then single sorted
  else Histogram.ofEdges rising (sweep rising.tail.dropLast sorted 0)

/-! ### Strategies -/

def ends (sorted : List α) : Except (Error α) (α × α) :=
  match sorted.head?, sorted.getLast? with
  | some first, some last => .ok (first, last)
  | _, _ => .error .empty

def uniform (bins : Nat) (sorted : List α) : Except (Error α) (Histogram α) := do
  let (first, last) ← ends sorted
  if last ≤ first then single sorted
  else finish (uniformEdges first last bins) sorted

/-- The histogram of a sorted sample with bins of equal frequency. If there are fewer values than
bins, it has one bin of equal width for each value instead. -/
def byQuantile (bins : Nat) (sorted : List α) : Except (Error α) (Histogram α) := do
  let (first, last) ← ends sorted
  if last ≤ first then single sorted
  else if sorted.length < bins then uniform sorted.length sorted
  else finish (mergeEdges last (quantileEdges sorted first last bins)) sorted

def logarithmic (bins : Nat) (sorted : List α) : Except (Error α) (Histogram α) := do
  let (first, last) ← ends sorted
  if first ≤ 0.0 then .error (.invalidInput (.notPositive first))
  else if last ≤ first then single sorted
  else finish (logarithmicEdges first last bins) sorted

end Binning

def Strategy.histogram (s : Strategy) (bins : Nat) (sorted : List α) :
    Except (Error α) (Histogram α) :=
  match s with
  | .uniform => Binning.uniform (max bins 1) sorted
  | .quantile => Binning.byQuantile (max bins 1) sorted
  | .logarithmic => Binning.logarithmic (max bins 1) sorted

/-- A maker of histograms of sorted samples, applied to a sample in any order. -/
def Binning.onSorted (make : List α → Except (Error α) (Histogram α)) (xs : List α) :
    Except (Error α) (Histogram α) := do
  Sample.checkFinite "sample" xs
  make (Sample.sorted xs)

namespace Binning

def check (b : Binning) : Except (Error α) Unit :=
  if b.bins = 0 then .error (.invalidParameter .noBins) else .ok ()

def buildSorted (b : Binning) (sorted : List α) : Except (Error α) (Histogram α) := do
  b.check
  b.strategy.histogram b.bins sorted

def build (b : Binning) (xs : List α) : Except (Error α) (Histogram α) :=
  onSorted b.buildSorted xs

def describe (b : Binning) : String := b.strategy.name ++ "/" ++ toString b.bins

end Binning

end BinGrade
