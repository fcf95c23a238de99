import BinGrade.Proofs.Histogram.Indexed
import BinGrade.Proofs.Shape.Peaks

/-!
# Counting modes by index

The count of modes with every index, every stretch of a list, every difference of counts and every
range of a clamp checked. If the range of bins is not inverted, no check fails, whatever the sample:
candidates stand below the number of heights, a kept peak stands to the left of the next candidate, and
there are as many heights as centers.
-/

namespace BinGrade.Modes

open Scalar

/-! ### Stretches and ranges -/

/-- The members from one index up to another, which is not included; none if they do not fit. -/
def slice? {β : Type} (xs : List β) (start stop : ℕ) : Option (List β) :=
  if start ≤ stop ∧ stop ≤ xs.length then some ((xs.take stop).drop start) else none

/-- The nearest count in a range; none if the range is inverted. -/
def clampCount? (least greatest n : ℕ) : Option ℕ :=
  if least ≤ greatest then some (min (max n least) greatest) else none

theorem slice?_eq {β : Type} {xs : List β} {start stop : ℕ} (h : start ≤ stop)
    (hstop : stop ≤ xs.length) : slice? xs start stop = some ((xs.take stop).drop start) :=
  if_pos ⟨h, hstop⟩

theorem mapM_eq_some {β γ : Type} {f : β → Option γ} {g : β → γ} {xs : List β}
    (h : ∀ x ∈ xs, f x = some (g x)) : xs.mapM f = some (xs.map g) := by
  induction xs with
  | nil => rfl
  | cons x xs ih =>
    obtain ⟨hx, hxs⟩ := List.forall_mem_cons.mp h
    rw [List.mapM_cons, hx, ih hxs]
    rfl

/-! ### Peaks -/

def smooth? (counts : List ℕ) : Option (List Float) :=
  (List.range counts.length).mapM fun i => do
    let window ← slice? counts (i - 1) (min (i + 2) counts.length)
    some (Scalar.ofCount (sumCounts window) / Scalar.ofCount window.length)

def rises? (heights : List Float) (i : ℕ) : Option Bool :=
  if i = 0 then some true
  else do
    let left ← heights[← minus? i 1]?
    let h ← heights[i]?
    some (left < h)

def holds? (heights : List Float) (i : ℕ) : Option Bool :=
  if i = heights.length - 1 then some true
  else do
    let right ← heights[i + 1]?
    let h ← heights[i]?
    some (right ≤ h)

def isCandidate? (heights : List Float) (floor : Float) (i : ℕ) : Option Bool := do
  let rises ← rises? heights i
  let holds ← holds? heights i
  let h ← heights[i]?
  some (rises && holds && floor ≤ h)

/-- The lowest height from one peak to another, and the lower one of the two. -/
def valley? (heights : List Float) (left right : ℕ) : Option (Float × Float) := do
  let between ← slice? heights left (right + 1)
  let leftHeight ← heights[left]?
  let rightHeight ← heights[right]?
  some (Scalar.lowest leftHeight between, Scalar.lesser leftHeight rightHeight)

/-- A taller peak in place of the last one, with the valley before it. -/
def replaceLast? (heights : List Float) (before : List ℕ) (depths : List Float) (peak : ℕ) :
    Option (Walk Float) :=
  match before with
  | [] => some ⟨[peak], depths⟩
  | earlier :: _ => do
    let (lowest, lower) ← valley? heights earlier peak
    match depths with
    | [] => some ⟨peak :: before, []⟩
    | _ :: others =>
      some ⟨peak :: before, (if 0.0 < lower then 1.0 - lowest / lower else 0.0) :: others⟩

def step? (c : ModeConfig Float) (heights : List Float) (w : Walk Float) (peak : ℕ) :
    Option (Walk Float) :=
  match w.kept with
  | [] => some ⟨[peak], w.depths⟩
  | previous :: before => do
    let (lowest, lower) ← valley? heights previous peak
    let distance ← minus? peak previous
    if c.minSeparationBins ≤ distance && 0.0 < lower && lowest ≤ c.valleyRatio * lower then
      some ⟨peak :: w.kept, (1.0 - lowest / lower) :: w.depths⟩
    else do
      let new ← heights[peak]?
      let old ← heights[previous]?
      if old < new then replaceLast? heights before w.depths peak else some w

/-- Tests a bin and walks on to it if it is a candidate. -/
def visit? (c : ModeConfig Float) (heights : List Float) (w : Walk Float) (i : ℕ) :
    Option (Walk Float) := do
  if ← isCandidate? heights (peakFloor c heights) i then step? c heights w i else some w

def separatePeaks? (c : ModeConfig Float) (heights : List Float) :
    Option (List ℕ × List Float) := do
  let w ← (List.range heights.length).foldlM (visit? c heights) ⟨[], []⟩
  some (w.kept.reverse, w.depths.reverse)

variable {heights : List Float} {c : ModeConfig Float}

theorem smooth?_eq (counts : List ℕ) : smooth? counts = some (smooth counts) := by
  refine mapM_eq_some fun i hi => ?_
  rw [List.mem_range] at hi
  rw [slice?_eq (by omega) (by omega)]
  rfl

theorem getElem?_height {i : ℕ} (hi : i < heights.length) :
    heights[i]? = some (height heights i) := by
  rw [height, List.getD_eq_getElem heights 0.0 hi, List.getElem?_eq_getElem hi]

theorem isCandidate?_eq (floor : Float) {i : ℕ} (hi : i < heights.length) :
    isCandidate? heights floor i = some (isCandidate heights floor i) := by
  have hrises : rises? heights i
      = some (i = 0 || height heights (i - 1) < height heights i) := by
    unfold rises?
    split
    · next h => simp [h]
    · next h =>
      simp [h, minus?_eq (by omega : 1 ≤ i), getElem?_height hi,
        getElem?_height (by omega : i - 1 < heights.length)]
  have hholds : holds? heights i
      = some (i = heights.length - 1 || height heights (i + 1) ≤ height heights i) := by
    unfold holds?
    split
    · next h => simp [← h]
    · next h =>
      simp [h, getElem?_height hi, getElem?_height (by omega : i + 1 < heights.length)]
  unfold isCandidate?
  rw [hrises, hholds, getElem?_height hi]
  rfl

theorem valley?_eq {left right : ℕ} (hle : left ≤ right) (hright : right < heights.length) :
    valley? heights left right = some (valley heights left right, lowerPeak heights left right) := by
  unfold valley?
  rw [slice?_eq (by omega) (by omega), getElem?_height (by omega : left < heights.length),
    getElem?_height hright]
  rfl

theorem step?_eq {w : Walk Float} {peak : ℕ} (hpeak : peak < heights.length)
    (hlast : ∀ i ∈ w.kept, i < peak) : step? c heights w peak = some (step c heights w peak) := by
  obtain ⟨kept, depths⟩ := w
  cases kept with
  | nil => rfl
  | cons previous before =>
    obtain ⟨hprevious, hbefore⟩ := List.forall_mem_cons.mp hlast
    unfold step? step
    simp only [valley?_eq hprevious.le hpeak, minus?_eq hprevious.le, getElem?_height hpeak,
      getElem?_height (hprevious.trans hpeak), Option.bind_eq_bind, Option.bind_some]
    change (if areSeparate c heights previous peak then _ else _) = _
    split
    · next hseparate =>
      have hpos : (0.0 : Float) < lowerPeak heights previous peak := by
        simp only [areSeparate, Bool.and_eq_true, decide_eq_true_eq] at hseparate
        exact hseparate.1.2
      rw [depth, if_pos hpos]
    split
    · cases before with
      | nil => rfl
      | cons earlier rest =>
        have hearlier := (List.forall_mem_cons.mp hbefore).1
        simp only [replaceLast?, valley?_eq hearlier.le hpeak, Option.bind_eq_bind, Option.bind_some]
        cases depths <;> rfl
    · rfl

theorem foldlM_visit? {bins : List ℕ} {w : Walk Float} (hrising : bins.Pairwise (· < ·))
    (hbins : ∀ i ∈ bins, i < heights.length) (hbehind : ∀ k ∈ w.kept, ∀ i ∈ bins, k < i) :
    bins.foldlM (visit? c heights) w = some
      ((bins.filter (isCandidate heights (peakFloor c heights))).foldl (step c heights) w) := by
  induction bins generalizing w with
  | nil => rfl
  | cons i bins ih =>
    obtain ⟨hahead, hrising⟩ := List.pairwise_cons.mp hrising
    obtain ⟨hi, hbins⟩ := List.forall_mem_cons.mp hbins
    have hmore : ∀ k ∈ w.kept, ∀ j ∈ bins, k < j := fun k hk j hj =>
      hbehind k hk j (List.mem_cons_of_mem i hj)
    rw [List.foldlM_cons, visit?, isCandidate?_eq _ hi, List.filter_cons]
    cases isCandidate heights (peakFloor c heights) i with
    | false => exact ih hrising hbins hmore
    | true =>
      have hstep := step?_eq (c := c) hi fun k hk => hbehind k hk i List.mem_cons_self
      simp only [Option.bind_eq_bind, Option.bind_some, if_true, hstep, List.foldl_cons]
      refine ih hrising hbins fun k hk j hj => ?_
      rcases mem_kept_step hk with rfl | hkept
      · exact hahead j hj
      · exact hmore k hkept j hj

theorem separatePeaks?_eq (c : ModeConfig Float) (heights : List Float) :
    separatePeaks? c heights = some (separatePeaks c heights) := by
  unfold separatePeaks?
  rw [foldlM_visit? List.pairwise_lt_range (fun i hi => List.mem_range.mp hi) (by simp)]
  rfl

theorem lt_length_of_mem_kept {i : ℕ} (h : i ∈ (separatePeaks c heights).1) :
    i < heights.length := by
  have hwalk : ∀ k ∈ ((candidates c heights).foldl (step c heights) ⟨[], []⟩).kept,
      k < heights.length := by
    refine walk_induction (P := fun _ w => ∀ k ∈ w.kept, k < heights.length) (by simp) ?_
    intro done w peak hw hpeak _ k hk
    rcases mem_kept_step hk with rfl | hkept
    · exact List.mem_range.mp (List.mem_of_mem_filter hpeak)
    · exact hw k hkept
  exact hwalk i (List.mem_reverse.mp h)

/-! ### Modes -/

def binCount? (c : ModeConfig Float) (n : ℕ) (deviation range : Float) : Option ℕ :=
  let width := 3.49 * deviation * Scalar.pow (Scalar.ofCount n) (-1.0 / 3.0)
  let bins := range / width
  let wanted := if Scalar.isFinite bins then Scalar.ceilCount bins else c.maxBins
  clampCount? c.minBins c.maxBins wanted

def ofHistogram? (c : ModeConfig Float) (center : Float) (h : Histogram Float) :
    Option (ModeSummary Float) := do
  let heights ← smooth? h.counts
  let (kept, depths) ← separatePeaks? c heights
  if kept.isEmpty then some (single center)
  else do
    let peaks ← kept.mapM fun i => h.centers[i]?
    let separation := match depths with
      | [] => 0.0
      | d :: ds => Scalar.lowest d ds
    some ⟨kept.length, separation, peaks⟩

/-- The count of modes with every check made; none if one of them fails. -/
def detect? (c : ModeConfig Float) (xs : List Float) :
    Option (Except (Error Float) (ModeSummary Float)) :=
  let n := xs.length
  let center := Sample.mean xs
  if n < c.minSampleSize then some (.ok (single center))
  else
    let sorted := Sample.sorted xs
    match sorted.head?, sorted.getLast? with
    | some least, some greatest =>
      let deviation := Sample.deviation xs
      if greatest ≤ least || deviation ≤ 0.0 then some (.ok (single center))
      else do
        let bins ← binCount? c n deviation (greatest - least)
        match ← Binning.uniform? (max bins 1) sorted with
        | .error e => some (.error e)
        | .ok h => (ofHistogram? c center h).map .ok
    | _, _ => some (.ok (single center))

theorem binCount?_eq (h : c.minBins ≤ c.maxBins) (n : ℕ) (deviation range : Float) :
    binCount? c n deviation range = some (binCount c n deviation range) := if_pos h

theorem ofHistogram?_eq (c : ModeConfig Float) (center : Float) {h : Histogram Float}
    (hv : h.IsValid) : ofHistogram? c center h = some (ofHistogram c center h) := by
  have hcenters : ∀ i ∈ (separatePeaks c (smooth h.counts)).1,
      h.centers[i]? = some (h.centers.getD i 0.0) := by
    intro i hi
    have hlt := lt_length_of_mem_kept hi
    have hlength := hv.length_edges
    rw [smooth, List.length_map, List.length_range] at hlt
    have hcenter : i < h.centers.length := by
      rw [Histogram.centers, List.length_map, length_neighbours]
      omega
    rw [List.getD_eq_getElem _ _ hcenter, List.getElem?_eq_getElem hcenter]
  unfold ofHistogram? ofHistogram
  simp only [smooth?_eq, separatePeaks?_eq, Option.bind_eq_bind, Option.bind_some]
  generalize separatePeaks c (smooth h.counts) = found at hcenters
  obtain ⟨kept, depths⟩ := found
  cases kept with
  | nil => rfl
  | cons i kept =>
    rw [mapM_eq_some hcenters]
    cases depths <;> rfl

/-- No index lies outside and no range is inverted. -/
theorem detect?_eq (hbins : c.minBins ≤ c.maxBins) (xs : List Float) :
    detect? c xs = some (detect c xs) := by
  unfold detect? detect
  dsimp only
  split
  · rfl
  cases (Sample.sorted xs).head? with
  | none => rfl
  | some least =>
    cases (Sample.sorted xs).getLast? with
    | none => rfl
    | some greatest =>
      dsimp only
      split
      · rfl
      simp only [binCount?_eq hbins, Binning.uniform?_eq, Option.bind_eq_bind, Option.bind_some,
        Strategy.histogram]
      cases hmade : Binning.uniform _ (Sample.sorted xs) with
      | error e => rfl
      | ok h => exact congrArg (Option.map _) (ofHistogram?_eq c _ (Binning.counts_uniform hmade).1)

end BinGrade.Modes
