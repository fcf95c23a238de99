import Mathlib.Algebra.BigOperators.Group.List.Basic
import Mathlib.Algebra.Order.BigOperators.Group.List
import BinGrade.Moment.Deviation
import BinGrade.Proofs.Histogram.Lookup
import BinGrade.Proofs.Histogram.Validity
import BinGrade.Proofs.Scalar.Field

/-!
# Values grouped by bins

Without rounding, the moments that are estimated from a histogram are those of the sample that
repeats the center of each bin as often as the bin counts. A sample of centers is such a sample in
another order, and the order does not matter to sums. So it is estimated without error. Sheppard's
correction leaves the mean and never raises the variance.
-/

namespace BinGrade

/-- Each center as often as its bin counts. -/
def Histogram.spread {α : Type} [Scalar α] (h : Histogram α) : List α :=
  (h.counts.zip h.centers).flatMap fun p => List.replicate p.1 p.2

section Lists

theorem length_flatMap_replicate {β : Type} {ns : List ℕ} {xs : List β}
    (h : ns.length = xs.length) :
    ((ns.zip xs).flatMap fun p => List.replicate p.1 p.2).length = sumCounts ns := by
  induction ns generalizing xs with
  | nil => rfl
  | cons n ns ih =>
    cases xs with
    | nil => cases h
    | cons x xs =>
      rw [List.zip_cons_cons, List.flatMap_cons, List.length_append, List.length_replicate,
        ih (Nat.succ.inj h), sumCounts_cons]

theorem sum_map_flatMap_replicate {β R : Type} [Semiring R] (g : β → R) (ps : List (ℕ × β)) :
    ((ps.flatMap fun p => List.replicate p.1 p.2).map g).sum
      = (ps.map fun p => (p.1 : R) * g p.2).sum := by
  induction ps with
  | nil => rfl
  | cons p ps ih =>
    rw [List.flatMap_cons, List.map_append, List.sum_append, ih, List.map_replicate,
      List.sum_replicate, nsmul_eq_mul, List.map_cons, List.sum_cons]

theorem count_flatMap_replicate (counts : ℕ → ℕ) (n i : ℕ) :
    ((List.range n).flatMap fun j => List.replicate (counts j) j).count i
      = if i < n then counts i else 0 := by
  induction n with
  | zero => rfl
  | succ n ih =>
    rw [List.range_succ, List.flatMap_append, List.count_append, ih, List.flatMap_singleton,
      List.count_replicate]
    by_cases hi : i = n
    · simp [hi]
    · have hlt : i < n + 1 ↔ i < n := by omega
      simp [hlt, Ne.symm hi]

/-- Numbers below a bound can be listed by how often each occurs. -/
theorem perm_flatMap_count {n : ℕ} {is : List ℕ} (h : ∀ i ∈ is, i < n) :
    ((List.range n).flatMap fun j => List.replicate (is.count j) j).Perm is := by
  rw [List.perm_iff_count]
  intro i
  rw [count_flatMap_replicate]
  split
  · rfl
  · next hi => exact (List.count_eq_zero.mpr fun hmem => hi (h i hmem)).symm

end Lists

variable {K : Type} [Field K] [LinearOrder K] [FloorSemiring K] {f : Transcendental K}

/-! ### Moments of a sample -/

namespace Moments

variable {xs ys : List (Unrounded f)}

/-- Sum of the powers of the deviations from a mean. -/
def deviations (mean : Unrounded f) (k : ℕ) (xs : List (Unrounded f)) : Unrounded f :=
  (xs.map fun x => (x - mean) ^ k).sum

omit [LinearOrder K] [FloorSemiring K] in
/-- Three sums that run together. -/
theorem foldl_powerSums {β : Type} (a b c : β → Unrounded f) (xs : List β)
    (s : PowerSums (Unrounded f)) :
    xs.foldl (fun (s : PowerSums (Unrounded f)) x =>
        ⟨s.second + a x, s.third + b x, s.fourth + c x⟩) s
      = ⟨s.second + (xs.map a).sum, s.third + (xs.map b).sum, s.fourth + (xs.map c).sum⟩ := by
  induction xs generalizing s with
  | nil => simp
  | cons x xs ih =>
    rw [List.foldl_cons, ih]
    simp only [List.map_cons, List.sum_cons, add_assoc]

theorem ofSample_eq_ofCentral (h : xs ≠ []) {mean : Unrounded f}
    (hmean : xs.sum / xs.length = mean) :
    ofSample xs = ofCentral mean (deviations mean 2 xs / xs.length)
      (deviations mean 3 xs / xs.length) (deviations mean 4 xs / xs.length) := by
  have hempty : ¬xs.isEmpty = true := by simpa using h
  have hcount : Scalar.ofCount xs.length = (xs.length : Unrounded f) := rfl
  unfold ofSample
  rw [if_neg hempty]
  simp only [foldl_powerSums, Unrounded.total_eq_sum, hcount, hmean, PowerSums.zero,
    Unrounded.zero_eq, zero_add, deviations, pow_succ, pow_zero, one_mul, mul_assoc]

theorem ofSample_of_perm (h : xs.Perm ys) : ofSample xs = ofSample ys := by
  by_cases hxs : xs = []
  · subst hxs
    rw [List.nil_perm.mp h]
  have hys : ys ≠ [] := by
    rintro rfl
    exact hxs (List.perm_nil.mp h)
  have hdeviations (mean : Unrounded f) (k : ℕ) : deviations mean k xs = deviations mean k ys :=
    (h.map _).sum_eq
  rw [ofSample_eq_ofCentral hxs rfl, ofSample_eq_ofCentral hys rfl, h.sum_eq, h.length_eq]
  simp only [hdeviations]

end Moments

/-! ### Moments of a histogram -/

namespace Histogram

variable {h : Histogram (Unrounded f)}

theorem length_centers (hv : h.IsValid) : h.counts.length = h.centers.length := by
  have hlength := hv.length_edges
  unfold centers
  rw [List.length_map, length_neighbours]
  omega

theorem length_spread (hv : h.IsValid) : h.spread.length = h.totalCount :=
  length_flatMap_replicate (length_centers hv)

/-- Sums under the frequencies are means over the repeated centers. -/
theorem sum_frequencies (hv : h.IsValid) (hcount : 0 < h.totalCount)
    (g : Unrounded f → Unrounded f) :
    ((h.frequencies.zip h.centers).map fun p => p.1 * g p.2).sum
      = (h.spread.map g).sum / h.spread.length := by
  have hfrequencies : h.frequencies
      = h.counts.map fun c : ℕ => (c : Unrounded f) / h.totalCount := if_neg hcount.ne'
  have hterms : ((fun p : Unrounded f × Unrounded f => p.1 * g p.2) ∘ Prod.map
      (fun c : ℕ => (c : Unrounded f) / h.totalCount) id)
      = fun p => (p.1 : Unrounded f) * g p.2 * (h.totalCount : Unrounded f)⁻¹ := by
    funext p
    simp only [Function.comp_apply, Prod.map_fst, Prod.map_snd, id_eq]
    rw [div_mul_eq_mul_div, div_eq_mul_inv]
  rw [length_spread hv, hfrequencies, List.zip_map_left, List.map_map, hterms, spread,
    sum_map_flatMap_replicate, div_eq_mul_inv, List.sum_map_mul_right]

/-- The moments of a histogram are those of its repeated centers, up to the correction. -/
theorem estimate_eq_ofCentral (hv : h.IsValid) (hcount : 0 < h.totalCount) (e : Estimator)
    {mean : Unrounded f} (hmean : h.spread.sum / h.spread.length = mean) :
    e.estimate h = .ofCentral mean
      (if e.corrected then max (Moments.deviations mean 2 h.spread / h.spread.length - h.sheppard) 0
        else Moments.deviations mean 2 h.spread / h.spread.length)
      (Moments.deviations mean 3 h.spread / h.spread.length)
      (Moments.deviations mean 4 h.spread / h.spread.length) := by
  have hsums := sum_frequencies hv hcount
  have htotal : ((h.frequencies.zip h.centers).map fun p => p.1 * p.2).sum = mean := by
    have hid := hsums id
    rw [List.map_id] at hid
    exact hid.trans hmean
  unfold Estimator.estimate Estimator.powerSums
  rw [if_neg hcount.ne']
  simp only [Moments.foldl_powerSums, Unrounded.total_eq_sum, htotal, Moments.PowerSums.zero,
    Unrounded.greater_eq_max, Unrounded.zero_eq, zero_add, Moments.deviations, pow_succ, pow_zero,
    one_mul, mul_assoc, ← hsums]

theorem spread_ne_nil (hv : h.IsValid) (hcount : 0 < h.totalCount) : h.spread ≠ [] := by
  rw [← List.length_pos_iff, length_spread hv]
  exact hcount

theorem estimate_eq_ofSample (hv : h.IsValid) (hcount : 0 < h.totalCount) :
    (⟨false⟩ : Estimator).estimate h = Moments.ofSample h.spread := by
  rw [estimate_eq_ofCentral hv hcount _ rfl,
    Moments.ofSample_eq_ofCentral (spread_ne_nil hv hcount) rfl]
  rfl

theorem mean_estimate (hv : h.IsValid) (hcount : 0 < h.totalCount) (e : Estimator) :
    (e.estimate h).mean = ((⟨false⟩ : Estimator).estimate h).mean := by
  rw [estimate_eq_ofCentral hv hcount _ rfl, estimate_eq_ofCentral hv hcount _ rfl,
    Moments.mean_ofCentral, Moments.mean_ofCentral]

theorem variance_corrected (hv : h.IsValid) (hcount : 0 < h.totalCount) :
    ((⟨true⟩ : Estimator).estimate h).variance
      = max 0 (((⟨false⟩ : Estimator).estimate h).variance - h.sheppard) := by
  rw [estimate_eq_ofCentral hv hcount _ rfl, estimate_eq_ofCentral hv hcount _ rfl,
    Moments.variance_ofCentral, Moments.variance_ofCentral, max_comm]
  rfl

section Bounds

variable [IsStrictOrderedRing K]

theorem sheppard_nonneg (h : Histogram (Unrounded f)) : 0 ≤ h.sheppard :=
  div_nonneg (mul_self_nonneg _) (by norm_num)

theorem variance_nonneg (hv : h.IsValid) (hcount : 0 < h.totalCount) :
    0 ≤ ((⟨false⟩ : Estimator).estimate h).variance := by
  rw [estimate_eq_ofCentral hv hcount _ rfl, Moments.variance_ofCentral]
  have hsum {mean : Unrounded f} : 0 ≤ Moments.deviations mean 2 h.spread := by
    apply List.sum_nonneg
    intro y hy
    obtain ⟨x, _, rfl⟩ := List.mem_map.mp hy
    exact sq_nonneg _
  exact div_nonneg hsum (Nat.cast_nonneg _)

theorem variance_corrected_le (hv : h.IsValid) (hcount : 0 < h.totalCount) :
    ((⟨true⟩ : Estimator).estimate h).variance ≤ ((⟨false⟩ : Estimator).estimate h).variance := by
  rw [variance_corrected hv hcount]
  exact max_le (variance_nonneg hv hcount) (sub_le_self _ (sheppard_nonneg h))

end Bounds

/-! ### Samples of centers -/

section Centers

variable {α : Type} [Scalar α] {edges xs : List α} {h : Histogram α}

/-- Every value is the center of the bin that it falls into. -/
def Centers (h : Histogram α) (xs : List α) : Prop :=
  ∀ x ∈ xs, ∃ i, h.find? x = some i ∧ h.centers[i]? = some x

/-- A list of bins, each with its center, is counted and spread out again in order of the bins. -/
theorem perm_spread_tally {bins : ℕ} {centers : List α} (hbins : centers.length = bins)
    {located : List ℕ} (hlocated : ∀ i ∈ located, i < bins) :
    (((tally bins located).zip centers).flatMap fun p => List.replicate p.1 p.2).Perm
      (located.map fun i => centers.getD i 0.0) := by
  have hcenters : centers = (List.range bins).map fun i => centers.getD i 0.0 :=
    hbins ▸ (map_getD_range centers 0.0).symm
  have hzip : (tally bins located).zip centers
      = (List.range bins).map fun i => (located.count i, centers.getD i 0.0) := by
    nth_rewrite 1 [hcenters]
    exact List.zip_map' ..
  have hspread : (((tally bins located).zip centers).flatMap fun p => List.replicate p.1 p.2)
      = ((List.range bins).flatMap fun i => List.replicate (located.count i) i).map
          fun i => centers.getD i 0.0 := by
    rw [hzip, List.flatMap_map, List.map_flatMap]
    simp only [List.map_replicate]
  rw [hspread]
  exact (perm_flatMap_count hlocated).map _

theorem perm_spread_ofSample (ok : ofSample edges xs = .ok h) (hxs : h.Centers xs) :
    h.spread.Perm xs := by
  obtain ⟨_, _, ok⟩ := exists_of_bind_eq_ok ok
  cases ok
  set h : Histogram α := ⟨edges, tally (edges.length - 1) (xs.filterMap (locate edges))⟩
  have hbins : h.centers.length = edges.length - 1 := by
    rw [centers, List.length_map, length_neighbours]
  have hlocated : ∀ i ∈ xs.filterMap (locate edges), i < edges.length - 1 := by
    intro i hi
    obtain ⟨x, hx, hfound⟩ := List.mem_filterMap.mp hi
    obtain ⟨j, hfind, hcenter⟩ := hxs x hx
    have heq : j = i := Option.some.inj (hfind.symm.trans hfound)
    rw [← heq, ← hbins]
    exact (List.getElem?_eq_some_iff.mp hcenter).1
  have hvalues : (xs.filterMap (locate edges)).map (fun i => h.centers.getD i 0.0) = xs := by
    rw [List.map_filterMap]
    conv_rhs => rw [← List.filterMap_some (l := xs)]
    apply List.filterMap_congr
    intro x hx
    obtain ⟨i, hfind, hcenter⟩ := hxs x hx
    have hfound : locate edges x = some i := hfind
    rw [hfound, Option.map_some, List.getD_eq_getElem?_getD, hcenter]
    rfl
  have hperm := perm_spread_tally hbins hlocated
  rw [hvalues] at hperm
  exact hperm

end Centers

end Histogram

section Exact

variable [IsStrictOrderedRing K]

theorem relativeError_self (a : Unrounded f) : relativeError a a = 0 := by
  have habs : Scalar.abs (0 : Unrounded f) = 0 := abs_zero
  unfold relativeError
  split
  · rw [sub_self, habs, zero_div, zero_mul]
  · exact Unrounded.zero_eq

theorem relativeError_of_centers {edges xs : List (Unrounded f)} {h : Histogram (Unrounded f)}
    (ok : Histogram.ofSample edges xs = .ok h) (hxs : h.Centers xs) (m : Moment) :
    relativeError ((Moments.ofSample xs).get m) (((⟨false⟩ : Estimator).estimate h).get m) = 0 := by
  have hv := (Histogram.isValid_of_ofSample ok).1
  have hperm := Histogram.perm_spread_ofSample ok hxs
  have hmoments : (⟨false⟩ : Estimator).estimate h = Moments.ofSample xs := by
    by_cases hcount : h.totalCount = 0
    · have hnil : xs = [] := by
        rw [← List.length_eq_zero_iff, ← hperm.length_eq, Histogram.length_spread hv, hcount]
      rw [hnil]
      exact if_pos hcount
    · rw [Histogram.estimate_eq_ofSample hv (Nat.pos_of_ne_zero hcount)]
      exact Moments.ofSample_of_perm hperm
  rw [hmoments]
  exact relativeError_self _

/-- Without rounding, an estimate has the moments of the repeated centers, and Sheppard's correction
changes its variance alone and never upwards. A sample of centers, in whatever order, is estimated
without error. -/
theorem estimate_eq_and_relativeError_eq_zero (f : Transcendental K) :
    (∀ h : Histogram (Unrounded f), h.IsValid → 0 < h.totalCount →
      (⟨false⟩ : Estimator).estimate h = Moments.ofSample h.spread
      ∧ ((⟨true⟩ : Estimator).estimate h).mean = ((⟨false⟩ : Estimator).estimate h).mean
      ∧ ((⟨true⟩ : Estimator).estimate h).variance
        = max 0 (((⟨false⟩ : Estimator).estimate h).variance - h.sheppard)
      ∧ ((⟨true⟩ : Estimator).estimate h).variance ≤ ((⟨false⟩ : Estimator).estimate h).variance)
    ∧ ∀ edges xs : List (Unrounded f), 2 ≤ edges.length → edges.Pairwise (· < ·) →
      ∃ h, Histogram.ofSample edges xs = .ok h ∧ h.edges = edges
        ∧ (h.Centers xs → ∀ m, relativeError ((Moments.ofSample xs).get m)
          (((⟨false⟩ : Estimator).estimate h).get m) = 0) := by
  refine ⟨?_, ?_⟩
  · intro h hv hcount
    exact ⟨Histogram.estimate_eq_ofSample hv hcount, Histogram.mean_estimate hv hcount _,
      Histogram.variance_corrected hv hcount, Histogram.variance_corrected_le hv hcount⟩
  · intro edges xs htwo hrising
    have hcheck : Histogram.checkEdges edges = .ok () :=
      Histogram.checkEdges_eq_ok_iff.mpr ⟨htwo, Unrounded.allFinite_eq_true edges, hrising⟩
    obtain ⟨h, ok, hedges, _⟩ := Histogram.ofSample_counts hcheck xs
    exact ⟨h, ok, hedges, relativeError_of_centers ok⟩

end Exact

/-- Rational numbers, with the power that the outer centers need. -/
def tabulated : Transcendental ℚ := ⟨id, fun a b => if a = 9 ∧ b = 1.5 then 27 else 1, id, id⟩

def unevenEdges : List (Unrounded tabulated) := [0.0, 2.0, 6.0, 8.0]

def outerCenters : List (Unrounded tabulated) := [7.0, 1.0, 1.0, 7.0]

theorem outerCenters_estimated : ∃ h, Histogram.ofSample unevenEdges outerCenters = .ok h
    ∧ h.counts = [2, 0, 2] ∧ h.Centers outerCenters
    ∧ (∀ m, relativeError ((Moments.ofSample outerCenters).get m)
      (((⟨false⟩ : Estimator).estimate h).get m) = 0)
    ∧ (⟨false⟩ : Estimator).estimate h = Moments.ofSample [1, 1, 7, 7]
    ∧ ((⟨true⟩ : Estimator).estimate h).variance = 26 / 3 := by
  obtain ⟨hestimate, hsample⟩ := estimate_eq_and_relativeError_eq_zero tabulated
  obtain ⟨⟨edges, counts⟩, ok, hedges, herror⟩ :=
    hsample unevenEdges outerCenters (by decide) (by decide +kernel)
  have hcounts : (Histogram.ofSample unevenEdges outerCenters).toOption.map Histogram.counts
      = some [2, 0, 2] := by
    decide +kernel
  rw [ok] at hcounts
  obtain rfl : edges = unevenEdges := hedges
  obtain rfl : counts = [2, 0, 2] := Option.some.inj hcounts
  have hcenters : ∀ x ∈ outerCenters, ∃ i < 3, Histogram.find? ⟨unevenEdges, [2, 0, 2]⟩ x = some i
      ∧ (Histogram.centers ⟨unevenEdges, [2, 0, 2]⟩)[i]? = some x := by
    decide +kernel
  have hplaced : Histogram.Centers ⟨unevenEdges, [2, 0, 2]⟩ outerCenters := by
    intro x hx
    obtain ⟨i, _, hi⟩ := hcenters x hx
    exact ⟨i, hi⟩
  obtain ⟨hspread, _, hvariance, _⟩ :=
    hestimate _ (Histogram.isValid_of_ofSample ok).1 (by decide)
  have hrepeated : Histogram.spread ⟨unevenEdges, [2, 0, 2]⟩ = [1, 1, 7, 7] := by decide +kernel
  rw [hrepeated] at hspread
  refine ⟨_, ok, rfl, hplaced, herror hplaced, hspread, ?_⟩
  rw [hvariance]
  decide +kernel

end BinGrade
