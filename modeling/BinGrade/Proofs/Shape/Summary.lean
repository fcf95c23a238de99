import BinGrade.Proofs.Shape.Detection
import BinGrade.Proofs.Shape.Groups
import BinGrade.Proofs.Shape.Indexed

/-!
# Summaries of modes

What a count of modes says of itself. Kept peaks are bins that stand apart, so only so many of them
have room; the depth of a valley is a share of a peak; and a sample that is too small has one mode.
-/

namespace BinGrade

open Binary64 Scalar

/-- A summary of a sample with some number of values that fits its parameters. -/
structure ModeSummary.Fits (s : ModeSummary Float) (c : ModeConfig Float) (n : ℕ) : Prop where
  count_eq : s.modeCount = s.peaks.length
  count_pos : 1 ≤ s.modeCount
  unit : (0.0 : Float) ≤ s.separation ∧ s.separation ≤ 1.0
  single : s.modeCount = 1 → s.separation = 0.0
  small : n < c.minSampleSize → s.modeCount = 1
  room : (s.modeCount - 1) * c.minSeparationBins ≤ c.maxBins - 1

namespace Modes

variable {heights : List Float} {c : ModeConfig Float} {n : ℕ}

theorem fits_single (c : ModeConfig Float) (center : Float) (n : ℕ) : (single center).Fits c n where
  count_eq := rfl
  count_pos := Nat.le_refl 1
  unit := (by decide +kernel : (0.0 : Float) ≤ 0.0 ∧ (0.0 : Float) ≤ 1.0)
  single _ := rfl
  small _ := rfl
  room := by
    change 0 * c.minSeparationBins ≤ c.maxBins - 1
    omega

/-! ### Depths -/

theorem one_sub_div_unit {a b : Float} (ha : a.isFinite = true) (hb : b.isFinite = true)
    (h0 : (0.0 : Float) ≤ a) (hab : a ≤ b) (hpos : (0.0 : Float) < b) :
    (0.0 : Float) ≤ 1.0 - a / b ∧ 1.0 - a / b ≤ 1.0 := by
  have hna := isNaN_of_isFinite ha
  have hnb := isNaN_of_isFinite hb
  have h0' : 0 ≤ value a := (le_iff rfl hna).mp h0
  have hab' : value a ≤ value b := (le_iff hna hnb).mp hab
  have hpos' : 0 < value b := (lt_iff rfl hnb).mp hpos
  have hvalue := value_div ha hb hpos'.ne'
  have hq0 : 0 ≤ value (a / b) := by
    rw [hvalue]
    exact nearest_nonneg (div_nonneg h0' hpos'.le)
  have hq1 : value (a / b) ≤ 1 := by
    rw [hvalue, ← nearest_one]
    exact nearest_mono ((div_le_one hpos').mpr hab')
  have hquotient : (a / b).isFinite = true := by
    rw [isFinite_iff (isNaN_div_right hna hb hpos'.ne'), abs_of_nonneg hq0]
    exact hq1.trans_lt one_lt_limit
  obtain ⟨hnumber, hdifference⟩ := value_sub (show (1.0 : Float).isFinite = true from rfl) hquotient
  rw [le_iff rfl hnumber, le_iff hnumber rfl, hdifference, value_one]
  refine ⟨nearest_nonneg (by linarith), ?_⟩
  calc nearest (1 - value (a / b)) ≤ nearest 1 := nearest_mono (by linarith)
    _ = 1 := nearest_one

theorem IsDensity.nonneg_height (hd : IsDensity heights) (i : ℕ) :
    (0.0 : Float) ≤ height heights i := by
  by_cases hi : i < heights.length
  · exact (hd _ (height_mem hi)).2
  · rw [height, List.getD_eq_default _ _ (Nat.not_lt.mp hi)]
    decide +kernel

theorem Separate.depth_unit (hc : c.Moderate) (hd : IsDensity heights) {left right : ℕ}
    (h : Separate c heights left right) :
    (0.0 : Float) ≤ depth heights left right ∧ depth heights left right ≤ 1.0 := by
  obtain ⟨i, _, hi, hvalley⟩ := h.isValley.attained
  have hright := h.far
  have hlower : (lowerPeak heights left right).isFinite = true := by
    rcases h.isLower.attained with heq | heq
    · rw [heq]
      exact hd.isFinite_height left
    · rw [heq]
      exact hd.isFinite_height right
  have hfinite : (valley heights left right).isFinite = true := hvalley ▸ hd.isFinite_height i
  have hnonneg : (0.0 : Float) ≤ valley heights left right := by
    rw [← hvalley]
    exact hd.nonneg_height i
  rw [h.depth_eq]
  exact one_sub_div_unit hfinite hlower hnonneg
    (Ordered.le_trans h.deep (ratio_mul_le hc.valley hlower (Ordered.lt_iff.mp h.pos).1)) h.pos

theorem unit_of_linked (hc : c.Moderate) (hd : IsDensity heights) {pairs : List (ℕ × ℕ)}
    {depths : List Float} (h : List.Forall₂ (Linked c heights) pairs depths) :
    ∀ d ∈ depths, (0.0 : Float) ≤ d ∧ d ≤ 1.0 := by
  induction h with
  | nil => simp
  | cons hpair _ ih =>
    refine List.forall_mem_cons.mpr ⟨?_, ih⟩
    rw [hpair.2]
    exact hpair.1.depth_unit hc hd

/-! ### Room -/

theorem length_mul_le_of_isChain {gap k : ℕ} {ks : List ℕ}
    (h : (k :: ks).IsChain fun a b => b + gap ≤ a) : ks.length * gap ≤ k := by
  induction ks generalizing k with
  | nil => simp
  | cons j ks ih =>
    obtain ⟨hnext, hrest⟩ := List.isChain_cons_cons.mp h
    have := ih hrest
    rw [List.length_cons, Nat.add_mul]
    omega

theorem far_of_linked {kept : List ℕ} {depths : List Float}
    (h : List.Forall₂ (Linked c heights) (neighbours kept) depths) :
    kept.IsChain fun a b => b + c.minSeparationBins ≤ a := by
  rw [isChain_iff_neighbours]
  generalize neighbours kept = pairs at h ⊢
  induction h with
  | nil => simp
  | cons hpair _ ih => exact List.forall_mem_cons.mpr ⟨hpair.1.far, ih⟩

theorem Walk.Sound.room {w : Walk Float} (hw : w.Sound c heights) :
    (w.kept.length - 1) * c.minSeparationBins ≤ heights.length - 1 := by
  have hchain := far_of_linked hw.linked
  have hpeaks := hw.peaks
  cases hkept : w.kept with
  | nil => simp
  | cons k ks =>
    rw [hkept] at hchain hpeaks
    have hlt := (hpeaks k List.mem_cons_self).lt_length
    have := length_mul_le_of_isChain hchain
    rw [List.length_cons, Nat.add_sub_cancel]
    omega

/-! ### Counts of modes -/

/-- The depth of the shallowest valley, zero if there is none. -/
def shallowest : List Float → Float
  | [] => 0.0
  | d :: ds => Scalar.lowest d ds

theorem unit_shallowest {depths : List Float} (h : ∀ d ∈ depths, (0.0 : Float) ≤ d ∧ d ≤ 1.0) :
    (0.0 : Float) ≤ shallowest depths ∧ shallowest depths ≤ 1.0 := by
  cases depths with
  | nil => decide +kernel
  | cons d ds => exact h _ (lowest_mem d ds)

theorem ofHistogram_eq {h : Histogram Float} {i : ℕ} {kept : List ℕ} {depths : List Float}
    (hpeaks : separatePeaks c (smooth h.counts) = (i :: kept, depths)) (center : Float) :
    ofHistogram c center h = ⟨kept.length + 1, shallowest depths,
      (i :: kept).map fun k => h.centers.getD k 0.0⟩ := by
  unfold ofHistogram
  rw [hpeaks]
  cases depths <;> rfl

theorem fits_ofHistogram (hc : c.Moderate) {h : Histogram Float}
    (hd : IsDensity (smooth h.counts)) (hsize : h.size ≤ c.maxBins) (hn : c.minSampleSize ≤ n)
    (center : Float) : (ofHistogram c center h).Fits c n := by
  have hlength : (smooth h.counts : List Float).length = h.size := by
    rw [smooth, List.length_map, List.length_range]
    rfl
  obtain ⟨w, hw, hpeaks⟩ : ∃ w : Walk Float, w.Sound c (smooth h.counts)
      ∧ separatePeaks c (smooth h.counts) = (w.kept.reverse, w.depths.reverse) :=
    ⟨_, sound_walk hc hd, rfl⟩
  have hroom := hw.room
  have hdepths : ∀ d ∈ w.depths.reverse, (0.0 : Float) ≤ d ∧ d ≤ 1.0 := fun d hdepth =>
    unit_of_linked hc hd hw.linked d (List.mem_reverse.mp hdepth)
  have hpaired : w.depths.reverse.length = w.kept.reverse.length - 1 := by
    rw [List.length_reverse, List.length_reverse, ← hw.linked.length_eq, length_neighbours]
  rw [← List.length_reverse] at hroom
  generalize w.depths.reverse = depths at hpeaks hdepths hpaired
  generalize w.kept.reverse = kept at hpeaks hroom hpaired
  cases kept with
  | nil =>
    unfold ofHistogram
    rw [hpeaks]
    exact fits_single ..
  | cons i kept =>
    rw [ofHistogram_eq hpeaks]
    rw [List.length_cons, Nat.add_sub_cancel] at hroom hpaired
    exact {
      count_eq := by simp
      count_pos := Nat.le_add_left 1 kept.length
      unit := unit_shallowest hdepths
      single := by
        intro hone
        have hnone : depths = [] := List.length_eq_zero_iff.mp (hpaired.trans (Nat.succ.inj hone))
        rw [hnone]
        rfl
      small := fun hsmall => absurd hsmall (Nat.not_lt.mpr hn)
      room := hroom.trans (by omega) }

theorem fits_of_detect (c : ModeConfig Float) {xs : List Float}
    (hfinite : Sample.allFinite xs = true) (hlength : xs.length ≤ 2 ^ 64) {s : ModeSummary Float}
    (ok : detect c.sanitized xs = .ok s) : s.Fits c.sanitized xs.length := by
  have hbins : 1 ≤ c.sanitized.maxBins := by
    simp only [ModeConfig.sanitized]
    omega
  by_cases hsize : c.sanitized.minSampleSize ≤ xs.length
  · have hne : xs ≠ [] := by
      simp only [ModeConfig.sanitized] at hsize
      exact List.ne_nil_of_length_pos (by omega)
    obtain ⟨first, last, hs⟩ := ascends_of_ne_nil hfinite hne
    rw [detect_of_ascends hs hsize] at ok
    split at ok
    · cases ok
      exact fits_single ..
    obtain ⟨h, hmade, ok⟩ := exists_of_bind_eq_ok ok
    cases ok
    have hconserves := hs.conserves_uniform (Nat.le_max_right _ _) hmade
    refine fits_ofHistogram c.moderate_sanitized (isDensity_smooth ?_) ?_ hsize _
    · exact hconserves.totalCount_eq.trans_le hlength
    · exact hconserves.size_le.trans (max_le (binCount_le ..) hbins)
  · have hsmall : detect c.sanitized xs = .ok (single (Sample.mean xs)) := by
      simp [detect, Nat.not_le.mp hsize]
    rw [hsmall] at ok
    cases ok
    exact fits_single ..

/-- Whatever the parameters are set to, counting modes passes every check of an index or a range. A
sample has no more values than a machine word counts; if they are finite, every summary fits the
parameters. -/
theorem detect?_eq_and_fits (c : ModeConfig Float) (changes : List (ModeConfig.Setting Float))
    (xs : List Float) :
    detect? (c.configured changes) xs = some (detect (c.configured changes) xs)
      ∧ (Sample.allFinite xs = true → xs.length ≤ 2 ^ 64 →
        ∀ s, detect (c.configured changes) xs = .ok s → s.Fits (c.configured changes) xs.length) := by
  have hrange : (c.configured changes).minBins ≤ (c.configured changes).maxBins :=
    Nat.le_max_right _ _
  exact ⟨detect?_eq hrange xs, fun hfinite hlength s ok => fits_of_detect _ hfinite hlength ok⟩

/-- No ratio at all, another beyond one, no distance, no sample size and an inverted range of bins. -/
def hostile : ModeConfig Float := ⟨0.0 / 0.0, 7.0, 0, 0, 9, 1⟩

/-- The range of bins is inverted again. -/
def inverted : List (ModeConfig.Setting Float) := [.binRange 4 0]

def twoClusters : List Float := [0.0, 0.0, 3.0, 3.0]

theorem sorted_twoClusters : Sample.sorted twoClusters = twoClusters := by
  have h00 : Scalar.sortsBefore (0.0 : Float) 0.0 = true := by decide +kernel
  have h03 : Scalar.sortsBefore (0.0 : Float) 3.0 = true := by decide +kernel
  have h33 : Scalar.sortsBefore (3.0 : Float) 3.0 = true := by decide +kernel
  simp [Sample.sorted, twoClusters, List.mergeSort, h00, h03, h33]

/-- The range holds a single count, so Scott's rule does not matter. -/
theorem binCount_hostile (n : ℕ) (deviation range : Float) :
    binCount (hostile.configured inverted) n deviation range = 4 := by
  have hleast : (hostile.configured inverted).minBins = 4 := rfl
  have hgreatest : (hostile.configured inverted).maxBins = 4 := rfl
  unfold binCount
  simp only [hleast, hgreatest]
  omega

theorem hostile_fits :
    ∃ s, detect? (hostile.configured inverted) twoClusters = some (.ok s) ∧ s.modeCount = 2
      ∧ s.Fits (hostile.configured inverted) 4 := by
  have hfound : (detect (hostile.configured inverted) twoClusters).toOption.map
      ModeSummary.modeCount = some 2 := by
    unfold detect
    simp only [sorted_twoClusters, binCount_hostile]
    decide +kernel
  obtain ⟨s, hsome, hcount⟩ := Option.map_eq_some_iff.mp hfound
  have ok := eq_ok_of_toOption hsome
  obtain ⟨hchecked, hfits⟩ := detect?_eq_and_fits hostile inverted twoClusters
  exact ⟨s, hchecked.trans (congrArg some ok), hcount, hfits (by decide +kernel) (by decide) s ok⟩

end Modes

end BinGrade
