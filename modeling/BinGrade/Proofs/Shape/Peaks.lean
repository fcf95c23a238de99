import BinGrade.Proofs.Scalar.Unit
import BinGrade.Shape.Modes

/-!
# Separate peaks

The walk over the candidates keeps a list of peaks, neighbouring ones of which are far apart and have
a deep valley between them. A taller peak that replaces the last one lies further to the right, so the
valley before it is no shallower and the lower of the two peaks no lower: nothing has to be tested
again, and only the depth of the last valley changes.
-/

namespace BinGrade

open Binary64 Scalar

/-! ### Ratios -/

/-- The ratios of the parameters lie between zero and one. -/
structure ModeConfig.Moderate (c : ModeConfig Float) : Prop where
  peak : (0.0 : Float) ≤ c.minPeakRatio ∧ c.minPeakRatio ≤ 1.0
  valley : (0.0 : Float) ≤ c.valleyRatio ∧ c.valleyRatio ≤ 1.0
  apart : 1 ≤ c.minSeparationBins

theorem ModeConfig.moderate_sanitized (c : ModeConfig Float) : c.sanitized.Moderate where
  peak := unit_bounds c.minPeakRatio
  valley := unit_bounds c.valleyRatio
  apart := Nat.le_max_right _ _

section Ratio

variable {r x y : Float} (hr : (0.0 : Float) ≤ r ∧ r ≤ 1.0)

include hr

theorem isFinite_ratio : r.isFinite = true := isFinite_of_le hr.1 hr.2 rfl

theorem ratio_mul_mono (hx : x.isFinite = true) (hy : y.isFinite = true) (h : x ≤ y) :
    r * x ≤ r * y := by
  have hfinite := isFinite_ratio hr
  obtain ⟨hleft, hvalue⟩ := value_mul hfinite hx
  obtain ⟨hright, hvalue'⟩ := value_mul hfinite hy
  have hxy := (le_iff (isNaN_of_isFinite hx) (isNaN_of_isFinite hy)).mp h
  have hnonneg : 0 ≤ value r := (le_iff rfl (isNaN_of_isFinite hfinite)).mp hr.1
  rw [le_iff hleft hright, hvalue, hvalue']
  exact nearest_mono (mul_le_mul_of_nonneg_left hxy hnonneg)

theorem ratio_mul_le (hx : x.isFinite = true) (hpos : (0.0 : Float) ≤ x) : r * x ≤ x := by
  have hfinite := isFinite_ratio hr
  obtain ⟨hnumber, hvalue⟩ := value_mul hfinite hx
  have hone : value r ≤ value (1.0 : Float) := (le_iff (isNaN_of_isFinite hfinite) rfl).mp hr.2
  have hnonneg : 0 ≤ value x := (le_iff rfl (isNaN_of_isFinite hx)).mp hpos
  rw [le_iff hnumber (isNaN_of_isFinite hx), hvalue]
  exact nearest_le_value (mul_le_of_le_one_left hnonneg (value_one ▸ hone))

end Ratio

namespace Modes

/-! ### Heights -/

/-- Heights of bins are finite and not negative. -/
def IsDensity (heights : List Float) : Prop :=
  ∀ x ∈ heights, x.isFinite = true ∧ (0.0 : Float) ≤ x

instance (heights : List Float) : Decidable (IsDensity heights) :=
  inferInstanceAs (Decidable (∀ x ∈ heights, _))

variable {heights : List Float} {c : ModeConfig Float}

theorem height_mem {i : ℕ} (h : i < heights.length) : height heights i ∈ heights := by
  rw [height, List.getD_eq_getElem heights 0.0 h]
  exact List.getElem_mem h

theorem exists_height_eq {x : Float} (h : x ∈ heights) :
    ∃ i < heights.length, height heights i = x := by
  obtain ⟨i, hi, rfl⟩ := List.mem_iff_getElem.mp h
  exact ⟨i, hi, List.getD_eq_getElem heights 0.0 hi⟩

namespace IsDensity

variable (hd : IsDensity heights)

include hd

theorem isFinite_height (i : ℕ) : (height heights i).isFinite = true := by
  by_cases hi : i < heights.length
  · exact (hd _ (height_mem hi)).1
  · rw [height, List.getD_eq_default _ _ (Nat.not_lt.mp hi)]
    rfl

theorem isNaN_height (i : ℕ) : Scalar.isNaN (height heights i) = false :=
  isNaN_of_isFinite (hd.isFinite_height i)

theorem isNaN_of_mem {x : Float} (hx : x ∈ heights) : Scalar.isNaN x = false :=
  isNaN_of_isFinite (hd x hx).1

theorem height_le_refl (i : ℕ) : height heights i ≤ height heights i :=
  Ordered.le_refl (hd.isNaN_height i)

end IsDensity

/-! ### Candidates -/

/-- A bin that may be kept as a peak. -/
structure IsPeak (c : ModeConfig Float) (heights : List Float) (i : ℕ) : Prop where
  lt_length : i < heights.length
  rises : i = 0 ∨ height heights (i - 1) < height heights i
  holds : i + 1 = heights.length ∨ height heights (i + 1) ≤ height heights i
  tall : ∀ x ∈ heights, c.minPeakRatio * x ≤ height heights i

theorem highest_head_mem (h : heights ≠ []) :
    Scalar.highest (heights.head?.getD 0.0) heights ∈ heights := by
  cases heights with
  | nil => exact absurd rfl h
  | cons x xs =>
    rcases List.mem_cons.mp (highest_mem x (x :: xs)) with heq | hmem
    · rw [List.head?_cons, Option.getD_some, heq]
      exact List.mem_cons_self
    · exact hmem

theorem le_highest_head (hd : IsDensity heights) {x : Float} (hx : x ∈ heights) :
    x ≤ Scalar.highest (heights.head?.getD 0.0) heights := by
  cases heights with
  | nil => cases hx
  | cons y ys =>
    refine le_highest ?_ x (List.mem_cons_of_mem _ hx)
    exact List.forall_mem_cons.mpr ⟨hd.isNaN_of_mem List.mem_cons_self, fun _ => hd.isNaN_of_mem⟩

theorem peakFloor_le_iff (hc : c.Moderate) (hd : IsDensity heights) (hne : heights ≠ []) {h : Float} :
    peakFloor c heights ≤ h ↔ ∀ x ∈ heights, c.minPeakRatio * x ≤ h := by
  have hmem := highest_head_mem hne
  constructor
  · intro hfloor x hx
    exact Ordered.le_trans
      (ratio_mul_mono hc.peak (hd x hx).1 (hd _ hmem).1 (le_highest_head hd hx)) hfloor
  · exact fun htall => htall _ hmem

theorem mem_candidates (hc : c.Moderate) (hd : IsDensity heights) {i : ℕ} :
    i ∈ candidates c heights ↔ IsPeak c heights i := by
  rw [candidates, List.mem_filter, List.mem_range]
  by_cases hi : i < heights.length
  · have hne : heights ≠ [] := List.ne_nil_of_length_pos (by omega)
    have hlast : i = heights.length - 1 ↔ i + 1 = heights.length := by omega
    simp only [isCandidate, hi, true_and, Bool.and_eq_true, Bool.or_eq_true, decide_eq_true_eq,
      peakFloor_le_iff hc hd hne, hlast]
    exact ⟨fun h => ⟨hi, h.1.1, h.1.2, h.2⟩, fun h => ⟨⟨h.rises, h.holds⟩, h.tall⟩⟩
  · exact ⟨fun h => absurd h.1 hi, fun h => absurd h.lt_length hi⟩

theorem pairwise_candidates (c : ModeConfig Float) (heights : List Float) :
    (candidates c heights).Pairwise (· < ·) :=
  List.pairwise_lt_range.filter _

/-! ### Valleys -/

theorem mem_slice {left right : ℕ} {x : Float} (hright : right < heights.length) :
    x ∈ (heights.take (right + 1)).drop left
      ↔ ∃ i, left ≤ i ∧ i ≤ right ∧ height heights i = x := by
  constructor
  · intro hx
    obtain ⟨j, hj, rfl⟩ := List.mem_iff_getElem.mp hx
    rw [List.length_drop, List.length_take] at hj
    refine ⟨left + j, by omega, by omega, ?_⟩
    rw [List.getElem_drop, List.getElem_take, height, List.getD_eq_getElem]
  · rintro ⟨i, hleft, hle, rfl⟩
    refine List.mem_iff_getElem.mpr ⟨i - left, ?_, ?_⟩
    · rw [List.length_drop, List.length_take]
      omega
    · rw [List.getElem_drop, List.getElem_take, height, List.getD_eq_getElem _ _ (by omega)]
      congr 1
      omega

/-- The height of the valley from one peak to another, both included. -/
structure IsValley (heights : List Float) (left right : ℕ) (v : Float) : Prop where
  attained : ∃ i, left ≤ i ∧ i ≤ right ∧ height heights i = v
  lowest : ∀ i, left ≤ i → i ≤ right → v ≤ height heights i

/-- The height of the lower one of two peaks. -/
structure IsLower (heights : List Float) (left right : ℕ) (h : Float) : Prop where
  attained : h = height heights left ∨ h = height heights right
  le : h ≤ height heights left ∧ h ≤ height heights right

theorem isValley_valley (hd : IsDensity heights) {left right : ℕ} (hle : left ≤ right)
    (hright : right < heights.length) : IsValley heights left right (valley heights left right) := by
  have hslice (x : Float) : x ∈ (heights.take (right + 1)).drop left
      ↔ ∃ i, left ≤ i ∧ i ≤ right ∧ height heights i = x := mem_slice hright
  have hnumbers : ∀ x ∈ height heights left :: (heights.take (right + 1)).drop left,
      Scalar.isNaN x = false := by
    refine List.forall_mem_cons.mpr ⟨hd.isNaN_height left, fun x hx => ?_⟩
    obtain ⟨i, _, _, rfl⟩ := (hslice x).mp hx
    exact hd.isNaN_height i
  constructor
  · rcases List.mem_cons.mp (lowest_mem (height heights left) ((heights.take (right + 1)).drop left))
      with heq | hmem
    · exact ⟨left, Nat.le_refl left, hle, heq.symm⟩
    · exact (hslice _).mp hmem
  · intro i hleft hi
    exact lowest_le hnumbers _ (List.mem_cons_of_mem _ ((hslice _).mpr ⟨i, hleft, hi, rfl⟩))

theorem isLower_lowerPeak (hd : IsDensity heights) (left right : ℕ) :
    IsLower heights left right (lowerPeak heights left right) :=
  ⟨lesser_eq_or _ _, lesser_le (hd.isNaN_height left) (hd.isNaN_height right)⟩

/-- Two peaks with enough bins between them and a valley deep enough. -/
structure Separate (c : ModeConfig Float) (heights : List Float) (left right : ℕ) : Prop where
  far : left + c.minSeparationBins ≤ right
  isValley : IsValley heights left right (valley heights left right)
  isLower : IsLower heights left right (lowerPeak heights left right)
  pos : (0.0 : Float) < lowerPeak heights left right
  deep : valley heights left right ≤ c.valleyRatio * lowerPeak heights left right

theorem separate_of_areSeparate (hd : IsDensity heights) {left right : ℕ} (hle : left ≤ right)
    (hright : right < heights.length) (h : areSeparate c heights left right = true) :
    Separate c heights left right := by
  simp only [areSeparate, Bool.and_eq_true, decide_eq_true_eq] at h
  exact ⟨by omega, isValley_valley hd hle hright, isLower_lowerPeak hd left right, h.1.2, h.2⟩

theorem Separate.depth_eq {left right : ℕ} (h : Separate c heights left right) :
    depth heights left right
      = 1.0 - valley heights left right / lowerPeak heights left right :=
  if_pos h.pos

/-- A peak further to the right that is no lower is separate as well. -/
theorem Separate.extend (hc : c.Moderate) (hd : IsDensity heights) {left previous peak : ℕ}
    (h : Separate c heights left previous) (hlt : previous < peak) (hpeak : peak < heights.length)
    (htaller : height heights previous ≤ height heights peak) : Separate c heights left peak := by
  have hfar := h.far
  have hvalley := isValley_valley hd (show left ≤ peak by omega) hpeak
  have hlower : lowerPeak heights left previous ≤ lowerPeak heights left peak :=
    lesser_mono (hd.isNaN_height left) htaller
  have hfinite : ∀ right, (lowerPeak heights left right).isFinite = true := by
    intro right
    rcases (isLower_lowerPeak hd left right).attained with heq | heq
    · rw [heq]
      exact hd.isFinite_height left
    · rw [heq]
      exact hd.isFinite_height right
  -- the lowest bin up to the old peak is still there
  have hdeeper : valley heights left peak ≤ valley heights left previous := by
    obtain ⟨i, hleft, hi, heq⟩ := h.isValley.attained
    rw [← heq]
    exact hvalley.lowest i hleft (by omega)
  exact {
    far := by omega
    isValley := hvalley
    isLower := isLower_lowerPeak hd left peak
    pos := Scalar.lt_of_lt_of_le h.pos hlower
    deep := Ordered.le_trans hdeeper
      (Ordered.le_trans h.deep (ratio_mul_mono hc.valley (hfinite _) (hfinite _) hlower)) }

/-! ### The walk -/

/-- Two neighbouring peaks, the later one first, are separate, and their depth is recorded. -/
def Linked (c : ModeConfig Float) (heights : List Float) (pair : ℕ × ℕ) (d : Float) : Prop :=
  Separate c heights pair.2 pair.1 ∧ d = depth heights pair.2 pair.1

/-- What holds of the walk after every candidate. -/
structure Walk.Sound (c : ModeConfig Float) (heights : List Float) (w : Walk Float) : Prop where
  falling : w.kept.Pairwise (· > ·)
  peaks : ∀ i ∈ w.kept, IsPeak c heights i
  linked : List.Forall₂ (Linked c heights) (neighbours w.kept) w.depths

section Walk

variable {w : Walk Float} {peak : ℕ} (hc : c.Moderate) (hd : IsDensity heights)
  (hw : w.Sound c heights) (hpeak : IsPeak c heights peak) (hlast : ∀ i ∈ w.kept, i < peak)

include hc hd hw hpeak hlast

theorem sound_step : (step c heights w peak).Sound c heights := by
  obtain ⟨kept, depths⟩ := w
  have hfalling : kept.Pairwise (· > ·) := hw.falling
  have hpeaks : ∀ i ∈ kept, IsPeak c heights i := hw.peaks
  have hlinked : List.Forall₂ (Linked c heights) (neighbours kept) depths := hw.linked
  change ∀ i ∈ kept, i < peak at hlast
  cases kept with
  | nil =>
    cases hlinked
    exact ⟨List.pairwise_singleton _ _, List.forall_mem_singleton.mpr hpeak, .nil⟩
  | cons previous before =>
    obtain ⟨hprevious, hbefore⟩ := List.forall_mem_cons.mp hlast
    obtain ⟨_, hothers⟩ := List.forall_mem_cons.mp hpeaks
    unfold step
    dsimp only
    split
    · next hseparate =>
      have hpair := separate_of_areSeparate hd hprevious.le hpeak.lt_length hseparate
      exact ⟨List.pairwise_cons.mpr ⟨hlast, hfalling⟩,
        List.forall_mem_cons.mpr ⟨hpeak, hpeaks⟩, .cons ⟨hpair, rfl⟩ hlinked⟩
    split
    · next htaller =>
      have hfalling' : (peak :: before).Pairwise (· > ·) :=
        List.pairwise_cons.mpr ⟨hbefore, (List.pairwise_cons.mp hfalling).2⟩
      have hpeaks' := List.forall_mem_cons.mpr ⟨hpeak, hothers⟩
      -- with a peak before the replaced one there is a depth to be replaced as well
      cases before with
      | nil =>
        cases hlinked
        exact ⟨hfalling', hpeaks', .nil⟩
      | cons earlier rest =>
        cases hlinked with
        | cons hpair hmore =>
          have hextended := hpair.1.extend hc hd hprevious hpeak.lt_length
            (Ordered.lt_iff.mp htaller).1
          exact ⟨hfalling', hpeaks', .cons ⟨hextended, rfl⟩ hmore⟩
    · exact hw

end Walk

theorem mem_kept_step {w : Walk Float} {peak i : ℕ} (h : i ∈ (step c heights w peak).kept) :
    i = peak ∨ i ∈ w.kept := by
  obtain ⟨kept, depths⟩ := w
  cases kept with
  | nil => exact .inl (List.mem_singleton.mp h)
  | cons previous before =>
    have hreplaced (hi : i ∈ peak :: before) : i = peak ∨ i ∈ previous :: before :=
      (List.mem_cons.mp hi).imp_right (List.mem_cons_of_mem previous)
    unfold step at h
    dsimp only at h
    split at h
    · exact List.mem_cons.mp h
    split at h
    · split at h
      · exact hreplaced h
      · exact hreplaced h
    · exact .inr h

/-- What one candidate after the other preserves holds of the whole walk. The property may speak of the
candidates done so far; all kept peaks lie to the left of the next one. -/
theorem walk_induction {P : List ℕ → Walk Float → Prop} (hstart : P [] ⟨[], []⟩)
    (hstep : ∀ {done : List ℕ} {w : Walk Float} {peak : ℕ}, P done w → peak ∈ candidates c heights →
      (∀ i ∈ w.kept, i < peak) → P (done ++ [peak]) (step c heights w peak)) :
    P (candidates c heights) ((candidates c heights).foldl (step c heights) ⟨[], []⟩) := by
  have run : ∀ (more done : List ℕ) (w : Walk Float), more.Pairwise (· < ·) →
      more ⊆ candidates c heights → (∀ i ∈ w.kept, ∀ p ∈ more, i < p) → P done w →
      P (done ++ more) (more.foldl (step c heights) w) := by
    intro more
    induction more with
    | nil =>
      intro done w _ _ _ hw
      rwa [List.append_nil]
    | cons peak more ih =>
      intro done w hrising hsubset hbehind hw
      obtain ⟨hahead, hrising⟩ := List.pairwise_cons.mp hrising
      obtain ⟨hpeak, hsubset⟩ := List.cons_subset.mp hsubset
      have hlast : ∀ i ∈ w.kept, i < peak := fun i hi => hbehind i hi peak List.mem_cons_self
      rw [List.append_cons]
      refine ih _ _ hrising hsubset ?_ (hstep hw hpeak hlast)
      intro i hi p hp
      rcases mem_kept_step hi with rfl | hkept
      · exact hahead p hp
      · exact hbehind i hkept p (List.mem_cons_of_mem peak hp)
  exact run _ [] _ (pairwise_candidates c heights) (List.Subset.refl _) (by simp) hstart

theorem sound_walk (hc : c.Moderate) (hd : IsDensity heights) :
    ((candidates c heights).foldl (step c heights) ⟨[], []⟩).Sound c heights := by
  refine walk_induction (P := fun _ w => w.Sound c heights) ⟨.nil, by simp, .nil⟩ ?_
  intro done w peak hw hpeak hlast
  exact sound_step hc hd hw ((mem_candidates hc hd).mp hpeak) hlast

end Modes

/-! ### From left to right -/

section Neighbours

variable {β : Type}

theorem neighbours_concat (xs : List β) (a b : β) :
    neighbours (xs ++ [a, b]) = neighbours (xs ++ [a]) ++ [(a, b)] := by
  induction xs with
  | nil => rfl
  | cons x xs ih =>
    cases xs with
    | nil => rfl
    | cons y ys => exact congrArg ((x, y) :: ·) ih

theorem neighbours_reverse (xs : List β) :
    neighbours xs.reverse = ((neighbours xs).map Prod.swap).reverse := by
  induction xs with
  | nil => rfl
  | cons x xs ih =>
    cases xs with
    | nil => rfl
    | cons y ys =>
      rw [List.reverse_cons, List.reverse_cons, List.append_assoc, List.cons_append,
        List.nil_append, neighbours_concat, ← List.reverse_cons, ih]
      simp [neighbours]

end Neighbours

namespace Modes

variable {heights : List Float}

/-- Whatever the parameters, the peaks that are kept are candidates from left to right, any two
neighbours are far apart with a deep valley between them, and the depths are those of their valleys,
one for each pair of neighbours. -/
theorem separatePeaks_separate (c : ModeConfig Float) (hd : IsDensity heights) :
    (separatePeaks c.sanitized heights).1.Pairwise (· < ·)
      ∧ (∀ i ∈ (separatePeaks c.sanitized heights).1, IsPeak c.sanitized heights i)
      ∧ (separatePeaks c.sanitized heights).2.length = (separatePeaks c.sanitized heights).1.length - 1
      ∧ List.Forall₂
        (fun pair d => Separate c.sanitized heights pair.1 pair.2
          ∧ d = 1.0 - valley heights pair.1 pair.2 / lowerPeak heights pair.1 pair.2)
        (neighbours (separatePeaks c.sanitized heights).1) (separatePeaks c.sanitized heights).2 := by
  have hw := sound_walk c.moderate_sanitized hd
  unfold separatePeaks
  dsimp only
  generalize (candidates c.sanitized heights).foldl (step c.sanitized heights) ⟨[], []⟩ = w at hw
  have hlinked : List.Forall₂
      (fun pair d => Separate c.sanitized heights pair.1 pair.2
        ∧ d = 1.0 - valley heights pair.1 pair.2 / lowerPeak heights pair.1 pair.2)
      (neighbours w.kept.reverse) w.depths.reverse := by
    rw [neighbours_reverse, List.forall₂_reverse_iff, List.forall₂_map_left_iff]
    exact hw.linked.imp fun pair d h => ⟨h.1, h.2.trans h.1.depth_eq⟩
  refine ⟨List.pairwise_reverse.mpr hw.falling, ?_, ?_, hlinked⟩
  · exact fun i hi => hw.peaks i (List.mem_reverse.mp hi)
  · rw [← hlinked.length_eq, length_neighbours]

/-- The peak at 3 is separate from the one at 1; the one at 5 is not separate from it, but taller. -/
def replaced : List Float := [0.0, 10.0, 2.0, 6.0, 4.0, 9.0, 0.0]

def twoApart : ModeConfig Float := { (ModeConfig.standard : ModeConfig Float) with minSeparationBins := 2 }

theorem replaced_separate :
    IsDensity replaced ∧ (separatePeaks twoApart.sanitized replaced).1 = [1, 5]
      ∧ Separate twoApart.sanitized replaced 1 5
      ∧ (separatePeaks twoApart.sanitized replaced).2
        = [1.0 - valley replaced 1 5 / lowerPeak replaced 1 5]
      ∧ (valley replaced 1 5).toBits = (2.0 : Float).toBits
      ∧ (lowerPeak replaced 1 5).toBits = (9.0 : Float).toBits := by
  have hd : IsDensity replaced := by decide +kernel
  have hkept : (separatePeaks twoApart.sanitized replaced).1 = [1, 5] := by decide +kernel
  obtain ⟨_, _, _, hlinked⟩ := separatePeaks_separate twoApart hd
  rw [hkept] at hlinked
  generalize (separatePeaks twoApart.sanitized replaced).2 = depths at hlinked
  cases hlinked with
  | cons hpair hrest =>
    cases hrest
    exact ⟨hd, hkept, hpair.1, congrArg (fun d => [d]) hpair.2, by decide +kernel,
      by decide +kernel⟩

end Modes

end BinGrade
