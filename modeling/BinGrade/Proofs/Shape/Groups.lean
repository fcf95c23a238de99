import BinGrade.Proofs.Binary64.Accuracy
import BinGrade.Proofs.Histogram.Validity
import BinGrade.Proofs.Shape.Peaks

/-!
# Groups of candidates

The walk cuts the candidates into groups, from left to right and without gaps. A candidate that is
separate from the peak kept last opens a group; any other joins the last group, and becomes its peak
if it is taller. So the peak of a group is the first of its tallest members. The first of all tallest
bins is a candidate, so it is kept, and a density with any bins has a peak.
-/

namespace BinGrade

open Binary64 Scalar

namespace Modes

/-- Consecutive candidates and the one of them that is kept. -/
structure Group where
  peak : ℕ
  members : List ℕ

/-- The first of the tallest bins in a list of bins. -/
def IsFirstTallest (heights : List Float) (members : List ℕ) (peak : ℕ) : Prop :=
  ∃ before after, members = before ++ peak :: after
    ∧ (∀ i ∈ before, height heights i < height heights peak)
    ∧ ∀ i ∈ after, height heights i ≤ height heights peak

/-- A group begins with a candidate that is separate from the peak of another group. -/
def Opens (c : ModeConfig Float) (heights : List Float) (g : Group) (previous : Group) : Prop :=
  ∃ first rest, g.members = first :: rest ∧ Separate c heights previous.peak first

/-- The groups of the candidates walked so far, the last one first, as the kept peaks are. -/
structure Grouped (c : ModeConfig Float) (heights : List Float) (peaks kept : List ℕ)
    (groups : List Group) : Prop where
  members_eq : groups.reverse.flatMap Group.members = peaks
  kept_eq : groups.map Group.peak = kept
  tallest : ∀ g ∈ groups, IsFirstTallest heights g.members g.peak
  opened : groups.IsChain (Opens c heights)

variable {heights : List Float} {c : ModeConfig Float} {peaks members : List ℕ} {peak previous : ℕ}

namespace IsFirstTallest

theorem single (heights : List Float) (peak : ℕ) : IsFirstTallest heights [peak] peak :=
  ⟨[], [], rfl, by simp, by simp⟩

theorem le_height (hd : IsDensity heights) (h : IsFirstTallest heights members peak) {i : ℕ}
    (hi : i ∈ members) : height heights i ≤ height heights peak := by
  obtain ⟨before, after, rfl, hbefore, hafter⟩ := h
  rcases List.mem_append.mp hi with hi | hi
  · exact (Ordered.lt_iff.mp (hbefore i hi)).1
  rcases List.mem_cons.mp hi with rfl | hi
  · exact hd.height_le_refl i
  · exact hafter i hi

theorem replace (hd : IsDensity heights) (h : IsFirstTallest heights members previous)
    (htaller : height heights previous < height heights peak) :
    IsFirstTallest heights (members ++ [peak]) peak :=
  ⟨members, [], rfl, fun _ hi => lt_of_le_of_lt (h.le_height hd hi) htaller, by simp⟩

theorem keep (h : IsFirstTallest heights members previous)
    (hlower : height heights peak ≤ height heights previous) :
    IsFirstTallest heights (members ++ [peak]) previous := by
  obtain ⟨before, after, rfl, hbefore, hafter⟩ := h
  refine ⟨before, after ++ [peak], by simp, hbefore, ?_⟩
  intro i hi
  rcases List.mem_append.mp hi with hi | hi
  · exact hafter i hi
  · rw [List.mem_singleton.mp hi]
    exact hlower

end IsFirstTallest

/-! ### The walk -/

section Joining

variable {g : Group} {groups : List Group} {kept : List ℕ}

/-- The last group may grow and change its peak; where it begins stays the same. -/
theorem Grouped.join (h : Grouped c heights peaks (previous :: kept) (g :: groups)) {newPeak : ℕ}
    (htallest : IsFirstTallest heights (g.members ++ [peak]) newPeak) :
    Grouped c heights (peaks ++ [peak]) (newPeak :: kept)
      (⟨newPeak, g.members ++ [peak]⟩ :: groups) where
  members_eq := by
    rw [← h.members_eq]
    simp
  kept_eq := congrArg (newPeak :: ·) (List.cons.inj h.kept_eq).2
  tallest := List.forall_mem_cons.mpr ⟨htallest, (List.forall_mem_cons.mp h.tallest).2⟩
  opened := by
    have hopened := h.opened
    cases groups with
    | nil => exact List.isChain_singleton _
    | cons g' groups =>
      obtain ⟨⟨first, rest, hfirst, hseparate⟩, hmore⟩ := List.isChain_cons_cons.mp hopened
      refine List.isChain_cons_cons.mpr ⟨⟨first, rest ++ [peak], ?_, hseparate⟩, hmore⟩
      rw [hfirst, List.cons_append]

theorem Grouped.open (h : Grouped c heights peaks (previous :: kept) (g :: groups))
    (hseparate : Separate c heights previous peak) :
    Grouped c heights (peaks ++ [peak]) (peak :: previous :: kept) (⟨peak, [peak]⟩ :: g :: groups) where
  members_eq := by
    rw [← h.members_eq]
    simp
  kept_eq := congrArg (peak :: ·) h.kept_eq
  tallest := List.forall_mem_cons.mpr ⟨.single heights peak, h.tallest⟩
  opened := by
    have hpeak : g.peak = previous := (List.cons.inj h.kept_eq).1
    exact List.isChain_cons_cons.mpr ⟨⟨peak, [], rfl, hpeak ▸ hseparate⟩, h.opened⟩

end Joining

/-- One more candidate opens a group or joins the last one. -/
theorem grouped_step (hd : IsDensity heights) {w : Walk Float} {groups : List Group}
    (hw : Grouped c heights peaks w.kept groups) (hpeak : peak < heights.length)
    (hlast : ∀ i ∈ w.kept, i < peak) :
    ∃ groups, Grouped c heights (peaks ++ [peak]) (step c heights w peak).kept groups := by
  obtain ⟨kept, depths⟩ := w
  change ∀ i ∈ kept, i < peak at hlast
  change Grouped c heights peaks kept groups at hw
  cases kept with
  | nil =>
    have hnil : groups = [] := List.map_eq_nil_iff.mp hw.kept_eq
    have hpeaks : peaks = [] := by
      rw [← hw.members_eq, hnil]
      rfl
    rw [hpeaks]
    exact ⟨[⟨peak, [peak]⟩], rfl, rfl, List.forall_mem_singleton.mpr (.single heights peak),
      List.isChain_singleton _⟩
  | cons previous before =>
    obtain ⟨g, rest, rfl⟩ : ∃ g rest, groups = g :: rest := by
      cases groups with
      | nil => cases hw.kept_eq
      | cons g rest => exact ⟨g, rest, rfl⟩
    have hg : g.peak = previous := (List.cons.inj hw.kept_eq).1
    have htallest : IsFirstTallest heights g.members previous := hg ▸ hw.tallest g List.mem_cons_self
    have hbehind : previous < peak := hlast previous List.mem_cons_self
    unfold step
    dsimp only
    split
    · next hseparate =>
      exact ⟨_, hw.open (separate_of_areSeparate hd hbehind.le hpeak hseparate)⟩
    split
    · next htaller =>
      have hjoined := hw.join (htallest.replace hd htaller)
      split
      · exact ⟨_, hjoined⟩
      · exact ⟨_, hjoined⟩
    · next hlower =>
      exact ⟨_, hw.join (htallest.keep (le_of_not_lt (hd.isNaN_height _) (hd.isNaN_height _) hlower))⟩

/-- The groups of all candidates from left to right. -/
structure Grouping (c : ModeConfig Float) (heights : List Float) (groups : List Group) : Prop where
  members_eq : groups.flatMap Group.members = candidates c heights
  kept_eq : groups.map Group.peak = (separatePeaks c heights).1
  tallest : ∀ g ∈ groups, IsFirstTallest heights g.members g.peak
  opened : groups.IsChain fun previous g => Opens c heights g previous

theorem exists_grouping (hd : IsDensity heights) : ∃ groups, Grouping c heights groups := by
  have hwalk : ∃ groups, Grouped c heights (candidates c heights)
      ((candidates c heights).foldl (step c heights) ⟨[], []⟩).kept groups := by
    refine walk_induction (P := fun done w => ∃ groups, Grouped c heights done w.kept groups)
      ⟨[], rfl, rfl, by simp, .nil⟩ ?_
    rintro done w peak ⟨groups, hw⟩ hpeak hlast
    exact grouped_step hd hw (List.mem_range.mp (List.mem_filter.mp hpeak).1) hlast
  obtain ⟨groups, hgroups⟩ := hwalk
  refine ⟨groups.reverse, hgroups.members_eq, ?_, ?_, List.isChain_reverse.mpr hgroups.opened⟩
  · rw [List.map_reverse, hgroups.kept_eq]
    rfl
  · exact fun g hg => hgroups.tallest g (List.mem_reverse.mp hg)

/-! ### The tallest bin -/

/-- In ascending order, the first of the tallest is above all before it and not below any other. -/
theorem isFirstTallest_iff (hd : IsDensity heights) (hrising : members.Pairwise (· < ·)) :
    IsFirstTallest heights members peak ↔ peak ∈ members
      ∧ (∀ i ∈ members, i < peak → height heights i < height heights peak)
      ∧ ∀ i ∈ members, height heights i ≤ height heights peak := by
  constructor
  · intro h
    refine ⟨?_, ?_, fun i hi => h.le_height hd hi⟩
    · obtain ⟨before, after, rfl, _⟩ := h
      simp
    · obtain ⟨before, after, rfl, hbefore, _⟩ := h
      intro i hi hlt
      obtain ⟨_, hafter, _⟩ := List.pairwise_append.mp hrising
      rcases List.mem_append.mp hi with hi | hi
      · exact hbefore i hi
      rcases List.mem_cons.mp hi with rfl | hi
      · omega
      · have := (List.pairwise_cons.mp hafter).1 i hi
        omega
  · rintro ⟨hmem, hstrict, hle⟩
    obtain ⟨before, after, rfl⟩ := List.append_of_mem hmem
    obtain ⟨_, _, hcross⟩ := List.pairwise_append.mp hrising
    refine ⟨before, after, rfl, ?_, ?_⟩
    · intro i hi
      exact hstrict i (List.mem_append_left _ hi) (hcross i hi peak List.mem_cons_self)
    · intro i hi
      exact hle i (List.mem_append_right _ (List.mem_cons_of_mem peak hi))

theorem exists_firstTallest (hd : IsDensity heights) (hne : heights ≠ []) :
    ∃ i, IsFirstTallest heights (List.range heights.length) i := by
  classical
  have htallest : ∃ i, i < heights.length ∧ ∀ j < heights.length, height heights j ≤ height heights i := by
    obtain ⟨i, hi, heq⟩ := exists_height_eq (highest_head_mem hne)
    refine ⟨i, hi, fun j hj => ?_⟩
    rw [heq]
    exact le_highest_head hd (height_mem hj)
  obtain ⟨hlt, hle⟩ := Nat.find_spec htallest
  refine ⟨Nat.find htallest, (isFirstTallest_iff hd List.pairwise_lt_range).mpr ⟨?_, ?_, ?_⟩⟩
  · exact List.mem_range.mpr hlt
  · intro j hj hbefore
    -- an earlier bin is not among the tallest, so some bin is above it
    have hnot := Nat.find_min htallest hbefore
    push Not at hnot
    obtain ⟨k, hk, habove⟩ := hnot (List.mem_range.mp hj)
    exact Scalar.lt_of_lt_of_le
      (Ordered.lt_iff.mpr ⟨le_of_not_le (hd.isNaN_height j) (hd.isNaN_height k) habove, habove⟩)
      (hle k hk)
  · exact fun j hj => hle j (List.mem_range.mp hj)

theorem firstTallest_isPeak (hc : c.Moderate) (hd : IsDensity heights)
    (h : IsFirstTallest heights (List.range heights.length) peak) : IsPeak c heights peak := by
  obtain ⟨hmem, hstrict, hle⟩ := (isFirstTallest_iff hd List.pairwise_lt_range).mp h
  have hlt := List.mem_range.mp hmem
  refine ⟨hlt, ?_, ?_, ?_⟩
  · rcases Nat.eq_zero_or_pos peak with hzero | hpos
    · exact .inl hzero
    · exact .inr (hstrict (peak - 1) (List.mem_range.mpr (by omega)) (by omega))
  · by_cases hlast : peak + 1 = heights.length
    · exact .inl hlast
    · exact .inr (hle (peak + 1) (List.mem_range.mpr (by omega)))
  · intro x hx
    obtain ⟨i, hi, rfl⟩ := exists_height_eq hx
    exact Ordered.le_trans (ratio_mul_le hc.peak (hd _ hx).1 (hd _ hx).2)
      (hle i (List.mem_range.mpr hi))

/-- The first of the tallest bins is the peak of its group. -/
theorem firstTallest_mem_kept (hc : c.Moderate) (hd : IsDensity heights)
    (h : IsFirstTallest heights (List.range heights.length) peak) :
    peak ∈ (separatePeaks c heights).1 := by
  obtain ⟨groups, hgroups⟩ := exists_grouping (c := c) hd
  have hcandidate := (mem_candidates hc hd).mpr (firstTallest_isPeak hc hd h)
  obtain ⟨g, hg, hmember⟩ := List.mem_flatMap.mp (hgroups.members_eq ▸ hcandidate)
  obtain ⟨_, hstrict, hle⟩ := (isFirstTallest_iff hd List.pairwise_lt_range).mp h
  have hsublist : g.members.Sublist (candidates c heights) := by
    rw [← hgroups.members_eq]
    exact List.sublist_flatten_of_mem (List.mem_map_of_mem hg)
  obtain ⟨hpeak, hstrict', hle'⟩ := (isFirstTallest_iff hd
    ((pairwise_candidates c heights).sublist hsublist)).mp (hgroups.tallest g hg)
  have hwithin : g.peak ∈ List.range heights.length :=
    List.mem_of_mem_filter (hsublist.subset hpeak)
  have hsame : g.peak = peak := by
    rcases Nat.lt_trichotomy g.peak peak with hbefore | heq | hafter
    · exact absurd (hstrict _ hwithin hbefore) (not_lt_of_le (hle' _ hmember))
    · exact heq
    · exact absurd (hstrict' _ hmember hafter) (not_lt_of_le (hle _ hwithin))
  rw [← hgroups.kept_eq, ← hsame]
  exact List.mem_map_of_mem hg

/-! ### Smoothed counts -/

theorem quotient_of_counts {n k : ℕ} (hn : n ≤ 2 ^ 64) (hpos : 0 < k) (hk : k ≤ 2 ^ 53) :
    (Float.ofNat n / Float.ofNat k).isFinite = true ∧ (0.0 : Float) ≤ Float.ofNat n / Float.ofNat k := by
  have hone : (1 : ℚ) ≤ k := by exact_mod_cast hpos
  -- both roundings stay below a power of two that is far from the greatest double
  have hgrid : nearest (2 ^ (64 : ℤ)) = 2 ^ (64 : ℤ) := by
    refine nearest_of_onGrid (onGrid_two_zpow (by norm_num)) ?_
    rw [abs_of_pos (two_zpow_pos _)]
    exact two_zpow_le (by norm_num)
  have hlimit : (2 : ℚ) ^ (64 : ℤ) < limit := zpow_lt_zpow_right₀ (by norm_num) (by norm_num)
  have hn' : (n : ℚ) ≤ 2 ^ (64 : ℤ) := by exact_mod_cast hn
  have hrounds := rounds_ofNat n
  have hnonneg : 0 ≤ value (Float.ofNat n) := by
    rw [hrounds.value_eq]
    exact nearest_nonneg (Nat.cast_nonneg n)
  have hle : value (Float.ofNat n) ≤ 2 ^ (64 : ℤ) := by
    rw [hrounds.value_eq, ← hgrid]
    exact nearest_mono hn'
  have hfinite : (Float.ofNat n).isFinite = true := by
    rw [isFinite_iff hrounds.isNaN_eq, abs_of_nonneg hnonneg]
    exact hle.trans_lt hlimit
  obtain ⟨hdivisor, hvalue⟩ := value_ofNat hk
  have hne : value (Float.ofNat k) ≠ 0 := by
    rw [hvalue]
    positivity
  have hnumber := isNaN_div_right hrounds.isNaN_eq hdivisor hne
  have hquotient := value_div hfinite hdivisor hne
  have hbounds : 0 ≤ value (Float.ofNat n) / value (Float.ofNat k)
      ∧ value (Float.ofNat n) / value (Float.ofNat k) ≤ 2 ^ (64 : ℤ) := by
    rw [hvalue]
    exact ⟨by positivity, (div_le_self hnonneg hone).trans hle⟩
  constructor
  · rw [isFinite_iff hnumber, hquotient, abs_of_nonneg (nearest_nonneg hbounds.1)]
    exact ((nearest_mono hbounds.2).trans_eq hgrid).trans_lt hlimit
  · rw [le_iff rfl hnumber, hquotient]
    exact nearest_nonneg hbounds.1

theorem isDensity_smooth {counts : List ℕ} (h : sumCounts counts ≤ 2 ^ 64) :
    IsDensity (smooth counts) := by
  intro x hx
  obtain ⟨i, hi, rfl⟩ := List.mem_map.mp hx
  rw [List.mem_range] at hi
  have hwindow := (List.drop_sublist (i - 1) _).trans
    (List.take_sublist (min (i + 2) counts.length) counts)
  refine quotient_of_counts ((sumCounts_sublist hwindow).trans h) ?_ ?_
  · rw [List.length_drop, List.length_take]
    omega
  · rw [List.length_drop, List.length_take]
    omega

theorem smooth_ne_nil {counts : List ℕ} (h : counts ≠ []) : (smooth counts : List Float) ≠ [] := by
  rw [← List.length_pos_iff, smooth, List.length_map, List.length_range]
  exact List.length_pos_iff.mpr h

/-- Whatever the parameters, the candidates fall into consecutive groups, one for each peak that is
kept, and that peak is the first of the tallest in its group. The first of all tallest bins is kept, so
a density that has bins has a peak; the smoothed counts of a sample are such a density. -/
theorem separatePeaks_groups (c : ModeConfig Float) :
    (∀ heights, IsDensity heights →
      (∃ groups, Grouping c.sanitized heights groups)
        ∧ (heights ≠ [] → ∃ i ∈ (separatePeaks c.sanitized heights).1,
          IsFirstTallest heights (List.range heights.length) i))
    ∧ ∀ (xs : List Float) (bins : ℕ) (h : Histogram Float), xs.length ≤ 2 ^ 64 →
      Strategy.uniform.histogram bins (Sample.sorted xs) = .ok h →
      (separatePeaks c.sanitized (smooth h.counts)).1 ≠ [] := by
  have htallest : ∀ heights, IsDensity heights → heights ≠ [] →
      ∃ i ∈ (separatePeaks c.sanitized heights).1,
        IsFirstTallest heights (List.range heights.length) i := by
    intro heights hd hne
    obtain ⟨i, hi⟩ := exists_firstTallest hd hne
    exact ⟨i, firstTallest_mem_kept c.moderate_sanitized hd hi, hi⟩
  refine ⟨fun heights hd => ⟨exists_grouping hd, htallest heights hd⟩, ?_⟩
  intro xs bins h hlength ok
  obtain ⟨hvalid, htotal⟩ := Binning.counts_histogram ok
  have hsum : sumCounts h.counts ≤ 2 ^ 64 := by
    rw [(Sample.perm_sorted xs).length_eq] at htotal
    exact htotal.le.trans hlength
  obtain ⟨i, hi, _⟩ := htallest _ (isDensity_smooth hsum) (smooth_ne_nil hvalid.counts_ne_nil)
  exact List.ne_nil_of_mem hi

theorem replaced_groups :
    IsDensity replaced
      ∧ (∃ groups, Grouping twoApart.sanitized replaced groups ∧ groups.map Group.peak = [1, 5])
      ∧ (∃ i ∈ [1, 5], IsFirstTallest replaced (List.range replaced.length) i)
      ∧ ∃ h, Strategy.uniform.histogram 4 (Sample.sorted Binning.tied) = .ok h
        ∧ (separatePeaks twoApart.sanitized (smooth h.counts)).1 ≠ [] := by
  have hd : IsDensity replaced := by decide +kernel
  have hkept : (separatePeaks twoApart.sanitized replaced).1 = [1, 5] := by decide +kernel
  have hmade : (Strategy.uniform.histogram 4 (Sample.sorted Binning.tied)).toOption.isSome = true := by
    rw [Binning.sorted_tied]
    decide +kernel
  obtain ⟨hdensity, hsample⟩ := separatePeaks_groups twoApart
  obtain ⟨⟨groups, hgroups⟩, htallest⟩ := hdensity replaced hd
  rw [hkept] at htallest
  obtain ⟨h, hsome⟩ := Option.isSome_iff_exists.mp hmade
  have ok := eq_ok_of_toOption hsome
  exact ⟨hd, ⟨groups, hgroups, hgroups.kept_eq.trans hkept⟩, htallest (by simp [replaced]), h, ok,
    hsample Binning.tied 4 h (by decide) ok⟩

end Modes

end BinGrade
