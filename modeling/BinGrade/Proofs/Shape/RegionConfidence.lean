import BinGrade.Proofs.Binary64.Missing
import BinGrade.Proofs.Scalar.Unit
import BinGrade.Proofs.Shape.RegionDocument

/-!
# Confidence of regions

The confidence of a region blends two quotients, the depth of the mean in its band and the share of the
sample's range that the band covers. Each is clamped, so what is a number comes into the unit interval,
but what is no number stays so. There are two ways to lose a number: the band is as narrow as the
smallest double, so that half of it is zero, and the part of the range that the band covers overflows,
and the range with it.
-/

namespace BinGrade

open Binary64

/-! ### The range of a sample -/

namespace Sample

variable {xs : List Float} {least greatest : Float}

theorem foldl_range_keeps {P : Float → Prop} {ys : List Float} {r : Float × Float}
    (hr : P r.1 ∧ P r.2) (hys : ∀ y ∈ ys, P y) :
    let last := ys.foldl (fun r y => (Scalar.lesser r.1 y, Scalar.greater r.2 y)) r
    P last.1 ∧ P last.2 := by
  induction ys generalizing r with
  | nil => exact hr
  | cons y ys ih =>
    obtain ⟨hy, hys⟩ := List.forall_mem_cons.mp hys
    have hleast : P (Scalar.lesser r.1 y) := by
      rcases Scalar.lesser_eq_or r.1 y with h | h <;> rw [h]
      exacts [hr.1, hy]
    have hgreatest : P (Scalar.greater r.2 y) := by
      rcases Scalar.greater_eq_or r.2 y with h | h <;> rw [h]
      exacts [hr.2, hy]
    exact ih ⟨hleast, hgreatest⟩ hys

theorem isFinite_of_range? (hfinite : allFinite xs = true) (h : range? xs = some (least, greatest)) :
    least.isFinite = true ∧ greatest.isFinite = true := by
  have hmembers : ∀ x ∈ xs, x.isFinite = true := List.all_eq_true.mp hfinite
  cases xs with
  | nil => cases h
  | cons x xs =>
    have hx := hmembers x List.mem_cons_self
    have hlast := foldl_range_keeps (P := fun y => y.isFinite = true) (r := (x, x)) ⟨hx, hx⟩ hmembers
    rw [range?, Option.some.injEq] at h
    rw [h] at hlast
    exact hlast

end Sample

/-! ### Bands -/

namespace RegionBand

variable {b : RegionBand Float} {x : Float}

theorem contains_iff : b.contains x = true ↔ b.lower ≤ x ∧ x < b.upper := by
  unfold contains
  rw [Bool.and_eq_true, decide_eq_true_eq, decide_eq_true_eq]

theorem value_smallest : value (5e-324 : Float) = 2 ^ (-1074 : ℤ) := by decide +kernel

theorem isNaN_smallest : (5e-324 : Float).isNaN = false := by decide +kernel

theorem two_smallest : (2 : ℚ) ^ (-1073 : ℤ) = 2 * 2 ^ (-1074 : ℤ) := by
  rw [show (-1073 : ℤ) = 1 + -1074 from rfl, two_zpow_add, zpow_one]

/-- Finite bounds are one smallest step apart or at least two. -/
theorem thin_or_thick (hlower : b.lower.isFinite = true) (hupper : b.upper.isFinite = true)
    (h : value b.lower < value b.upper) :
    (value b.upper = value b.lower + 2 ^ (-1074 : ℤ) ∧ value (b.upper - b.lower) = 2 ^ (-1074 : ℤ))
      ∨ 2 ^ (-1073 : ℤ) ≤ value (b.upper - b.lower) := by
  have hstep := two_zpow_pos (-1074)
  obtain ⟨l, hl⟩ := (onGrid_value b.lower).isMultiple
  obtain ⟨u, hu⟩ := (onGrid_value b.upper).isMultiple
  have hlt : l < u := by
    rw [hl, hu] at h
    exact_mod_cast lt_of_mul_lt_mul_right h hstep.le
  rw [(value_sub hupper hlower).2, hl, hu, ← sub_mul]
  rcases (Int.add_one_le_iff.mpr hlt).eq_or_lt with rfl | hmore
  · refine .inl ⟨by rw [Int.cast_add, Int.cast_one, add_mul, one_mul], ?_⟩
    rw [Int.cast_add, Int.cast_one, add_sub_cancel_left, one_mul]
    exact nearest_of_onGrid (onGrid_two_zpow le_rfl)
      ((abs_of_pos hstep).le.trans (two_zpow_le (by norm_num)))
  · refine .inr (two_zpow_le_nearest (by norm_num) (by norm_num) ?_)
    have htwo : (2 : ℚ) ≤ u - l := by
      have : l + 2 ≤ u := by omega
      have hcast : ((l + 2 : ℤ) : ℚ) ≤ u := by exact_mod_cast this
      push_cast at hcast
      linarith
    rw [two_smallest]
    exact mul_le_mul_of_nonneg_right htwo hstep.le

/-- In a band of one smallest step there is only its lower bound. -/
theorem value_eq_lower (h : value b.upper = value b.lower + 2 ^ (-1074 : ℤ))
    (hlow : value b.lower ≤ value x) (hhigh : value x < value b.upper) :
    value x = value b.lower := by
  have hstep := two_zpow_pos (-1074)
  obtain ⟨l, hl⟩ := (onGrid_value b.lower).isMultiple
  obtain ⟨k, hk⟩ := (onGrid_value x).isMultiple
  rw [h] at hhigh
  rw [hl, hk] at hlow hhigh ⊢
  have hle : l ≤ k := by exact_mod_cast le_of_mul_le_mul_right hlow hstep
  have hlt : k < l + 1 := by
    have hscaled : (k : ℚ) * 2 ^ (-1074 : ℤ) < (l + 1) * 2 ^ (-1074 : ℤ) := by linarith
    exact_mod_cast lt_of_mul_lt_mul_right hscaled hstep.le
  rw [show k = l by omega]

/-- The part of the range of a sample that a band covers. -/
def shared (b : RegionBand Float) (least greatest : Float) : Float :=
  Scalar.greater (Scalar.lesser greatest b.upper - Scalar.greater least b.lower) 0.0

/-- A band can be measured against a sample: it is wider than the smallest double, and what it covers
of the range does not overflow. -/
structure Measures (b : RegionBand Float) (least greatest : Float) : Prop where
  thick : 5e-324 < b.upper - b.lower
  shared : (b.shared least greatest).isFinite = true

end RegionBand

namespace RegionTable

open RegionBand

/-! ### Depth -/

section Depth

variable {b : RegionBand Float} {mean range : Float}

/-- The distance of a mean from the nearer bound of a band. -/
def distance (b : RegionBand Float) (mean : Float) : Float :=
  Scalar.lesser (mean - b.lower) (b.upper - mean)

theorem depth_of_isFinite (h : ((b.upper - b.lower) / 2.0).isFinite = true) :
    depth b mean range = distance b mean / ((b.upper - b.lower) / 2.0) := if_pos h

theorem depth_of_not_isFinite (h : ¬((b.upper - b.lower) / 2.0).isFinite = true)
    (hnumber : (distance b mean).isNaN = false) : depth b mean range = 1.0
      ∨ (distance b mean).isFinite = true ∧ ¬range ≤ 0.0 ∧ depth b mean range = distance b mean / range := by
  have hopen : depth b mean range = if (!(distance b mean).isFinite && !(distance b mean).isNaN)
      || range ≤ 0.0 then 1.0 else distance b mean / range := if_neg h
  rw [hopen, hnumber, Bool.not_false, Bool.and_true]
  cases hfinite : (distance b mean).isFinite with
  | false => exact .inl rfl
  | true =>
    by_cases hspread : range ≤ 0.0
    · exact .inl (if_pos (by simpa using hspread))
    · exact .inr ⟨rfl, hspread, if_neg (by simpa using hspread)⟩

theorem half_of_thin (hwidth : (b.upper - b.lower).isNaN = false)
    (h : value (b.upper - b.lower) = 2 ^ (-1074 : ℤ)) :
    ((b.upper - b.lower) / 2.0).isFinite = true ∧ value ((b.upper - b.lower) / 2.0) = 0 := by
  have hne : value (b.upper - b.lower) ≠ 0 := by
    rw [h]
    exact (two_zpow_pos _).ne'
  rw [eq_of_value_eq_of_ne_zero hwidth isNaN_smallest hne (h.trans value_smallest.symm)]
  exact ⟨by decide +kernel, by decide +kernel⟩

/-- The only place in a band of one smallest step is its lower bound. -/
theorem distance_of_thin (hin : b.contains mean = true) (hlower : b.lower.isFinite = true)
    (hthin : value b.upper = value b.lower + 2 ^ (-1074 : ℤ)) :
    (distance b mean).isFinite = true ∧ value (distance b mean) = 0 := by
  obtain ⟨hlow, hhigh⟩ := contains_iff.mp hin
  obtain ⟨_, hnumber⟩ := isNaN_of_le hlow
  have hmean := value_eq_lower hthin ((le_iff (isNaN_of_isFinite hlower) hnumber).mp hlow)
    ((lt_iff hnumber (isNaN_of_lt hhigh).2).mp hhigh)
  have hfinite : mean.isFinite = true := by
    rw [isFinite_iff hnumber, hmean, ← isFinite_iff (isNaN_of_isFinite hlower)]
    exact hlower
  obtain ⟨hbelow, hvalue⟩ := value_sub hfinite hlower
  have hzero : value (mean - b.lower) = 0 := by
    rw [hvalue, hmean, sub_self]
    exact nearest_value (0.0 : Float)
  obtain ⟨habove, hnonneg⟩ := sub_of_lt hhigh
  have hleft : distance b mean = mean - b.lower := by
    have hnot : ¬b.upper - mean < mean - b.lower := by
      rw [lt_iff habove hbelow, hzero]
      exact not_lt.mpr hnonneg
    have hbelow' : Scalar.isNaN (mean - b.lower) = false := hbelow
    rw [distance, Scalar.lesser, hbelow', if_neg Bool.false_ne_true, if_neg hnot]
  rw [hleft]
  refine ⟨(isFinite_iff hbelow).mpr ?_, hzero⟩
  rw [hzero, abs_zero]
  exact limit_pos

/-- Half of a band of one smallest step is zero, and so is the distance of the mean from its lower
bound; in any wider band there is a depth. -/
theorem isNaN_depth_iff (hin : b.contains mean = true) (hrange : range.isNaN = false) :
    (depth b mean range).isNaN = false ↔ 5e-324 < b.upper - b.lower := by
  obtain ⟨hlow, hhigh⟩ := contains_iff.mp hin
  have hlt := Scalar.lt_of_le_of_lt hlow hhigh
  obtain ⟨hwidth, hwidth0⟩ := sub_of_lt hlt
  have hdistance : (distance b mean).isNaN = false :=
    Scalar.isNaN_lesser (mean - b.lower) (sub_of_lt hhigh).1
  rw [lt_iff isNaN_smallest hwidth, value_smallest]
  by_cases hfinite : (b.upper - b.lower).isFinite = true
  · obtain ⟨hupper, hlower⟩ := isFinite_of_isFinite_sub hfinite
    have hvalue := (lt_iff (isNaN_of_isFinite hlower) (isNaN_of_isFinite hupper)).mp hlt
    have hhalf : ((b.upper - b.lower) / 2.0).isFinite = true :=
      isFinite_div_of_le hfinite hfinite rfl hwidth0 (by rw [value_two]; norm_num)
        (by rw [value_two]; exact div_le_self hwidth0 (by norm_num))
    rw [depth_of_isFinite hhalf]
    rcases thin_or_thick hlower hupper hvalue with ⟨hthin, hstep⟩ | hthick
    · -- nothing is divided by nothing
      obtain ⟨hnear, hnear0⟩ := distance_of_thin hin hlower hthin
      rw [isNaN_zero_div_zero hnear hnear0 hhalf (half_of_thin hwidth hstep).2, hstep]
      simp
    · have hpos : 0 < value ((b.upper - b.lower) / 2.0) := by
        rw [value_div hfinite rfl (by rw [value_two]; norm_num), value_two]
        refine (two_zpow_pos (-1074)).trans_le (two_zpow_le_nearest le_rfl (by norm_num) ?_)
        rw [two_smallest] at hthick
        linarith
      have hsmall : (2 : ℚ) ^ (-1074 : ℤ) < value (b.upper - b.lower) :=
        (zpow_lt_zpow_right₀ (by norm_num) (by norm_num)).trans_le hthick
      exact ⟨fun _ => hsmall, fun _ => isNaN_div_right hdistance hhalf hpos.ne'⟩
  · -- the band is open or its width overflows, and the depth is measured by the range of the sample
    have hhalf : ¬((b.upper - b.lower) / 2.0).isFinite = true := by
      rw [not_isFinite_div (Bool.eq_false_iff.mpr hfinite)]
      exact Bool.false_ne_true
    have hsmall : (2 : ℚ) ^ (-1074 : ℤ) < value (b.upper - b.lower) :=
      (zpow_lt_zpow_right₀ (by norm_num) (by norm_num)).trans_le (limit_le_value hwidth hwidth0 hfinite)
    refine ⟨fun _ => hsmall, fun _ => ?_⟩
    rcases depth_of_not_isFinite hhalf hdistance with h | ⟨hnear, hspread, h⟩
    · rw [h]
      rfl
    · rw [le_iff hrange rfl, not_le] at hspread
      rw [h]
      exact isNaN_div_of_pos hnear hrange hspread

end Depth

/-! ### Coverage -/

section Coverage

variable {b : RegionBand Float} {least greatest : Float}

theorem isFinite_top (hlt : b.lower < b.upper) (hgreatest : greatest.isFinite = true) :
    (Scalar.lesser greatest b.upper).isFinite = true := by
  obtain ⟨hlower, hupper⟩ := isNaN_of_lt hlt
  have hnumber := isNaN_of_isFinite hgreatest
  have hle : Scalar.lesser greatest b.upper ≤ greatest := (Scalar.lesser_le hnumber hupper).1
  rcases Scalar.lesser_eq_or greatest b.upper with h | h
  · rw [h]
    exact hgreatest
  · rw [h] at hle ⊢
    have hhigh := (le_iff hupper hnumber).mp hle
    have hlow := (lt_iff hlower hupper).mp hlt
    have hmost := (abs_lt.mp ((isFinite_iff hnumber).mp hgreatest)).2
    have hleast := neg_le_of_abs_le (abs_value_le b.lower)
    exact (isFinite_iff hupper).mpr (abs_lt.mpr ⟨by linarith, by linarith⟩)

theorem isFinite_bottom (hlt : b.lower < b.upper) (hleast : least.isFinite = true) :
    (Scalar.greater least b.lower).isFinite = true := by
  obtain ⟨hlower, hupper⟩ := isNaN_of_lt hlt
  have hnumber := isNaN_of_isFinite hleast
  have hle : least ≤ Scalar.greater least b.lower := (Scalar.le_greater hnumber hlower).1
  rcases Scalar.greater_eq_or least b.lower with h | h
  · rw [h]
    exact hleast
  · rw [h] at hle ⊢
    have hlow := (le_iff hnumber hlower).mp hle
    have hhigh := (lt_iff hlower hupper).mp hlt
    have hfew := (abs_lt.mp ((isFinite_iff hnumber).mp hleast)).1
    have hmost := le_of_abs_le (abs_value_le b.upper)
    exact (isFinite_iff hlower).mpr (abs_lt.mpr ⟨by linarith, by linarith⟩)

/-- What a band covers of a range is never negative, and never more than the range. -/
theorem shared_bounds (hlt : b.lower < b.upper) (hleast : least.isFinite = true)
    (hgreatest : greatest.isFinite = true) : (b.shared least greatest).isNaN = false
      ∧ 0 ≤ value (b.shared least greatest)
      ∧ value (b.shared least greatest) ≤ max 0 (value (greatest - least)) := by
  obtain ⟨hlower, hupper⟩ := isNaN_of_lt hlt
  have htop := isFinite_top hlt hgreatest
  have hbottom := isFinite_bottom hlt hleast
  obtain ⟨hnumber, hvalue⟩ := value_sub htop hbottom
  have hle : value (Scalar.lesser greatest b.upper - Scalar.greater least b.lower)
      ≤ value (greatest - least) := by
    have hhigh := (le_iff (isNaN_of_isFinite htop) (isNaN_of_isFinite hgreatest)).mp
      (Scalar.lesser_le (isNaN_of_isFinite hgreatest) hupper).1
    have hlow := (le_iff (isNaN_of_isFinite hleast) (isNaN_of_isFinite hbottom)).mp
      (Scalar.le_greater (isNaN_of_isFinite hleast) hlower).1
    rw [hvalue, (value_sub hgreatest hleast).2]
    exact nearest_mono (by linarith)
  have hnonneg := (Scalar.le_greater (b := (0.0 : Float)) hnumber rfl).2
  unfold shared
  rcases Scalar.greater_eq_or (Scalar.lesser greatest b.upper - Scalar.greater least b.lower) 0.0
    with h | h <;> rw [h] at hnonneg ⊢
  · exact ⟨hnumber, (le_iff rfl hnumber).mp hnonneg, le_max_of_le_right hle⟩
  · exact ⟨rfl, le_refl (0 : ℚ), le_max_left (0 : ℚ) _⟩

theorem isNaN_coverage_iff (hlt : b.lower < b.upper) (hleast : least.isFinite = true)
    (hgreatest : greatest.isFinite = true) :
    (coverage b least greatest).isNaN = false ↔ (b.shared least greatest).isFinite = true := by
  obtain ⟨hnumber, hvalue⟩ := value_sub hgreatest hleast
  obtain ⟨hshared, hnonneg, hle⟩ := shared_bounds hlt hleast hgreatest
  by_cases hspread : 0.0 < greatest - least
  · have hcoverage : coverage b least greatest = b.shared least greatest / (greatest - least) :=
      if_pos hspread
    have hpos : 0 < value (greatest - least) := (lt_iff rfl hnumber).mp hspread
    rw [max_eq_right hpos.le] at hle
    rw [hcoverage]
    by_cases hfinite : (b.shared least greatest).isFinite = true
    · exact ⟨fun _ => hfinite, fun _ => isNaN_div_of_pos hfinite hnumber hpos⟩
    · -- the range is at least as large, so it overflows as well
      have hrange : ¬(greatest - least).isFinite = true := fun h =>
        hfinite (isFinite_of_value_le hshared hnonneg hle h)
      rw [isNaN_div_of_not_isFinite (Bool.eq_false_iff.mpr hfinite) (Bool.eq_false_iff.mpr hrange)]
      exact ⟨nofun, fun h => absurd h hfinite⟩
  · have hcoverage : coverage b least greatest = 1.0 := if_neg hspread
    have hzero : value (greatest - least) ≤ 0 := not_lt.mp fun h => hspread ((lt_iff rfl hnumber).mpr h)
    rw [max_eq_left hzero] at hle
    have hfinite := isFinite_of_value_le (b := (0.0 : Float)) hshared hnonneg hle rfl
    rw [hcoverage]
    exact ⟨fun _ => hfinite, fun _ => rfl⟩

end Coverage

/-! ### Labels -/

section Label

variable {t : RegionTable Float} {xs : List Float} {l : RegionLabel Float} {deep covered : Float}

/-- The confidence of a depth and a coverage. -/
def blend (deep covered : Float) : Float :=
  0.5 * Scalar.clamp 0.0 1.0 deep + 0.5 * Scalar.clamp 0.0 1.0 covered

theorem blend_bounds (hdeep : deep.isNaN = false) (hcovered : covered.isNaN = false) :
    (0.0 : Float) ≤ blend deep covered ∧ blend deep covered ≤ 1.0 := by
  have hhalf : Within 512 512 0.5 := ⟨rfl, by decide +kernel, by decide +kernel⟩
  have hpart (x : Float) : Within 0 512 (0.5 * Scalar.unit x) :=
    hhalf.mul (Scalar.within_unit x) (by norm_num) (by norm_num) (by norm_num)
  have hsum : Within 0 1024 (blend deep covered) := by
    rw [blend, Scalar.clamp_eq_unit hdeep, Scalar.clamp_eq_unit hcovered]
    exact (hpart deep).add (hpart covered) (by norm_num)
  exact ⟨(le_iff rfl hsum.isNaN_eq).mpr hsum.nonneg,
    (le_iff hsum.isNaN_eq rfl).mpr (value_one ▸ hsum.le_one)⟩

theorem isNaN_blend (h : deep.isNaN = true ∨ covered.isNaN = true) :
    (blend deep covered).isNaN = true := by
  unfold blend
  rcases h with h | h <;> rw [Scalar.clamp_of_isNaN 0.0 1.0 h]
  · exact isNaN_add_left (isNaN_mul_right 0.5 h) _
  · exact isNaN_add_right _ (isNaN_mul_right 0.5 h)

/-- The first band of a table that contains a value. -/
def IsFirst (t : RegionTable Float) (x : Float) (b : RegionBand Float) : Prop :=
  ∃ before after, t.bands = before ++ b :: after ∧ (∀ earlier ∈ before, earlier.contains x = false) ∧
    b.contains x = true

theorem isFirst_iff {x : Float} {b : RegionBand Float} :
    t.IsFirst x b ↔ t.bands.find? (·.contains x) = some b := by
  rw [List.find?_eq_some_iff_append, IsFirst]
  simp only [Bool.not_eq_true']
  grind

theorem exists_of_label? (h : t.label? xs = some l) : ∃ b least greatest,
    t.IsFirst (Sample.mean xs) b ∧ Sample.range? xs = some (least, greatest) ∧ l.name = b.name ∧
      l.confidence = blend (depth b (Sample.mean xs) (greatest - least)) (coverage b least greatest) := by
  unfold label? at h
  obtain ⟨⟨least, greatest⟩, hrange, h⟩ := Option.bind_eq_some_iff.mp h
  obtain ⟨b, hfind, hlabel⟩ := Option.bind_eq_some_iff.mp h
  cases hlabel
  exact ⟨b, least, greatest, isFirst_iff.mpr hfind, hrange, rfl, rfl⟩

theorem isSome_label?_iff : (t.label? xs).isSome = true ↔
    xs ≠ [] ∧ ∃ b ∈ t.bands, b.contains (Sample.mean xs) = true := by
  cases xs with
  | nil => simp [label?, Sample.range?]
  | cons x xs =>
    rw [← List.find?_isSome]
    cases hfind : t.bands.find? (·.contains (Sample.mean (x :: xs))) with
    | none => simp [label?, Sample.range?, hfind]
    | some b => simp [label?, Sample.range?, hfind]

/-- There is a label exactly if a band contains the mean, and it names the first such band. Its
confidence is in the unit interval if the band can be measured against the sample, and no number if it
cannot. -/
theorem label_confidence_iff_measures (hfinite : Sample.allFinite xs = true) :
    ((t.label? xs).isSome = true ↔ xs ≠ [] ∧ ∃ b ∈ t.bands, b.contains (Sample.mean xs) = true) ∧
    ∀ l, t.label? xs = some l → ∃ b least greatest, t.IsFirst (Sample.mean xs) b ∧
      Sample.range? xs = some (least, greatest) ∧ l.name = b.name ∧
      (b.Measures least greatest →
        l.confidence.isNaN = false ∧ (0.0 : Float) ≤ l.confidence ∧ l.confidence ≤ 1.0) ∧
      (¬b.Measures least greatest → l.confidence.isNaN = true) := by
  refine ⟨isSome_label?_iff, ?_⟩
  intro l h
  obtain ⟨b, least, greatest, hfirst, hrange, hname, hconfidence⟩ := exists_of_label? h
  obtain ⟨_, _, _, _, hin⟩ := id hfirst
  obtain ⟨hlow, hhigh⟩ := contains_iff.mp hin
  obtain ⟨hleast, hgreatest⟩ := Sample.isFinite_of_range? hfinite hrange
  have hdeep := isNaN_depth_iff hin (value_sub hgreatest hleast).1
  have hcovered := isNaN_coverage_iff (Scalar.lt_of_le_of_lt hlow hhigh) hleast hgreatest
  refine ⟨b, least, greatest, hfirst, hrange, hname, ?_, ?_⟩ <;> rw [hconfidence]
  · rintro ⟨hthick, hshared⟩
    have hbounds := blend_bounds (hdeep.mpr hthick) (hcovered.mpr hshared)
    exact ⟨(isNaN_of_le hbounds.1).2, hbounds⟩
  · intro hnot
    apply isNaN_blend
    by_contra hnumbers
    rw [not_or, Bool.not_eq_true, Bool.not_eq_true] at hnumbers
    exact hnot ⟨hdeep.mp hnumbers.1, hcovered.mp hnumbers.2⟩

end Label

/-- A band with another one that overlaps it and is open above. -/
def overlapping : RegionTable Float := ⟨[⟨"low", 0.0, 10.0⟩, ⟨"high", 5.0, 1.0 / 0.0⟩]⟩

theorem overlapping_label : ∃ l, overlapping.label? [6.0, 7.0, 11.0] = some l ∧ l.name = "low" ∧
    l.confidence.isNaN = false ∧ (0.0 : Float) ≤ l.confidence ∧ l.confidence ≤ 1.0 := by
  have hfinite : Sample.allFinite [(6.0 : Float), 7.0, 11.0] = true := by decide +kernel
  have hrange : Sample.range? [(6.0 : Float), 7.0, 11.0] = some (6.0, 11.0) := by decide +kernel
  have hin : (⟨"low", 0.0, 10.0⟩ : RegionBand Float).contains (Sample.mean [6.0, 7.0, 11.0])
      = true := by decide +kernel
  obtain ⟨hsome, hlabel⟩ := label_confidence_iff_measures (t := overlapping) hfinite
  obtain ⟨l, hl⟩ := Option.isSome_iff_exists.mp
    (hsome.mpr ⟨List.cons_ne_nil _ _, _, List.mem_cons_self, hin⟩)
  obtain ⟨b, least, greatest, hfirst, hends, hname, hmeasures, _⟩ := hlabel l hl
  have hlow : overlapping.bands.find? (·.contains (Sample.mean [6.0, 7.0, 11.0]))
      = some ⟨"low", 0.0, 10.0⟩ := List.find?_cons_of_pos hin
  rw [isFirst_iff, hlow, Option.some.injEq] at hfirst
  rw [hrange, Option.some.injEq, Prod.mk.injEq] at hends
  obtain ⟨rfl, rfl⟩ := hends
  subst hfirst
  exact ⟨l, hl, hname, hmeasures ⟨by decide +kernel, by decide +kernel⟩⟩

/-- A band that is open at both ends. -/
def everything : List (RegionBand Float) := [⟨"all", -(1.0 / 0.0), 1.0 / 0.0⟩]

/-- A band with nothing in it but zero. -/
def zeroOnly : List (RegionBand Float) := [⟨"zero", 0.0, 5e-324⟩]

/-- Both bands contain the mean of a sample that cannot be measured against them. -/
theorem everything_and_zeroOnly_without_confidence :
    (ofBands everything = .ok ⟨everything⟩ ∧ Sample.allFinite [(-1e308 : Float), 1e308] = true ∧
      ∃ l, label? ⟨everything⟩ [(-1e308 : Float), 1e308] = some l ∧ l.confidence.isNaN = true) ∧
    (ofBands zeroOnly = .ok ⟨zeroOnly⟩ ∧ Sample.allFinite [(0.0 : Float)] = true ∧
      ∃ l, label? ⟨zeroOnly⟩ [(0.0 : Float)] = some l ∧ l.confidence.isNaN = true) := by
  refine ⟨⟨ofBands_of_toBool (by decide +kernel), by decide +kernel, ?_⟩,
    ⟨ofBands_of_toBool (by decide +kernel), by decide +kernel, ?_⟩⟩
  · exact (Option.any_eq_true (fun l : RegionLabel Float => l.confidence.isNaN) _).mp (by decide +kernel)
  · exact (Option.any_eq_true (fun l : RegionLabel Float => l.confidence.isNaN) _).mp (by decide +kernel)

end RegionTable

end BinGrade
