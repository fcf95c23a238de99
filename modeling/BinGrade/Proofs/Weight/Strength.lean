import BinGrade.Proofs.Scalar.Unit
import BinGrade.Proofs.Weight.Normalization

/-!
# Rounded strengths

The strengths of two signals are cut down to a bound by one quotient and two products. Each of these
is right up to a share of itself, so together the strengths are beyond the bound by a few roundings at
most, and below one if the bound leaves room for them.
-/

namespace BinGrade

open Binary64

/-! ### Accepted weights -/

namespace Weights

variable {w : Weights Float}

theorem isUsable_of_normalize {n : Weights Float} (h : w.normalize = .ok n) (m : Moment) :
    isUsable (w.get m) = true := by
  obtain ⟨_, hcheck, _⟩ := exists_of_bind_eq_ok h
  exact checkComponents_eq_ok_iff.mp hcheck m

theorem not_lt_of_isUsable {x : Float} (h : isUsable x = true) : ¬x < 0.0 := by
  obtain ⟨hfinite, hnonneg⟩ := isUsable_iff.mp h
  rw [lt_iff (isNaN_of_isFinite hfinite) rfl]
  exact not_lt.mpr hnonneg

theorem isFinite_sum_of_check (h : w.check = .ok w) : w.sum.isFinite = true := by
  have husable := isUsable_of_check h
  obtain ⟨hnumber, hle⟩ := value_le_sum husable
  have hnonneg := (isUsable_iff.mp (husable .mean)).2.trans (hle .mean)
  by_contra hinfinite
  -- there is one infinity above zero, and its distance from one is too large
  obtain ⟨s, hs⟩ := (isFinite_or_infinity hnumber).resolve_left hinfinite
  have hsign : 0 ≤ number (.infinity s) := by
    rw [← hs]
    exact hnonneg
  rw [infinity_of_nonneg hsign] at hs
  have hsum : w.sum = 1.0 / 0.0 := eq_of_unpack_eq hs
  have hfar : (1e-9 : Float) < ((1.0 / 0.0 : Float) - 1.0).abs := by decide +kernel
  rw [check_eq husable, hsum, if_pos hfar] at h
  cases h

theorem abs_sum_sub_one_of_check (h : w.check = .ok w) : |value w.sum - 1| ≤ 1 / 4 := by
  have hfinite := isFinite_sum_of_check h
  obtain ⟨hnumber, hvalue⟩ := value_deviation hfinite
  have htolerance : value (1e-9 : Float) < 1 / 4 := by decide +kernel
  have hquarter : value (0.25 : Float) = 1 / 4 := by decide +kernel
  by_contra hfar
  have hdeviation : (1e-9 : Float) < (w.sum - 1.0).abs := by
    rw [lt_iff (by decide +kernel) hnumber, hvalue]
    refine htolerance.trans_le ?_
    rw [← hquarter]
    apply value_le_nearest
    rw [hquarter]
    exact (not_le.mp hfar).le
  rw [check_eq (isUsable_of_check h), if_pos hdeviation] at h
  cases h

theorem within_of_check (h : w.check = .ok w) (m : Moment) : Within 0 2048 (w.get m) := by
  obtain ⟨hfinite, hnonneg⟩ := isUsable_iff.mp (isUsable_of_check h m)
  have hle := (value_le_sum (isUsable_of_check h)).2 m
  have hsum := (abs_le.mp (abs_sum_sub_one_of_check h)).2
  refine ⟨hfinite, by simpa using hnonneg, ?_⟩
  norm_num [step]
  linarith

/-- Some weight is at least an eighth. -/
theorem exists_within_of_check (h : w.check = .ok w) : ∃ m, Within 128 2048 (w.get m) := by
  by_contra hnone
  push Not at hnone
  have hsmall (m : Moment) : value (w.get m) < 1 / 8 := by
    by_contra hlarge
    refine hnone m ⟨(within_of_check h m).isFinite, ?_, (within_of_check h m).high⟩
    norm_num [step]
    linarith
  have hupper := (sum_bounds (isUsable_of_check h) (isFinite_sum_of_check h)).2
  have hsum := (abs_le.mp (abs_sum_sub_one_of_check h)).1
  have hfactor : (1 + unitRoundoff) ^ 4 ≤ 5 / 4 := by norm_num [unitRoundoff]
  have hnonneg := exactSum_nonneg (isUsable_of_mem_toList (isUsable_of_check h))
  have hexact : exactSum w.toList < 1 / 2 := by
    rw [exactSum_toList]
    linarith [hsmall .mean, hsmall .variance, hsmall .skewness, hsmall .kurtosis]
  linarith [mul_le_mul_of_nonneg_left hfactor hnonneg]

end Weights

/-! ### Influences -/

namespace Influence

/-- Influences between zero and one. -/
structure Moderate (i : Influence Float) : Prop where
  distribution : Within 0 1024 i.distribution
  objective : Within 0 1024 i.objective
  maxBlend : Within 0 1024 i.maxBlend

theorem moderate_sanitized (i : Influence Float) : i.sanitized.Moderate :=
  ⟨Scalar.within_unit i.distribution, Scalar.within_unit i.objective, Scalar.within_unit i.maxBlend⟩

theorem moderate_standard : (standard : Influence Float).Moderate where
  distribution := ⟨by decide +kernel, by decide +kernel, by decide +kernel⟩
  objective := ⟨by decide +kernel, by decide +kernel, by decide +kernel⟩
  maxBlend := ⟨by decide +kernel, by decide +kernel, by decide +kernel⟩

end Influence

namespace WeightEngine

theorem Made.moderate {e : WeightEngine Float} (h : Made e) : e.influence.Moderate := by
  cases h with
  | standard => exact Influence.moderate_standard
  | ofTables h =>
    unfold WeightEngine.ofTables at h
    obtain ⟨_, _, h⟩ := exists_of_bind_eq_ok h
    cases h
    exact Influence.moderate_sanitized _
  | ofInfluence i => exact Influence.moderate_sanitized i

/-! ### Strengths -/

section Strengths

variable {i x y bound : Float}

/-- How far a pull goes, in steps; without a signal it goes nowhere. -/
def reach (c : Option Float) : ℤ := if c.isSome then 1024 else 0

theorem reach_bounds (c : Option Float) : 0 ≤ reach c ∧ reach c ≤ 1024 := by
  unfold reach
  split <;> norm_num

theorem within_strength (hi : Within 0 1024 i) (c : Option Float) :
    Within 0 (reach c) (strength i c) := by
  cases c with
  | none =>
    have hzero : Within 0 0 (0.0 : Float) := ⟨rfl, by decide +kernel, by decide +kernel⟩
    exact hzero.mul hi (by norm_num [reach]) (by norm_num) (by norm_num [reach])
  | some c =>
    exact (Scalar.within_unit c).mul hi (by norm_num [reach]) (by norm_num) (by norm_num [reach])

/-- The factor by which the bound cuts down pulls that are beyond it. -/
theorem scale_bounds (hbound : Within 0 1024 bound) (hx : Within 0 1024 x) (hy : Within 0 1024 y)
    (hlt : bound < x + y) : Within 0 1024 (bound / (x + y))
      ∧ value (x + y) * value (bound / (x + y))
        ≤ value bound * (1 + unitRoundoff) + 2 * leastRoundoff := by
  have hboth := hx.add hy (by norm_num)
  have hbound0 := hbound.nonneg
  have hvalue : value bound < value (x + y) := (lt_iff hbound.isNaN_eq hboth.isNaN_eq).mp hlt
  have hpos : 0 < value (x + y) := hbound0.trans_lt hvalue
  have hshare : 0 ≤ value bound / value (x + y) := div_nonneg hbound0 hpos.le
  have hrounds := rounds_div hbound.isFinite hboth.isFinite hpos.ne'
  refine ⟨hrounds.within (by norm_num) (by simpa using hshare) ?_, ?_⟩
  · have hone : value bound / value (x + y) ≤ 1 := (div_le_one hpos).mpr hvalue.le
    simpa [step] using hone
  · have htwo : value (x + y) ≤ 2 := by
      have := hboth.high
      norm_num [step] at this
      exact this
    have hquotient : value (x + y) * (value bound / value (x + y)) = value bound :=
      mul_div_cancel₀ _ hpos.ne'
    calc value (x + y) * value (bound / (x + y))
        ≤ value (x + y) * (value bound / value (x + y)
          + value bound / value (x + y) * unitRoundoff + leastRoundoff) := by
          rw [hrounds.value_eq]
          exact mul_le_mul_of_nonneg_left (nearest_le_add hshare) hpos.le
      _ = value bound * (1 + unitRoundoff) + value (x + y) * leastRoundoff := by
          rw [mul_add, mul_add, ← mul_assoc, hquotient]
          ring
      _ ≤ value bound * (1 + unitRoundoff) + 2 * leastRoundoff := by
          linarith [mul_le_mul_of_nonneg_right htwo leastRoundoff_pos.le]

theorem value_mul_le (hx : Within 0 1024 x) (hy : Within 0 1024 y) :
    value (x * y) ≤ value x * value y * (1 + unitRoundoff) + leastRoundoff := by
  rw [(rounds_mul hx.isFinite hy.isFinite).value_eq]
  have := nearest_le_add (mul_nonneg hx.nonneg hy.nonneg)
  linarith

/-- An addition loses at most a share of its result. -/
theorem add_mul_one_sub_le (hx : Within 0 1024 x) (hy : Within 0 1024 y) :
    (value x + value y) * (1 - unitRoundoff) ≤ value (x + y) := by
  have hboth := hx.add hy (by norm_num)
  have herror := abs_value_add_sub_le hx.isFinite hy.isFinite hboth.isFinite
  rw [abs_of_nonneg (add_nonneg hx.nonneg hy.nonneg), abs_le] at herror
  linarith [herror.1]

/-- Pulls that were cut down are beyond the bound by a few roundings at most. -/
theorem cut_sum_le (hbound : Within 0 1024 bound) (hx : Within 0 1024 x) (hy : Within 0 1024 y)
    (hlt : bound < x + y) :
    (value (x * (bound / (x + y))) + value (y * (bound / (x + y)))) * (1 - unitRoundoff)
      ≤ value bound * (1 + unitRoundoff) ^ 2 + 6 * leastRoundoff := by
  obtain ⟨hscale, hproduct⟩ := scale_bounds hbound hx hy hlt
  have hleft := value_mul_le hx hscale
  have hright := value_mul_le hy hscale
  have hboth := add_mul_one_sub_le hx hy
  have hu := unitRoundoff_pos
  have hu1 := unitRoundoff_le_one
  have hleast := leastRoundoff_pos
  generalize bound / (x + y) = k at *
  have hk := hscale.nonneg
  calc (value (x * k) + value (y * k)) * (1 - unitRoundoff)
      ≤ ((value x + value y) * value k * (1 + unitRoundoff) + 2 * leastRoundoff)
        * (1 - unitRoundoff) := mul_le_mul_of_nonneg_right (by linarith) (by linarith)
    _ = (value x + value y) * (1 - unitRoundoff) * value k * (1 + unitRoundoff)
        + 2 * leastRoundoff * (1 - unitRoundoff) := by ring
    _ ≤ value (x + y) * value k * (1 + unitRoundoff) + 2 * leastRoundoff := by
        refine add_le_add ?_ ?_
        · exact mul_le_mul_of_nonneg_right (mul_le_mul_of_nonneg_right hboth hk) (by linarith)
        · exact mul_le_of_le_one_right (by linarith) (by linarith)
    _ ≤ (value bound * (1 + unitRoundoff) + 2 * leastRoundoff) * (1 + unitRoundoff)
        + 2 * leastRoundoff :=
        add_le_add_left (mul_le_mul_of_nonneg_right hproduct (by linarith)) _
    _ ≤ value bound * (1 + unitRoundoff) ^ 2 + 6 * leastRoundoff := by
        have hshare := mul_le_mul_of_nonneg_left hu1 hleast.le
        linarith

end Strengths

section Engine

variable {e : WeightEngine Float} (he : e.influence.Moderate) (distribution objective : Option Float)

include he

theorem within_strengths :
    Within 0 (reach distribution) (e.strengths distribution objective).distribution
    ∧ Within 0 (reach objective) (e.strengths distribution objective).objective := by
  have hx := within_strength he.distribution distribution
  have hy := within_strength he.objective objective
  obtain ⟨hd0, hd1⟩ := reach_bounds distribution
  obtain ⟨ho0, ho1⟩ := reach_bounds objective
  unfold strengths
  dsimp only
  split
  · next hlt =>
    have hscale := (scale_bounds he.maxBlend (hx.mono le_rfl hd1) (hy.mono le_rfl ho1) hlt).1
    have hsmall {j : ℤ} (h0 : 0 ≤ j) (h1 : j ≤ 1024) : |(0 : ℤ)| ≤ 2 ^ 20 ∧ |j| ≤ 2 ^ 20 := by
      rw [abs_zero, abs_of_nonneg h0]
      omega
    constructor
    · exact hx.mul hscale (hsmall hd0 hd1) ⟨hd0, le_rfl⟩ (by omega)
    · exact hy.mul hscale (hsmall ho0 ho1) ⟨ho0, le_rfl⟩ (by omega)
  · exact ⟨hx, hy⟩

/-- Together, pulls are beyond their bound by a few roundings at most. -/
theorem sum_strengths_le : (value (e.strengths distribution objective).distribution
      + value (e.strengths distribution objective).objective) * (1 - unitRoundoff)
    ≤ value e.influence.maxBlend * (1 + unitRoundoff) ^ 2 + 6 * leastRoundoff := by
  have hx := (within_strength he.distribution distribution).mono le_rfl (reach_bounds _).2
  have hy := (within_strength he.objective objective).mono le_rfl (reach_bounds _).2
  have hbound := he.maxBlend
  unfold strengths
  dsimp only
  generalize strength e.influence.distribution distribution = x at *
  generalize strength e.influence.objective objective = y at *
  split
  · next hlt => exact cut_sum_le hbound hx hy hlt
  · next hnot =>
    have hboth := hx.add hy (by norm_num)
    have hle : value (x + y) ≤ value e.influence.maxBlend := by
      by_contra h
      exact hnot ((lt_iff hbound.isNaN_eq hboth.isNaN_eq).mpr (not_le.mp h))
    have hpower : 1 ≤ (1 + unitRoundoff) ^ 2 := one_le_pow₀ (by linarith [unitRoundoff_pos])
    have hgrown := mul_le_mul_of_nonneg_left hpower hbound.nonneg
    have hleast := leastRoundoff_pos
    exact (add_mul_one_sub_le hx hy).trans (by linarith)

theorem sum_strengths_le_of_bound : value (e.strengths distribution objective).distribution
      + value (e.strengths distribution objective).objective ≤ 1 + 4 * step := by
  have hsum := sum_strengths_le he distribution objective
  have hbound := he.maxBlend.le_one
  have hleast : leastRoundoff ≤ 2 ^ (-53 : ℤ) := two_zpow_le (by norm_num)
  have hpower : 0 ≤ (1 + unitRoundoff) ^ 2 := sq_nonneg _
  have hgrown := mul_le_mul_of_nonneg_right hbound hpower
  unfold unitRoundoff at *
  norm_num [step] at *
  linarith

/-- Three units in the last place below one the bound leaves room for the roundings. -/
theorem sum_strengths_le_one (hbound : e.influence.maxBlend ≤ 0.9999999999999997) :
    value (e.strengths distribution objective).distribution
      + value (e.strengths distribution objective).objective ≤ 1 := by
  have hsum := sum_strengths_le he distribution objective
  have hvalue : value (0.9999999999999997 : Float) = 1 - 3 * 2 ^ (-53 : ℤ) := by decide +kernel
  rw [le_iff he.maxBlend.isNaN_eq rfl, hvalue] at hbound
  have hleast : leastRoundoff ≤ 2 ^ (-110 : ℤ) := two_zpow_le (by norm_num)
  have hpower : 0 ≤ (1 + unitRoundoff) ^ 2 := sq_nonneg _
  have hgrown := mul_le_mul_of_nonneg_right hbound hpower
  unfold unitRoundoff at *
  norm_num at *
  linarith

end Engine

end WeightEngine

end BinGrade
