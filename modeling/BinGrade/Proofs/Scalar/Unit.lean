import BinGrade.Proofs.Binary64.Interval
import BinGrade.Proofs.Scalar.Extremes

/-!
# The unit interval

Clamping into the unit interval is monotone on numbers. What is no number becomes zero if it is clamped
as a strength, and stays what it is if it is clamped as a confidence.
-/

namespace BinGrade

open Binary64

namespace Scalar

variable {a b x : Float}

theorem unit_ordered : (0.0 : Float) ≤ 1.0 := by
  rw [le_iff rfl rfl, value_one]
  exact zero_le_one

theorem unit_bounds (x : Float) : (0.0 : Float) ≤ unit x ∧ unit x ≤ 1.0 := by
  have hzero : (0.0 : Float) ≤ 0.0 ∧ (0.0 : Float) ≤ 1.0 := ⟨Ordered.le_refl rfl, unit_ordered⟩
  have hone : (0.0 : Float) ≤ 1.0 ∧ (1.0 : Float) ≤ 1.0 := ⟨unit_ordered, Ordered.le_refl rfl⟩
  unfold unit clamp
  by_cases hnan : isNaN x = true
  · rw [if_pos hnan]
    exact hzero
  rw [if_neg hnan]
  rw [Bool.not_eq_true] at hnan
  split
  · exact hzero
  · next hlow =>
    split
    · exact hone
    · next hhigh => exact ⟨le_of_not_lt hnan rfl hlow, le_of_not_lt rfl hnan hhigh⟩

theorem within_of_bounds (hlow : (0.0 : Float) ≤ x) (hhigh : x ≤ 1.0) : Within 0 1024 x := by
  have hfinite : x.isFinite = true := isFinite_of_le hlow hhigh rfl
  have hnumber := isNaN_of_isFinite hfinite
  have hzero : value (0.0 : Float) = 0 := rfl
  rw [le_iff rfl hnumber, hzero] at hlow
  rw [le_iff hnumber rfl, value_one] at hhigh
  exact ⟨hfinite, by simpa using hlow, by simpa [step] using hhigh⟩

theorem within_unit (x : Float) : Within 0 1024 (unit x) :=
  within_of_bounds (unit_bounds x).1 (unit_bounds x).2

theorem clamp_eq_unit (h : x.isNaN = false) : clamp 0.0 1.0 x = unit x := by
  have hnumber : isNaN x = false := h
  rw [unit, hnumber, if_neg Bool.false_ne_true]

theorem clamp_of_isNaN (low high : Float) (h : x.isNaN = true) : clamp low high x = x := by
  have hlow : ¬x < low := by
    intro hlt
    rw [(isNaN_of_lt hlt).1] at h
    cases h
  have hhigh : ¬high < x := by
    intro hlt
    rw [(isNaN_of_lt hlt).2] at h
    cases h
  rw [clamp, if_neg hlow, if_neg hhigh]

theorem unit_of_between (hnumber : x.isNaN = false) (hlow : ¬x < (0.0 : Float))
    (hhigh : ¬(1.0 : Float) < x) : unit x = x := by
  rw [← clamp_eq_unit hnumber, clamp, if_neg hlow, if_neg hhigh]

theorem unit_eq_self_iff : unit x = x ↔ (0.0 : Float) ≤ x ∧ x ≤ 1.0 := by
  constructor
  · intro h
    simpa only [h] using unit_bounds x
  · rintro ⟨hlow, hhigh⟩
    exact unit_of_between (isNaN_of_le hlow).2 (not_lt_of_le hlow) (not_lt_of_le hhigh)

/-- Clamping first changes nothing: what is no number is passed on and becomes zero all the same. -/
theorem unit_clamp (x : Float) : unit (clamp 0.0 1.0 x) = unit x := by
  cases hnumber : x.isNaN with
  | false =>
    rw [clamp_eq_unit hnumber]
    exact unit_eq_self_iff.mpr (unit_bounds x)
  | true => rw [clamp_of_isNaN 0.0 1.0 hnumber]

theorem unit_of_lt (h : x < (0.0 : Float)) : unit x = 0.0 := by
  rw [← clamp_eq_unit (isNaN_of_lt h).1, clamp, if_pos h]

theorem unit_of_gt (h : (1.0 : Float) < x) : unit x = 1.0 := by
  have hlow : ¬x < (0.0 : Float) := fun hlt => not_lt_of_le unit_ordered (lt_trans h hlt)
  rw [← clamp_eq_unit (isNaN_of_lt h).2, clamp, if_neg hlow, if_pos h]

theorem unit_mono (h : a ≤ b) : unit a ≤ unit b := by
  obtain ⟨ha, hb⟩ := isNaN_of_le h
  by_cases hlow : a < (0.0 : Float)
  · rw [unit_of_lt hlow]
    exact (unit_bounds b).1
  by_cases hhigh : (1.0 : Float) < b
  · rw [unit_of_gt hhigh]
    exact (unit_bounds a).2
  rw [unit_of_between ha hlow fun hlt => hhigh (lt_of_lt_of_le hlt h),
    unit_of_between hb (fun hlt => hlow (lt_of_le_of_lt h hlt)) hhigh]
  exact h

end Scalar

end BinGrade
