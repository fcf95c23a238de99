import BinGrade.Proofs.Binary64.Accuracy
import BinGrade.Proofs.Binary64.Sign

/-!
# Overflow

A double beyond all bounds is positive infinity or no number. Sums, means and roots that contain one
are beyond all bounds as well. Two finite doubles whose difference overflows lie so far apart that
from anywhere the square of the distance to one of them is of this kind.
-/

namespace BinGrade.Binary64

open Float.Model Float.Model.UnpackedFloat

variable {a b c x : Float}

/-! ### Beyond all bounds -/

/-- Positive infinity, or no number. -/
def Beyond (a : Float) : Prop :=
  a.toModel.unpack = .notANumber ∨ a.toModel.unpack = .infinity .positive

theorem Beyond.not_le (ha : Beyond a) (hc : c.isFinite = true) : ¬a ≤ c := by
  intro hle
  obtain ⟨hnumber, _⟩ := isNaN_of_le hle
  have hvalue := (le_iff hnumber (isNaN_of_isFinite hc)).mp hle
  rcases ha with ha | ha
  · change a.toModel.unpack.isNaN = false at hnumber
    rw [ha] at hnumber
    cases hnumber
  · rw [isFinite_iff (isNaN_of_isFinite hc)] at hc
    have hlimit : value a = limit := congrArg number ha
    rw [hlimit] at hvalue
    exact absurd ((le_abs_self _).trans_lt hc) (not_lt.mpr hvalue)

theorem Beyond.not_lt (ha : Beyond a) (hc : c.isFinite = true) : ¬a < c :=
  fun hlt => ha.not_le hc (Scalar.Ordered.lt_iff.mp hlt).1

theorem beyond_pack {u : UnpackedFloat} (h : u = .notANumber ∨ u = .infinity .positive) :
    Beyond (.ofModel (.pack u)) := by
  rcases h with rfl | rfl
  · exact .inl rfl
  · exact .inr (unpack_packedInfinity .positive)

theorem beyond_of_limit_le (hnumber : a.isNaN = false) (h : limit ≤ value a) : Beyond a := by
  have hinfinite : ¬a.isFinite = true := by
    rw [isFinite_iff hnumber]
    exact not_lt.mpr (h.trans (le_abs_self _))
  obtain ⟨s, hs⟩ := (isFinite_or_infinity hnumber).resolve_left hinfinite
  have hnonneg : 0 ≤ number (.infinity s) := by
    rw [← hs]
    exact limit_pos.le.trans h
  rw [infinity_of_nonneg hnonneg] at hs
  exact .inr hs

theorem Beyond.add_right (h : Beyond a) : Beyond (a + b) := by
  refine beyond_pack ?_
  rcases h with h | h <;> rw [h]
  · cases b.toModel.unpack <;> exact .inl rfl
  · cases b.toModel.unpack with
    | notANumber => exact .inl rfl
    | infinity s => cases s <;> [exact .inl rfl; exact .inr rfl]
    | _ => exact .inr rfl

theorem Beyond.add_left (h : Beyond b) : Beyond (a + b) := by
  refine beyond_pack ?_
  rcases h with h | h <;> rw [h]
  · cases a.toModel.unpack <;> exact .inl rfl
  · cases a.toModel.unpack with
    | notANumber => exact .inl rfl
    | infinity s => cases s <;> [exact .inl rfl; exact .inr rfl]
    | _ => exact .inr rfl

theorem beyond_foldl_add {xs : List Float} {start : Float} (hx : x ∈ xs) (h : Beyond x) :
    Beyond (xs.foldl (· + ·) start) :=
  foldl_add_of_mem (P := Beyond) (fun h => h.add_right) (fun h => h.add_left) (.inr ⟨x, hx, h⟩)

theorem Beyond.div (h : Beyond a) (hb : b.isNaN = false) (hpos : 0 < value b) : Beyond (a / b) := by
  refine beyond_pack ?_
  change b.toModel.unpack.isNaN = false at hb
  change 0 < number b.toModel.unpack at hpos
  rcases h with h | h <;> rw [h]
  · exact .inl rfl
  · cases hu : b.toModel.unpack with
    | notANumber =>
      rw [hu] at hb
      cases hb
    | infinity s => exact .inl rfl
    | zero s =>
      rw [hu] at hpos
      exact absurd hpos (lt_irrefl 0)
    | finite s m e hm =>
      rw [hu] at hpos
      cases s with
      | negative => exact absurd hpos (neg_nonpos.mpr (magnitude_pos hm e).le).not_gt
      | positive => exact .inr rfl

theorem Beyond.sqrt (h : Beyond a) : Beyond a.sqrt := by
  refine beyond_pack ?_
  rcases h with h | h <;> rw [h]
  · exact .inl rfl
  · exact .inr rfl

/-! ### The largest number -/

theorem nearest_neg (y : ℚ) : nearest (-y) = -nearest y := by
  have hpos := limit_pos
  unfold nearest
  rw [toGrid_neg]
  rcases le_total limit (toGrid y) with h | h
  · rw [min_eq_left h, max_eq_right (show -limit ≤ limit by linarith),
      min_eq_right (show -toGrid y ≤ limit by linarith), max_eq_left (by linarith)]
  · rw [min_eq_right h]
    rcases le_total (-limit) (toGrid y) with h' | h'
    · rw [max_eq_right h', min_eq_right (by linarith), max_eq_right (by linarith)]
    · rw [max_eq_left h', min_eq_left (by linarith), max_eq_right (by linarith), neg_neg]

theorem abs_nearest (y : ℚ) : |nearest y| = nearest |y| := by
  rcases le_total 0 y with h | h
  · rw [abs_of_nonneg h, abs_of_nonneg (nearest_nonneg h)]
  · have hneg := nearest_nonneg (neg_nonneg.mpr h)
    rw [nearest_neg] at hneg
    rw [abs_of_nonpos h, nearest_neg, abs_of_nonpos (by linarith)]

theorem value_le_of_isFinite {a : Float} (h : a.isFinite = true) :
    value a ≤ limit - limit * unitRoundoff := by
  have hformat := inFormat_unpack a.toModel.toBits.toBitVec
  change InFormat a.toModel.unpack at hformat
  change number a.toModel.unpack ≤ _
  change a.toModel.unpack.isFinite = true at h
  have hstep : limit - limit * unitRoundoff = (2 ^ 53 - 1) * 2 ^ (971 : ℤ) := by
    have hlimit : limit = 2 ^ (53 : ℤ) * 2 ^ (971 : ℤ) := (two_zpow_add 53 971)
    have hunit : limit * unitRoundoff = 2 ^ (971 : ℤ) := (two_zpow_add 1024 (-53)).symm
    rw [hunit, hlimit]
    ring
  have hnonneg : 0 ≤ limit - limit * unitRoundoff := by
    rw [hstep]
    exact mul_nonneg (by norm_num) (two_zpow_pos _).le
  cases hu : a.toModel.unpack with
  | infinity s =>
    rw [hu] at h
    cases h
  | notANumber =>
    rw [hu] at h
    cases h
  | zero s => exact hnonneg
  | finite s m e hm =>
    rw [hu] at hformat
    cases s with
    | negative => exact (neg_nonpos.mpr (magnitude_pos hm e).le).trans hnonneg
    | positive =>
      obtain ⟨hdigits, _, _⟩ := hformat.canonical
      have he : e ≤ 971 := by
        by_contra hover
        have := hformat.saturated
        rw [saturate, if_neg hover] at this
        cases this
      rw [hstep]
      have hm' : (m : ℚ) ≤ 2 ^ 53 - 1 := by
        rw [le_sub_iff_add_le]
        exact_mod_cast hdigits
      exact mul_le_mul hm' (two_zpow_le he) (two_zpow_pos e).le (by norm_num)

/-- Half a step beyond the largest number would be needed to overflow; three is far less. -/
theorem nearest_lt_limit {y : ℚ} (h : y ≤ limit - limit * unitRoundoff + 3) : nearest y < limit := by
  have hlimit := limit_pos
  have hunit := unitRoundoff_le_one
  have hleast : leastRoundoff ≤ 1 := by
    rw [leastRoundoff, ← zpow_zero (2 : ℚ)]
    exact two_zpow_le (by norm_num)
  have hslack : 8 ≤ limit * unitRoundoff * unitRoundoff := by
    have hpower : limit * unitRoundoff * unitRoundoff = 2 ^ (918 : ℤ) := by
      rw [limit, unitRoundoff, ← two_zpow_add, ← two_zpow_add]
      rfl
    rw [hpower, show (8 : ℚ) = 2 ^ (3 : ℤ) by norm_num]
    exact two_zpow_le (by norm_num)
  rcases le_total 0 y with hy | hy
  · have hround := nearest_le_add hy
    have hscaled := mul_le_mul_of_nonneg_right h unitRoundoff_pos.le
    linarith
  · have hneg := nearest_nonneg (neg_nonneg.mpr hy)
    rw [nearest_neg] at hneg
    linarith

/-! ### Squares of distances -/

theorem unpack_of_not_isFinite (h : a.isFinite = false) :
    a.toModel.unpack = .notANumber ∨ ∃ s, a.toModel.unpack = .infinity s := by
  change a.toModel.unpack.isFinite = false at h
  cases hu : a.toModel.unpack with
  | notANumber => exact .inl rfl
  | infinity s => exact .inr ⟨s, rfl⟩
  | zero s =>
    rw [hu] at h
    cases h
  | finite s m e hm =>
    rw [hu] at h
    cases h

theorem not_isFinite_pack {u : UnpackedFloat} (h : u.isFinite = false) :
    (Float.ofModel (.pack u)).isFinite = false := by
  cases u with
  | notANumber => rfl
  | infinity s => cases s <;> rfl
  | zero s => cases h
  | finite s m e hm => cases h

theorem not_isFinite_div (h : a.isFinite = false) : (a / b).isFinite = false := by
  refine not_isFinite_pack ?_
  rcases unpack_of_not_isFinite h with h | ⟨s, h⟩ <;> rw [h]
  · cases b.toModel.unpack <;> rfl
  · cases b.toModel.unpack <;> rfl

theorem beyond_mul_self (h : a.isFinite = false) : Beyond (a * a) := by
  refine beyond_pack ?_
  rcases unpack_of_not_isFinite h with h | ⟨s, h⟩ <;> rw [h]
  · exact .inl rfl
  · cases s <;> exact .inr rfl

theorem not_isFinite_sub (ha : a.isFinite = true) (hb : b.isFinite = false) :
    (a - b).isFinite = false := by
  change a.toModel.unpack.isFinite = true at ha
  refine not_isFinite_pack ?_
  rcases unpack_of_not_isFinite hb with hb | ⟨t, hb⟩ <;> rw [hb]
  · cases a.toModel.unpack <;> rfl
  · cases hu : a.toModel.unpack with
    | notANumber =>
      rw [hu] at ha
      cases ha
    | infinity s =>
      rw [hu] at ha
      cases ha
    | _ => cases t <;> rfl

theorem two_zpow_le_nearest {k : ℤ} (hlow : -1074 ≤ k) (hhigh : k ≤ 1024) {y : ℚ}
    (h : 2 ^ k ≤ y) : 2 ^ k ≤ nearest y := by
  have hlimit : |(2 : ℚ) ^ k| ≤ limit := by
    rw [abs_of_pos (two_zpow_pos k)]
    exact two_zpow_le hhigh
  rw [← nearest_of_onGrid (onGrid_two_zpow hlow) hlimit]
  exact nearest_mono h

/-- A difference that overflows is at least half of the range. -/
theorem two_zpow_le_abs_sub (ha : a.isFinite = true) (hb : b.isFinite = true)
    (h : (b - a).isFinite = false) : (2 : ℚ) ^ (1023 : ℤ) ≤ |value b - value a| := by
  obtain ⟨hnumber, hvalue⟩ := value_sub hb ha
  by_contra hnear
  have hle : nearest |value b - value a| ≤ nearest (2 ^ (1023 : ℤ)) := nearest_mono (not_le.mp hnear).le
  have hlt : (2 : ℚ) ^ (1023 : ℤ) < limit := zpow_lt_zpow_right₀ (by norm_num) (by norm_num)
  rw [nearest_of_onGrid (onGrid_two_zpow (by norm_num)) (by rw [abs_of_pos (two_zpow_pos _)]; exact hlt.le),
    ← abs_nearest, ← hvalue] at hle
  rw [(isFinite_iff hnumber).mpr (hle.trans_lt hlt)] at h
  cases h

theorem beyond_square_of_far (ha : a.isFinite = true) (hc : c.isFinite = true)
    (h : (2 : ℚ) ^ (1022 : ℤ) ≤ |value a - value c|) : Beyond ((a - c) * (a - c)) := by
  obtain ⟨hnumber, hvalue⟩ := value_sub ha hc
  by_cases hfinite : (a - c).isFinite = true
  · obtain ⟨hproduct, hsquare⟩ := value_mul hfinite hfinite
    have hfar : (2 : ℚ) ^ (1022 : ℤ) ≤ |value (a - c)| := by
      rw [hvalue, abs_nearest]
      exact two_zpow_le_nearest (by norm_num) (by norm_num) h
    have hlarge : limit ≤ value (a - c) * value (a - c) := by
      rw [← abs_mul_abs_self]
      calc limit ≤ 2 ^ (1022 : ℤ) * 2 ^ (1022 : ℤ) := by
            rw [← two_zpow_add]
            exact two_zpow_le (by norm_num)
        _ ≤ |value (a - c)| * |value (a - c)| :=
            mul_le_mul hfar hfar (two_zpow_pos _).le (abs_nonneg _)
    refine beyond_of_limit_le hproduct ?_
    rw [hsquare, nearest_of_limit_le hlarge]
  · exact beyond_mul_self (Bool.eq_false_iff.mpr hfinite)

/-- Of two doubles whose difference overflows, one is far from any given double. -/
theorem beyond_square_or (ha : a.isFinite = true) (hb : b.isFinite = true)
    (h : (b - a).isFinite = false) (c : Float) :
    Beyond ((a - c) * (a - c)) ∨ Beyond ((b - c) * (b - c)) := by
  by_cases hc : c.isFinite = true
  · have hfar := two_zpow_le_abs_sub ha hb h
    have hhalves : (2 : ℚ) ^ (1023 : ℤ) = 2 ^ (1022 : ℤ) + 2 ^ (1022 : ℤ) := by
      rw [show (1023 : ℤ) = 1 + 1022 from rfl, two_zpow_add, zpow_one, two_mul]
    have htriangle : |value b - value a| ≤ |value a - value c| + |value b - value c| := by
      have hsplit : value b - value a = (value b - value c) - (value a - value c) := by ring
      rw [hsplit, add_comm]
      exact abs_sub _ _
    rw [hhalves] at hfar
    rcases le_or_gt ((2 : ℚ) ^ (1022 : ℤ)) |value a - value c| with hnear | hnear
    · exact .inl (beyond_square_of_far ha hc hnear)
    · refine .inr (beyond_square_of_far hb hc ?_)
      generalize (2 : ℚ) ^ (1022 : ℤ) = half at *
      linarith
  · exact .inl (beyond_mul_self (not_isFinite_sub ha (Bool.eq_false_iff.mpr hc)))

end BinGrade.Binary64
