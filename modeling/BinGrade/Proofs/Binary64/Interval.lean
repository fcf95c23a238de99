import BinGrade.Proofs.Binary64.Overflow

/-!
# Intervals

Rounding keeps every bound that is itself a double. The bounds here are multiples of one step, so the
range of a short calculation is followed in integers.
-/

namespace BinGrade.Binary64

variable {a b r : Float} {x : ℚ} {i j k l m n : ℤ}

/-! ### Steps -/

/-- The step of the bounds. -/
def step : ℚ := 1 / 1024

/-- A finite double between two multiples of the step. -/
structure Within (i j : ℤ) (a : Float) : Prop where
  isFinite : a.isFinite = true
  low : i * step ≤ value a
  high : value a ≤ j * step

theorem abs_steps_lt_limit (h : |i| ≤ 2 ^ 20) : |(i * step : ℚ)| < limit := by
  have hcast : |(i : ℚ)| ≤ 2 ^ 20 := by exact_mod_cast h
  have hlimit : (2 : ℚ) ^ (10 : ℤ) < limit := zpow_lt_zpow_right₀ (by norm_num) (by norm_num)
  rw [abs_mul, step]
  norm_num at hcast hlimit ⊢
  linarith

theorem nearest_steps (h : |i| ≤ 2 ^ 20) : nearest (i * step) = i * step := by
  refine nearest_of_onGrid ⟨i, -10, h.trans (by norm_num), by norm_num, ?_⟩ (abs_steps_lt_limit h).le
  norm_num [step]

theorem Rounds.within (h : Rounds r x) (hij : |i| ≤ 2 ^ 20 ∧ |j| ≤ 2 ^ 20) (hlow : i * step ≤ x)
    (hhigh : x ≤ j * step) : Within i j r := by
  obtain ⟨hi, hj⟩ := hij
  have hle := nearest_mono hlow
  have hge := nearest_mono hhigh
  rw [nearest_steps hi, ← h.value_eq] at hle
  rw [nearest_steps hj, ← h.value_eq] at hge
  refine ⟨(isFinite_iff h.isNaN_eq).mpr (abs_lt.mpr ⟨?_, ?_⟩), hle, hge⟩
  · exact (neg_lt_of_abs_lt (abs_steps_lt_limit hi)).trans_le hle
  · exact hge.trans_lt (lt_of_abs_lt (abs_steps_lt_limit hj))

/-! ### Operations -/

theorem rounds_add (ha : a.isFinite = true) (hb : b.isFinite = true) :
    Rounds (a + b) (value a + value b) :=
  ⟨(value_add ha hb).1, (value_add ha hb).2⟩

theorem rounds_sub (ha : a.isFinite = true) (hb : b.isFinite = true) :
    Rounds (a - b) (value a - value b) :=
  ⟨(value_sub ha hb).1, (value_sub ha hb).2⟩

theorem rounds_mul (ha : a.isFinite = true) (hb : b.isFinite = true) :
    Rounds (a * b) (value a * value b) :=
  ⟨(value_mul ha hb).1, (value_mul ha hb).2⟩

theorem rounds_div (ha : a.isFinite = true) (hb : b.isFinite = true) (h : value b ≠ 0) :
    Rounds (a / b) (value a / value b) :=
  ⟨isNaN_div_right (isNaN_of_isFinite ha) hb h, value_div ha hb h⟩

theorem step_pos : 0 < step := by norm_num [step]

namespace Within

theorem isNaN_eq (h : Within i j a) : a.isNaN = false := isNaN_of_isFinite h.isFinite

theorem nonneg (h : Within 0 j a) : 0 ≤ value a := by simpa using h.low

theorem of_nonneg (h : Within i j a) (h0 : 0 ≤ value a) : Within 0 j a :=
  ⟨h.isFinite, by simpa using h0, h.high⟩

theorem lt_zero_iff (h : Within i j a) : a < 0.0 ↔ value a < 0 := lt_iff h.isNaN_eq rfl

theorem zero_lt_iff (h : Within i j a) : 0.0 < a ↔ 0 < value a := lt_iff rfl h.isNaN_eq

theorem le_one (h : Within i 1024 a) : value a ≤ 1 := by
  have := h.high
  norm_num [step] at this
  exact this

theorem mono (h : Within i j a) (hki : k ≤ i) (hjl : j ≤ l) : Within k l a where
  isFinite := h.isFinite
  low := (mul_le_mul_of_nonneg_right (by exact_mod_cast hki) step_pos.le).trans h.low
  high := h.high.trans (mul_le_mul_of_nonneg_right (by exact_mod_cast hjl) step_pos.le)

theorem add (ha : Within i j a) (hb : Within k l b)
    (h : |i + k| ≤ 2 ^ 20 ∧ |j + l| ≤ 2 ^ 20) : Within (i + k) (j + l) (a + b) := by
  apply (rounds_add ha.isFinite hb.isFinite).within h
  · push_cast
    linarith [ha.low, hb.low]
  · push_cast
    linarith [ha.high, hb.high]

/-- The second factor is not negative, so its ends decide which products are the least. -/
theorem mul (ha : Within i j a) (hb : Within k l b) (h : |m| ≤ 2 ^ 20 ∧ |n| ≤ 2 ^ 20)
    (hsign : 0 ≤ j ∧ 0 ≤ k) (hends : m * 1024 ≤ i * k ∧ m * 1024 ≤ i * l ∧ j * l ≤ n * 1024) :
    Within m n (a * b) := by
  obtain ⟨hj, hk⟩ := hsign
  obtain ⟨hleast, hleast', hmost⟩ := hends
  have hstep := step_pos
  have hunit (q : ℤ) : (q * step : ℚ) = (q * 1024 : ℤ) * (step * step) := by
    push_cast
    norm_num [step]
    ring
  have hsquare : 0 ≤ step * step := (mul_pos hstep hstep).le
  have hb0 : 0 ≤ value b :=
    le_trans (mul_nonneg (by exact_mod_cast hk) hstep.le) hb.low
  apply (rounds_mul ha.isFinite hb.isFinite).within h
  · calc (m * step : ℚ) = (m * 1024 : ℤ) * (step * step) := hunit m
      _ ≤ i * step * value b := by
        rcases le_total 0 i with hi | hi
        · have hi' : (0 : ℚ) ≤ i * step := mul_nonneg (by exact_mod_cast hi) hstep.le
          calc ((m * 1024 : ℤ) : ℚ) * (step * step) ≤ (i * k : ℤ) * (step * step) :=
                mul_le_mul_of_nonneg_right (by exact_mod_cast hleast) hsquare
            _ = i * step * (k * step) := by push_cast; ring
            _ ≤ i * step * value b := mul_le_mul_of_nonneg_left hb.low hi'
        · have hi' : (i * step : ℚ) ≤ 0 :=
            mul_nonpos_of_nonpos_of_nonneg (by exact_mod_cast hi) hstep.le
          calc ((m * 1024 : ℤ) : ℚ) * (step * step) ≤ (i * l : ℤ) * (step * step) :=
                mul_le_mul_of_nonneg_right (by exact_mod_cast hleast') hsquare
            _ = i * step * (l * step) := by push_cast; ring
            _ ≤ i * step * value b := mul_le_mul_of_nonpos_left hb.high hi'
      _ ≤ value a * value b := mul_le_mul_of_nonneg_right ha.low hb0
  · have hj' : (0 : ℚ) ≤ j * step := mul_nonneg (by exact_mod_cast hj) hstep.le
    calc value a * value b ≤ j * step * value b := mul_le_mul_of_nonneg_right ha.high hb0
      _ ≤ j * step * (l * step) := mul_le_mul_of_nonneg_left hb.high hj'
      _ = (j * l : ℤ) * (step * step) := by push_cast; ring
      _ ≤ (n * 1024 : ℤ) * (step * step) :=
        mul_le_mul_of_nonneg_right (by exact_mod_cast hmost) hsquare
      _ = n * step := (hunit n).symm

end Within

end BinGrade.Binary64
