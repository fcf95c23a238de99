import BinGrade.Proofs.Binary64.Overflow

/-!
# Rounded operations keep the order

Sums and quotients of numbers that are not negative go up and down with their parts. This holds to
the end of the range, where an infinite part counts as the largest one. Of finite doubles the same is
true for differences, whatever their signs.
-/

namespace BinGrade.Binary64

variable {a b c : Float}

theorem value_le_limit (a : Float) : value a ≤ limit := (le_abs_self _).trans (abs_value_le a)

theorem isFinite_of_value_le (ha : a.isNaN = false) (h0 : 0 ≤ value a) (h : value a ≤ value b)
    (hb : b.isFinite = true) : a.isFinite = true := by
  rw [isFinite_iff (isNaN_of_isFinite hb), abs_of_nonneg (h0.trans h)] at hb
  rw [isFinite_iff ha, abs_of_nonneg h0]
  exact h.trans_lt hb

theorem limit_le_value (ha : a.isNaN = false) (h0 : 0 ≤ value a) (h : ¬a.isFinite = true) :
    limit ≤ value a := by
  rw [isFinite_iff ha, abs_of_nonneg h0] at h
  exact not_lt.mp h

theorem Beyond.value_eq (h : Beyond a) (ha : a.isNaN = false) : value a = limit := by
  rcases h with h | h
  · change a.toModel.unpack.isNaN = false at ha
    rw [h] at ha
    cases ha
  · exact congrArg number h

/-! ### Sums -/

theorem value_add_mono (hc : c.isNaN = false) (ha : a.isNaN = false) (hb : b.isNaN = false)
    (hc0 : 0 ≤ value c) (ha0 : 0 ≤ value a) (h : value a ≤ value b) :
    value (c + a) ≤ value (c + b) := by
  rw [(value_add_of_nonneg hc ha hc0 ha0).2, (value_add_of_nonneg hc hb hc0 (ha0.trans h)).2]
  exact nearest_mono (by linarith)

/-! ### Quotients -/

/-- What is divided by a positive finite number keeps its place. -/
theorem value_div_mono (ha : a.isNaN = false) (hb : b.isNaN = false) (ha0 : 0 ≤ value a)
    (h : value a ≤ value b) (hc : c.isFinite = true) (hpos : 0 < value c) :
    value (a / c) ≤ value (b / c) := by
  by_cases hfinite : b.isFinite = true
  · rw [value_div (isFinite_of_value_le ha ha0 h hfinite) hc hpos.ne',
      value_div hfinite hc hpos.ne']
    exact nearest_mono (div_le_div_of_nonneg_right h hpos.le)
  · have hbeyond := beyond_of_limit_le hb (limit_le_value hb (ha0.trans h) hfinite)
    rw [(hbeyond.div (isNaN_of_isFinite hc) hpos).value_eq (isNaN_div_right hb hc hpos.ne')]
    exact value_le_limit _

theorem value_div_nonneg (ha : a.isNaN = false) (ha0 : 0 ≤ value a) (hc : c.isFinite = true)
    (hpos : 0 < value c) : 0 ≤ value (a / c) := by
  have hzero : value ((0.0 : Float) / c) = 0 := by
    rw [value_div rfl hc hpos.ne', show value (0.0 : Float) = 0 from rfl, zero_div]
    exact nearest_value (0.0 : Float)
  calc (0 : ℚ) = value ((0.0 : Float) / c) := hzero.symm
    _ ≤ value (a / c) := value_div_mono rfl ha le_rfl ha0 hc hpos

theorem value_div_of_pos (ha : a.isFinite = true) (ha0 : 0 ≤ value a) (hb : b.isNaN = false)
    (hpos : 0 < value b) : 0 ≤ value (a / b) := by
  by_cases hfinite : b.isFinite = true
  · rw [value_div ha hfinite hpos.ne']
    exact nearest_nonneg (div_nonneg ha0 hpos.le)
  · exact (value_div_of_not_isFinite ha hb hfinite).2.ge

/-- Dividing by more gives less. -/
theorem value_div_anti (ha : a.isFinite = true) (ha0 : 0 ≤ value a) (hb : b.isNaN = false)
    (hc : c.isNaN = false) (hpos : 0 < value b) (h : value b ≤ value c) :
    value (a / c) ≤ value (a / b) := by
  by_cases hfinite : c.isFinite = true
  · have hbfinite := isFinite_of_value_le hb hpos.le h hfinite
    rw [value_div ha hfinite (hpos.trans_le h).ne', value_div ha hbfinite hpos.ne']
    exact nearest_mono (div_le_div_of_nonneg_left ha0 hpos h)
  · rw [(value_div_of_not_isFinite ha hc hfinite).2]
    exact value_div_of_pos ha ha0 hb hpos

/-! ### Finite doubles -/

theorem sub_mono (ha : a.isFinite = true) (hb : b.isFinite = true) (hc : c.isFinite = true)
    (h : a ≤ b) : a - c ≤ b - c := by
  obtain ⟨hleft, hvalue⟩ := value_sub ha hc
  obtain ⟨hright, hvalue'⟩ := value_sub hb hc
  have hle := (le_iff (isNaN_of_isFinite ha) (isNaN_of_isFinite hb)).mp h
  rw [le_iff hleft hright, hvalue, hvalue']
  exact nearest_mono (by linarith)

theorem sub_anti (ha : a.isFinite = true) (hb : b.isFinite = true) (hc : c.isFinite = true)
    (h : a ≤ b) : c - b ≤ c - a := by
  obtain ⟨hleft, hvalue⟩ := value_sub hc hb
  obtain ⟨hright, hvalue'⟩ := value_sub hc ha
  have hle := (le_iff (isNaN_of_isFinite ha) (isNaN_of_isFinite hb)).mp h
  rw [le_iff hleft hright, hvalue, hvalue']
  exact nearest_mono (by linarith)

theorem div_mono (ha : a.isFinite = true) (hb : b.isFinite = true) (hc : c.isFinite = true)
    (hpos : 0 < value c) (h : a ≤ b) : a / c ≤ b / c := by
  have hleft := isNaN_div_right (isNaN_of_isFinite ha) hc hpos.ne'
  have hright := isNaN_div_right (isNaN_of_isFinite hb) hc hpos.ne'
  have hle := (le_iff (isNaN_of_isFinite ha) (isNaN_of_isFinite hb)).mp h
  rw [le_iff hleft hright, value_div ha hc hpos.ne', value_div hb hc hpos.ne']
  exact nearest_mono (div_le_div_of_nonneg_right hle hpos.le)

theorem isFinite_sub_of_le (ha : a.isFinite = true) (hb : b.isFinite = true) (h0 : 0 ≤ value a)
    (h : value a ≤ value b) : (b - a).isFinite = true ∧ 0 ≤ value (b - a)
      ∧ value (b - a) ≤ value b := by
  obtain ⟨hnumber, hvalue⟩ := value_sub hb ha
  have hnonneg : 0 ≤ value (b - a) := by
    rw [hvalue]
    exact nearest_nonneg (by linarith)
  have hle : value (b - a) ≤ value b := by
    rw [hvalue]
    exact nearest_le_value (by linarith)
  exact ⟨isFinite_of_value_le hnumber hnonneg hle hb, hnonneg, hle⟩

/-- A quotient is finite if the exact one is below a finite double. -/
theorem isFinite_div_of_le (ha : a.isFinite = true) (hb : b.isFinite = true) (hc : c.isFinite = true)
    (h0 : 0 ≤ value a) (hpos : 0 < value c) (h : value a / value c ≤ value b) :
    (a / c).isFinite = true := by
  have hnumber := isNaN_div_right (isNaN_of_isFinite ha) hc hpos.ne'
  have hle : value (a / c) ≤ value b := by
    rw [value_div ha hc hpos.ne']
    exact nearest_le_value h
  exact isFinite_of_value_le hnumber (value_div_nonneg (isNaN_of_isFinite ha) h0 hc hpos) hle hb

end BinGrade.Binary64
