import BinGrade.Proofs.Binary64.Monotone

/-!
# Missing numbers

Where differences, products and quotients give no number: a difference does for two infinities of one
sign, a quotient for two zeros and for two infinities, and all do if a part is no number already.
-/

namespace BinGrade.Binary64

open Float.Model Float.Model.UnpackedFloat

variable {a b : Float}

theorem isNaN_add_left (h : a.isNaN = true) (b : Float) : (a + b).isNaN = true :=
  isNaN_pack (isNaN_add_of_left h)

theorem isNaN_add_right (a : Float) (h : b.isNaN = true) : (a + b).isNaN = true :=
  isNaN_pack (isNaN_add_of_right h)

theorem isNaN_mul_right (a : Float) (h : b.isNaN = true) : (a * b).isNaN = true := by
  have hunpacked : (UnpackedFloat.mul Format.binary64 a.toModel.unpack b.toModel.unpack).isNaN
      = true := by
    change b.toModel.unpack.isNaN = true at h
    cases hb : b.toModel.unpack with
    | notANumber => cases a.toModel.unpack <;> rfl
    | _ =>
      rw [hb] at h
      cases h
  exact isNaN_pack hunpacked

/-! ### Quotients -/

theorem isNaN_zero_div_zero (ha : a.isFinite = true) (ha0 : value a = 0) (hb : b.isFinite = true)
    (hb0 : value b = 0) : (a / b).isNaN = true := by
  obtain ⟨s, hs⟩ := exists_unpack_eq_zero ha ha0
  obtain ⟨t, ht⟩ := exists_unpack_eq_zero hb hb0
  change (Float.Model.pack (UnpackedFloat.div _ a.toModel.unpack b.toModel.unpack)).unpack.isNaN = true
  rw [hs, ht]
  exact isNaN_pack rfl

theorem isNaN_div_of_not_isFinite (ha : a.isFinite = false) (hb : b.isFinite = false) :
    (a / b).isNaN = true := by
  change (Float.Model.pack (UnpackedFloat.div _ a.toModel.unpack b.toModel.unpack)).unpack.isNaN = true
  rcases unpack_of_not_isFinite ha with hu | ⟨s, hu⟩ <;>
    rcases unpack_of_not_isFinite hb with hv | ⟨t, hv⟩ <;> rw [hu, hv] <;>
    exact isNaN_pack rfl

/-- Of a part that is finite and a total that is positive there is always a quotient. -/
theorem isNaN_div_of_pos (ha : a.isFinite = true) (hb : b.isNaN = false) (hpos : 0 < value b) :
    (a / b).isNaN = false := by
  by_cases hfinite : b.isFinite = true
  · exact isNaN_div_right (isNaN_of_isFinite ha) hfinite hpos.ne'
  · exact isNaN_of_isFinite (value_div_of_not_isFinite ha hb hfinite).1

/-! ### Differences -/

theorem isFinite_of_isFinite_sub (h : (b - a).isFinite = true) :
    b.isFinite = true ∧ a.isFinite = true := by
  have hb : b.isFinite = true := by
    by_contra hnot
    have hlost : (b - a).isFinite = false := by
      refine not_isFinite_pack ?_
      rcases unpack_of_not_isFinite (Bool.eq_false_iff.mpr hnot) with hu | ⟨s, hu⟩ <;> rw [hu]
      · cases a.toModel.unpack <;> rfl
      · cases a.toModel.unpack with
        | infinity t => cases s <;> cases t <;> rfl
        | _ => cases s <;> rfl
    rw [hlost] at h
    cases h
  refine ⟨hb, ?_⟩
  by_contra hnot
  rw [not_isFinite_sub hb (Bool.eq_false_iff.mpr hnot)] at h
  cases h

/-- If the larger one is infinite it is positive, and if the smaller one is it is negative. -/
theorem unpack_sub_of_infinite (ha : a.isNaN = false) (hb : b.isNaN = false) (h : value a < value b)
    (hinfinite : ¬(b.isFinite = true ∧ a.isFinite = true)) :
    (b - a).toModel.unpack = .infinity .positive := by
  have hlow := neg_le_of_abs_le (abs_value_le a)
  have hhigh := le_of_abs_le (abs_value_le b)
  have hpositive {t : Sign} (ht : b.toModel.unpack = .infinity t) : t = .positive := by
    cases t with
    | positive => rfl
    | negative =>
      have hvalue : value b = number (.infinity .negative) := congrArg number ht
      rw [number, signed] at hvalue
      linarith
  have hnegative {s : Sign} (hs : a.toModel.unpack = .infinity s) : s = .negative := by
    cases s with
    | negative => rfl
    | positive =>
      have hvalue : value a = number (.infinity .positive) := congrArg number hs
      rw [number_infinity] at hvalue
      linarith
  have hsub : UnpackedFloat.sub Format.binary64 b.toModel.unpack a.toModel.unpack
      = .infinity .positive := by
    rcases isFinite_or_infinity ha with hfinite | ⟨s, hs⟩
    · obtain ⟨t, ht⟩ := (isFinite_or_infinity hb).resolve_left fun hb => hinfinite ⟨hb, hfinite⟩
      rw [ht, hpositive ht]
      cases hu : a.toModel.unpack with
      | zero s => rfl
      | finite s m e hm => rfl
      | _ =>
        rw [hu] at hfinite
        cases hfinite
    · rw [hs, hnegative hs]
      change b.toModel.unpack.isNaN = false at hb
      cases hu : b.toModel.unpack with
      | infinity t =>
        rw [hpositive hu]
        rfl
      | zero t => rfl
      | finite t m e hm => rfl
      | notANumber =>
        rw [hu] at hb
        cases hb
  change (Float.Model.pack (UnpackedFloat.sub _ b.toModel.unpack a.toModel.unpack)).unpack = _
  rw [hsub]
  exact unpack_packedInfinity .positive

theorem sub_of_lt (h : a < b) : (b - a).isNaN = false ∧ 0 ≤ value (b - a) := by
  obtain ⟨ha, hb⟩ := isNaN_of_lt h
  have hlt := (lt_iff ha hb).mp h
  by_cases hfinite : b.isFinite = true ∧ a.isFinite = true
  · obtain ⟨hnumber, hvalue⟩ := value_sub hfinite.1 hfinite.2
    refine ⟨hnumber, ?_⟩
    rw [hvalue]
    exact nearest_nonneg (by linarith)
  · have hinfinite := unpack_sub_of_infinite ha hb hlt hfinite
    refine ⟨congrArg UnpackedFloat.isNaN hinfinite, ?_⟩
    exact (congrArg number hinfinite).ge.trans' limit_pos.le

end BinGrade.Binary64
