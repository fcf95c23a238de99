import BinGrade.Proofs.Binary64.Monotone

/-!
# Square roots

A square root is rounded from the whole root of a mantissa of which only the nearer half is known. So
it is the rounding of a rational number that stands for the root, and this number grows with the
radicand: within one step of the root the mantissas decide, and beyond it the steps do.
-/

namespace BinGrade.Binary64

open Float.Model Float.Model.UnpackedFloat

/-! ### Whole roots -/

/-- A number in the same half unit as the square root of a whole number, and a whole one only if the
root is whole. -/
def wholeRoot (n : ℕ) : ℚ :=
  n.sqrt + if n - n.sqrt * n.sqrt = 0 then 0
    else if n - n.sqrt * n.sqrt ≤ n.sqrt then 1 / 4 else 3 / 4

theorem wholeRoot_bounds (n : ℕ) : (n.sqrt : ℚ) ≤ wholeRoot n ∧ wholeRoot n < n.sqrt + 1 := by
  unfold wholeRoot
  split_ifs <;> norm_num

theorem wholeRoot_mono {m n : ℕ} (h : m ≤ n) : wholeRoot m ≤ wholeRoot n := by
  rcases (Nat.sqrt_le_sqrt h).lt_or_eq with hlt | heq
  · have hunit : (m.sqrt : ℚ) + 1 ≤ n.sqrt := by exact_mod_cast hlt
    linarith [(wholeRoot_bounds m).2, (wholeRoot_bounds n).1]
  · have hrest : m - m.sqrt * m.sqrt ≤ n - n.sqrt * n.sqrt := by
      rw [heq]
      omega
    unfold wholeRoot
    rw [heq] at hrest ⊢
    split_ifs
    all_goals first | omega | norm_num

theorem stands_wholeRoot (n : ℕ) :
    Stands (.ofMantissaAndAccuracy n.sqrt
      (if n - n.sqrt * n.sqrt = 0 then .exact
        else .inexact (if n - n.sqrt * n.sqrt ≤ n.sqrt then .lt else .gt))) (wholeRoot n) := by
  unfold wholeRoot
  split_ifs
  · simpa using stands_exact n.sqrt
  · refine ⟨1 / 2, by norm_num, by norm_num, by simp [ExtendedMantissa.ofMantissaAndAccuracy], ?_⟩
    simp only [ExtendedMantissa.ofMantissaAndAccuracy, Bool.toNat_false, Nat.cast_zero]
    ring
  · refine ⟨1 / 2, by norm_num, by norm_num, by simp [ExtendedMantissa.ofMantissaAndAccuracy], ?_⟩
    simp only [ExtendedMantissa.ofMantissaAndAccuracy, Bool.toNat_true, Nat.cast_one]
    ring

/-! ### Roots of exact numbers -/

/-- The exponent at which the square root of a number has 53 binary digits before the point. -/
def rootExponent (x : ℚ) : ℤ := Int.log 2 x / 2 - 52

/-- The mantissa that the root is taken of. -/
def radicand (x : ℚ) : ℕ := ⌊x / 2 ^ (2 * rootExponent x)⌋₊

/-- A number that is rounded like the square root. -/
def squareRoot (x : ℚ) : ℚ := wholeRoot (radicand x) * 2 ^ rootExponent x

variable {x y : ℚ}

theorem squareRoot_zero : squareRoot 0 = 0 := by
  simp [squareRoot, radicand, wholeRoot]

theorem radicand_bounds (hx : 0 < x) : 2 ^ 104 ≤ radicand x ∧ radicand x < 2 ^ 106 := by
  have hstep := two_zpow_pos (2 * rootExponent x)
  have hlow : (2 : ℚ) ^ Int.log 2 x ≤ x := by
    exact_mod_cast Int.zpow_log_le_self (R := ℚ) (by norm_num : 1 < 2) hx
  have hhigh : x < 2 ^ (Int.log 2 x + 1) := by
    exact_mod_cast Int.lt_zpow_succ_log_self (R := ℚ) (by norm_num : 1 < 2) x
  refine ⟨Nat.le_floor ?_, (Nat.floor_lt (div_nonneg hx.le hstep.le)).mpr ?_⟩
  · rw [Nat.cast_pow, Nat.cast_ofNat, ← zpow_natCast, le_div_iff₀ hstep, ← two_zpow_add]
    refine (two_zpow_le ?_).trans hlow
    unfold rootExponent
    omega
  · rw [Nat.cast_pow, Nat.cast_ofNat, ← zpow_natCast, div_lt_iff₀ hstep, ← two_zpow_add]
    refine hhigh.trans_le (two_zpow_le ?_)
    unfold rootExponent
    omega

theorem sqrt_radicand_bounds (hx : 0 < x) :
    2 ^ 52 ≤ (radicand x).sqrt ∧ (radicand x).sqrt + 1 ≤ 2 ^ 53 := by
  obtain ⟨hlow, hhigh⟩ := radicand_bounds hx
  refine ⟨Nat.le_sqrt.mpr ?_, Nat.sqrt_lt.mpr ?_⟩
  · rwa [← pow_add]
  · rwa [← pow_add]

theorem squareRoot_bounds (hx : 0 < x) : 2 ^ (52 + rootExponent x) ≤ squareRoot x
    ∧ squareRoot x < 2 ^ (53 + rootExponent x) := by
  have hstep := two_zpow_pos (rootExponent x)
  obtain ⟨hlow, hhigh⟩ := sqrt_radicand_bounds hx
  obtain ⟨hroot, hroot'⟩ := wholeRoot_bounds (radicand x)
  have hlow' : (2 : ℚ) ^ (52 : ℤ) ≤ (radicand x).sqrt := by exact_mod_cast hlow
  have hhigh' : ((radicand x).sqrt : ℚ) + 1 ≤ 2 ^ (53 : ℤ) := by exact_mod_cast hhigh
  rw [two_zpow_add, two_zpow_add]
  exact ⟨mul_le_mul_of_nonneg_right (hlow'.trans hroot) hstep.le,
    mul_lt_mul_of_pos_right (hroot'.trans_le hhigh') hstep⟩

theorem squareRoot_pos (hx : 0 < x) : 0 < squareRoot x :=
  (two_zpow_pos _).trans_le (squareRoot_bounds hx).1

theorem squareRoot_mono_of_pos (hx : 0 < x) (h : x ≤ y) : squareRoot x ≤ squareRoot y := by
  have hlog : Int.log 2 x ≤ Int.log 2 y := Int.log_mono_right hx h
  have hexponent : rootExponent x ≤ rootExponent y := by
    unfold rootExponent
    omega
  rcases hexponent.lt_or_eq with hlt | heq
  · -- a power of two lies between the roots
    calc squareRoot x ≤ 2 ^ (53 + rootExponent x) := (squareRoot_bounds hx).2.le
      _ ≤ 2 ^ (52 + rootExponent y) := two_zpow_le (by omega)
      _ ≤ squareRoot y := (squareRoot_bounds (hx.trans_le h)).1
  · have hstep := two_zpow_pos (2 * rootExponent y)
    unfold squareRoot radicand
    rw [heq]
    refine mul_le_mul_of_nonneg_right (wholeRoot_mono (Nat.floor_mono ?_)) (two_zpow_pos _).le
    exact div_le_div_of_nonneg_right h hstep.le

theorem squareRoot_nonneg (hx : 0 ≤ x) : 0 ≤ squareRoot x := by
  rcases hx.eq_or_lt with rfl | hpos
  · exact squareRoot_zero.ge
  · exact (squareRoot_pos hpos).le

theorem squareRoot_mono (hx : 0 ≤ x) (h : x ≤ y) : squareRoot x ≤ squareRoot y := by
  rcases hx.eq_or_lt with rfl | hpos
  · rw [squareRoot_zero]
    exact squareRoot_nonneg h
  · exact squareRoot_mono_of_pos hpos h

/-! ### Roots of doubles -/

theorem sqrtCore_eq {m : ℕ} {e : ℤ} (hm : 0 < m) (hdigits : m < 2 ^ 53) (he : -1074 ≤ e) :
    sqrtCore Format.binary64 m e = let n := radicand (m * 2 ^ e)
      (n.sqrt, rootExponent (m * 2 ^ e), if n - n.sqrt * n.sqrt = 0 then .exact
        else .inexact (if n - n.sqrt * n.sqrt ≤ n.sqrt then .lt else .gt)) := by
  have hlog := log2_add_eq_log (magnitude_pos hm e) hm (floor_exact m e)
  have hlog2 : m.log2 < 53 := (Nat.log2_lt hm.ne').mpr hdigits
  have htarget : min (e.ediv 2) (Format.binary64.targetExponent ((totalExponent m e + 1).ediv 2))
      = rootExponent (m * 2 ^ e) := by
    change min (e / 2) (Format.binary64.targetExponent ((totalExponent m e + 1) / 2)) = _
    rw [targetExponent_binary64]
    unfold totalExponent rootExponent
    omega
  have hshift : m <<< (e - 2 * rootExponent (m * 2 ^ e)).toNat = radicand (m * 2 ^ e) := by
    have hle : 2 * rootExponent (m * 2 ^ e) ≤ e := by
      unfold rootExponent
      omega
    unfold radicand
    generalize 2 * rootExponent (m * 2 ^ e) = d at hle
    have he' : e = ((e - d).toNat : ℤ) + d := by omega
    have hexact : (m * 2 ^ e : ℚ) / 2 ^ d = (m <<< (e - d).toNat : ℕ) := by
      rw [div_eq_iff (two_zpow_pos d).ne', Nat.shiftLeft_eq]
      nth_rewrite 1 [he']
      rw [two_zpow_add, zpow_natCast]
      push_cast
      ring
    rw [hexact, Nat.floor_natCast]
  unfold sqrtCore
  simp only [htarget, hshift]

theorem isRounded_sqrt {m : ℕ} {e : ℤ} (hm : 0 < m) (hdigits : m < 2 ^ 53) (he : -1074 ≤ e) :
    IsRounded (UnpackedFloat.sqrt Format.binary64 (.finite .positive m e hm))
      (squareRoot (m * 2 ^ e)) := by
  have hx := magnitude_pos hm e
  have hroot := (sqrt_radicand_bounds hx).1
  have hgrid : rootExponent (m * 2 ^ e) ≤ gridExponent (squareRoot (m * 2 ^ e)) := by
    have := le_gridExponent (squareRoot_pos hx) (squareRoot_bounds hx).1
    omega
  have hstands := stands_wholeRoot (radicand (m * 2 ^ e))
  have hscaled : wholeRoot (radicand (m * 2 ^ e))
      = squareRoot (m * 2 ^ e) / 2 ^ rootExponent (m * 2 ^ e) :=
    (mul_div_cancel_right₀ _ (two_zpow_pos _).ne').symm
  rw [hscaled] at hstands
  unfold UnpackedFloat.sqrt
  simp only [sqrtCore_eq hm hdigits he]
  exact isRounded_roundWithAccuracy .positive (squareRoot_pos hx) hstands (.inl (by omega)) hgrid

variable {a b : Float}

theorem rounds_sqrt (ha : a.isFinite = true) (h0 : 0 ≤ value a) :
    Rounds a.sqrt (squareRoot (value a)) := by
  change Rounds (.ofModel (.pack (UnpackedFloat.sqrt Format.binary64 a.toModel.unpack)))
    (squareRoot (number a.toModel.unpack))
  have hformat := inFormat_unpack a.toModel.toBits.toBitVec
  change InFormat a.toModel.unpack at hformat
  change a.toModel.unpack.isFinite = true at ha
  change 0 ≤ number a.toModel.unpack at h0
  cases hu : a.toModel.unpack with
  | infinity s =>
    rw [hu] at ha
    cases ha
  | notANumber =>
    rw [hu] at ha
    cases ha
  | zero s =>
    have hzero : squareRoot (number (.zero s)) = 0 := squareRoot_zero
    rw [hzero]
    exact (isRounded_self (u := .zero s) trivial rfl).rounds
  | finite s m e hm =>
    rw [hu] at hformat h0
    obtain ⟨hdigits, he, _⟩ := hformat.canonical
    cases s with
    | negative => exact absurd h0 (neg_neg_of_pos (magnitude_pos hm e)).not_ge
    | positive => exact (isRounded_sqrt hm hdigits he).rounds

theorem isNaN_sqrt (ha : a.isNaN = false) (h0 : 0 ≤ value a) : a.sqrt.isNaN = false := by
  by_cases hfinite : a.isFinite = true
  · exact (rounds_sqrt hfinite h0).isNaN_eq
  · rcases beyond_of_limit_le ha (limit_le_value ha h0 hfinite) with hu | hu
    · change a.toModel.unpack.isNaN = false at ha
      rw [hu] at ha
      cases ha
    · change (Float.Model.pack (UnpackedFloat.sqrt _ a.toModel.unpack)).unpack.isNaN = false
      rw [hu]
      rfl

theorem value_sqrt_nonneg (ha : a.isNaN = false) (h0 : 0 ≤ value a) : 0 ≤ value a.sqrt := by
  by_cases hfinite : a.isFinite = true
  · rw [(rounds_sqrt hfinite h0).value_eq]
    exact nearest_nonneg (squareRoot_nonneg h0)
  · have hbeyond := beyond_of_limit_le ha (limit_le_value ha h0 hfinite)
    rw [hbeyond.sqrt.value_eq (isNaN_sqrt ha h0)]
    exact limit_pos.le

theorem value_sqrt_mono (ha : a.isNaN = false) (hb : b.isNaN = false) (h0 : 0 ≤ value a)
    (h : value a ≤ value b) : value a.sqrt ≤ value b.sqrt := by
  by_cases hfinite : b.isFinite = true
  · rw [(rounds_sqrt (isFinite_of_value_le ha h0 h hfinite) h0).value_eq,
      (rounds_sqrt hfinite (h0.trans h)).value_eq]
    exact nearest_mono (squareRoot_mono h0 h)
  · have hbeyond := beyond_of_limit_le hb (limit_le_value hb (h0.trans h) hfinite)
    rw [hbeyond.sqrt.value_eq (isNaN_sqrt hb (h0.trans h))]
    exact value_le_limit _

end BinGrade.Binary64
