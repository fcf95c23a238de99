import BinGrade.Proofs.Binary64.Order

/-!
# Accuracy of rounding

How far a rounded number is from the exact one: half a step of the grid, which is a fixed share of
the number itself, or half of the smallest step. Decimals and counts are rounded once.
-/

namespace BinGrade.Binary64

open Float.Model Float.Model.UnpackedFloat

/-! ### Steps of the grid -/

theorem abs_roundEven_sub_le (x : ℚ) : |roundEven x - x| ≤ 1 / 2 := by
  have hx := Int.floor_add_fract x
  have hlow := Int.fract_nonneg x
  have hhigh := Int.fract_lt_one x
  have hmod : (⌊x⌋ % 2 = 0 ∨ ⌊x⌋ % 2 = 1) := by omega
  unfold roundEven
  rw [abs_le]
  split_ifs with hbelow habove
  · constructor <;> linarith
  · push_cast
    constructor <;> linarith
  · have hhalf : Int.fract x = 1 / 2 := le_antisymm (not_lt.mp habove) (not_lt.mp hbelow)
    rcases hmod with h | h <;> rw [h] <;> push_cast <;> constructor <;> linarith

theorem abs_toGrid_sub_le_step (x : ℚ) : |toGrid x - x| ≤ 2 ^ gridExponent x / 2 := by
  have hstep := two_zpow_pos (gridExponent x)
  have hsplit : toGrid x - x
      = (roundEven (x / 2 ^ gridExponent x) - x / 2 ^ gridExponent x) * 2 ^ gridExponent x := by
    rw [sub_mul, div_mul_cancel₀ _ hstep.ne']
    rfl
  rw [hsplit, abs_mul, abs_of_pos hstep]
  have := mul_le_mul_of_nonneg_right (abs_roundEven_sub_le (x / 2 ^ gridExponent x)) hstep.le
  linarith

theorem two_zpow_gridExponent_mul_le {x : ℚ} (hx : x ≠ 0) (h : gridExponent x ≠ -1074) :
    (2 : ℚ) ^ gridExponent x * 2 ^ (52 : ℤ) ≤ |x| := by
  have hle := two_zpow_le_of_pos (abs_pos.mpr hx) (by rwa [gridExponent, abs_abs, ← gridExponent])
  rwa [gridExponent, abs_abs, ← gridExponent, two_zpow_add] at hle

theorem two_zpow_gridExponent_le {x : ℚ} (hx : x ≠ 0) :
    (2 : ℚ) ^ gridExponent x ≤ |x| * 2 ^ (-52 : ℤ) + 2 ^ (-1074 : ℤ) := by
  have hsmallest := two_zpow_pos (-1074)
  have hshare : 0 ≤ |x| * (2 : ℚ) ^ (-52 : ℤ) := mul_nonneg (abs_nonneg x) (two_zpow_pos _).le
  by_cases hmin : gridExponent x = -1074
  · rw [hmin]
    linarith
  have hle := two_zpow_gridExponent_mul_le hx hmin
  have hcancel : (2 : ℚ) ^ gridExponent x = 2 ^ gridExponent x * 2 ^ (52 : ℤ) * 2 ^ (-52 : ℤ) := by
    rw [mul_assoc, ← two_zpow_add]
    norm_num
  rw [hcancel]
  have := mul_le_mul_of_nonneg_right hle (two_zpow_pos (-52)).le
  linarith

/-- Half a unit in the last of 53 binary digits. -/
def unitRoundoff : ℚ := 2 ^ (-53 : ℤ)

/-- Half of the smallest step. -/
def leastRoundoff : ℚ := 2 ^ (-1075 : ℤ)

theorem abs_toGrid_sub_le (x : ℚ) : |toGrid x - x| ≤ |x| * unitRoundoff + leastRoundoff := by
  rcases eq_or_ne x 0 with rfl | hx
  · rw [toGrid_zero, sub_zero, abs_zero, zero_mul, zero_add]
    exact (two_zpow_pos _).le
  have hstep := abs_toGrid_sub_le_step x
  have hsize := two_zpow_gridExponent_le hx
  have hunit : (2 : ℚ) ^ (-52 : ℤ) = 2 * unitRoundoff := by
    rw [unitRoundoff, show (-52 : ℤ) = 1 + -53 from rfl, two_zpow_add, zpow_one]
  have hleast : (2 : ℚ) ^ (-1074 : ℤ) = 2 * leastRoundoff := by
    rw [leastRoundoff, show (-1074 : ℤ) = 1 + -1075 from rfl, two_zpow_add, zpow_one]
  rw [hunit, hleast] at hsize
  linarith

/-! ### Nearest doubles -/

theorem nearest_eq_toGrid {x : ℚ} (h : |x| ≤ limit) : nearest x = toGrid x := by
  have hlimit : toGrid limit = limit := toGrid_of_onGrid (onGrid_two_zpow (by norm_num))
  obtain ⟨hlow, hhigh⟩ := abs_le.mp h
  have hle : toGrid x ≤ limit := hlimit ▸ toGrid_mono hhigh
  have hge : -limit ≤ toGrid x := by
    have := toGrid_mono hlow
    rwa [toGrid_neg, hlimit] at this
  unfold nearest
  rw [min_eq_right hle, max_eq_right hge]

theorem abs_nearest_sub_le {x : ℚ} (h : |x| ≤ limit) :
    |nearest x - x| ≤ |x| * unitRoundoff + leastRoundoff := by
  rw [nearest_eq_toGrid h]
  exact abs_toGrid_sub_le x

theorem unitRoundoff_pos : 0 < unitRoundoff := two_zpow_pos _

theorem unitRoundoff_le_one : unitRoundoff ≤ 1 := by
  rw [unitRoundoff, ← zpow_zero (2 : ℚ)]
  exact two_zpow_le (by norm_num)

theorem leastRoundoff_pos : 0 < leastRoundoff := two_zpow_pos _

/-- Saturation only brings a number down. -/
theorem nearest_le_add {x : ℚ} (h : 0 ≤ x) : nearest x ≤ x + x * unitRoundoff + leastRoundoff := by
  have hgrid := (abs_le.mp (abs_toGrid_sub_le x)).2
  rw [abs_of_nonneg h] at hgrid
  have hpos := limit_pos
  have hleast := leastRoundoff_pos
  have hunit := mul_nonneg h unitRoundoff_pos.le
  unfold nearest
  exact max_le (by linarith) ((min_le_right _ _).trans (by linarith))

theorem toGrid_of_lt_leastRoundoff {x : ℚ} (h : 0 ≤ x) (hx : x < leastRoundoff) : toGrid x = 0 := by
  rcases h.eq_or_lt with rfl | hpos
  · exact toGrid_zero
  have hexponent : gridExponent x = -1074 := by
    unfold gridExponent
    have hlog : Int.log 2 |x| < -1075 := by
      rw [abs_of_pos hpos]
      exact (Int.lt_zpow_iff_log_lt (by norm_num : 1 < 2) hpos).mp (by exact_mod_cast hx)
    omega
  have hstep := two_zpow_pos (-1074)
  have hhalf : x / 2 ^ (-1074 : ℤ) < 1 / 2 := by
    rw [div_lt_iff₀ hstep]
    have : leastRoundoff = 1 / 2 * 2 ^ (-1074 : ℤ) := by
      rw [leastRoundoff, show (-1075 : ℤ) = -1 + -1074 from rfl, two_zpow_add]
      norm_num
    linarith
  have hfloor : ⌊x / 2 ^ (-1074 : ℤ)⌋ = 0 := by
    rw [Int.floor_eq_zero_iff]
    exact ⟨div_nonneg h hstep.le, by linarith⟩
  have hfract : Int.fract (x / 2 ^ (-1074 : ℤ)) < 1 / 2 := by
    unfold Int.fract
    rw [hfloor]
    simpa using hhalf
  unfold toGrid roundEven
  rw [hexponent, if_pos hfract, hfloor]
  simp

theorem nearest_of_lt_leastRoundoff {x : ℚ} (h : 0 ≤ x) (hx : x < leastRoundoff) : nearest x = 0 := by
  have hpos := limit_pos
  unfold nearest
  rw [toGrid_of_lt_leastRoundoff h hx, min_eq_right hpos.le, max_eq_right (by linarith)]

/-! ### Sums -/

/-- The doubles are whole multiples of the smallest step. -/
def IsMultiple (x : ℚ) : Prop := ∃ n : ℤ, x = n * 2 ^ (-1074 : ℤ)

theorem OnGrid.isMultiple {x : ℚ} (h : OnGrid x) : IsMultiple x := by
  obtain ⟨m, e, _, he, rfl⟩ := h
  obtain ⟨n, hn⟩ := exists_mul_two_zpow he
  exact ⟨m * n, by rw [hn, Int.cast_mul, mul_assoc]⟩

theorem IsMultiple.add {x y : ℚ} (hx : IsMultiple x) (hy : IsMultiple y) : IsMultiple (x + y) := by
  obtain ⟨m, rfl⟩ := hx
  obtain ⟨n, rfl⟩ := hy
  exact ⟨m + n, by rw [Int.cast_add, add_mul]⟩

/-- Where the step is the smallest one, multiples of it are not rounded at all. -/
theorem abs_toGrid_sub_le_of_isMultiple {x : ℚ} (h : IsMultiple x) :
    |toGrid x - x| ≤ |x| * unitRoundoff := by
  rcases eq_or_ne x 0 with rfl | hx
  · rw [toGrid_zero, sub_self, abs_zero, zero_mul]
  by_cases hmin : gridExponent x = -1074
  · obtain ⟨n, hn⟩ := h
    rw [toGrid_of_multiple (n := n) (by rw [hmin]; exact hn), sub_self, abs_zero]
    exact mul_nonneg (abs_nonneg x) unitRoundoff_pos.le
  · have hstep := abs_toGrid_sub_le_step x
    have hhalf : (2 : ℚ) ^ gridExponent x / 2
        = 2 ^ gridExponent x * 2 ^ (52 : ℤ) * unitRoundoff := by
      rw [unitRoundoff, mul_assoc, ← two_zpow_add]
      norm_num
      ring
    rw [hhalf] at hstep
    exact hstep.trans (mul_le_mul_of_nonneg_right (two_zpow_gridExponent_mul_le hx hmin)
      unitRoundoff_pos.le)

theorem nearest_eq_toGrid_of_lt {x : ℚ} (h : |nearest x| < limit) : nearest x = toGrid x := by
  obtain ⟨hlow, hhigh⟩ := abs_lt.mp h
  unfold nearest at hlow hhigh ⊢
  rcases le_total (toGrid x) limit with hle | hle
  · rw [min_eq_right hle] at hlow ⊢
    exact max_eq_right ((lt_max_iff.mp hlow).resolve_left (lt_irrefl _)).le
  · rw [min_eq_left hle] at hhigh
    exact absurd (lt_of_le_of_lt (le_max_right _ _) hhigh) (lt_irrefl _)

/-- A finite sum is right up to a share of itself, however small it is. -/
theorem abs_value_add_sub_le {a b : Float} (ha : a.isFinite = true) (hb : b.isFinite = true)
    (h : (a + b).isFinite = true) :
    |value (a + b) - (value a + value b)| ≤ |value a + value b| * unitRoundoff := by
  obtain ⟨hnumber, hvalue⟩ := value_add ha hb
  have hlimit := (isFinite_iff hnumber).mp h
  rw [hvalue] at hlimit
  rw [hvalue, nearest_eq_toGrid_of_lt hlimit]
  exact abs_toGrid_sub_le_of_isMultiple ((onGrid_value a).isMultiple.add (onGrid_value b).isMultiple)

/-! ### Decimals and counts -/

/-- A double that is the exact number rounded once. -/
structure Rounds (a : Float) (x : ℚ) : Prop where
  isNaN_eq : a.isNaN = false
  value_eq : value a = nearest x

theorem IsRounded.rounds {u : UnpackedFloat} {x : ℚ} (h : IsRounded u x) :
    Rounds (.ofModel (.pack u)) x :=
  ⟨h.isNumber.isNaN_pack, h.value_eq⟩

theorem rounds_ofUInt64 (n : UInt64) : Rounds n.toFloat n.toNat := by
  have h := (isRounded_normalize (n.toNat : ℤ) 0 .positive).rounds
  rw [zpow_zero, mul_one, Int.cast_natCast] at h
  exact h

theorem isRounded_exact (s : Sign) {m : ℕ} (e : ℤ) (hm : 2 ^ 52 ≤ m) :
    IsRounded (roundWithAccuracy Format.binary64 s m e .exact) (signed s (m * 2 ^ e)) := by
  have hpos : 0 < m := by omega
  refine isRounded_roundWithAccuracy s (magnitude_pos hpos _) (stands_exact_div _ _) (.inl hpos) ?_
  have hpow : (2 : ℚ) ^ (52 + e) ≤ m * 2 ^ e := by
    rw [two_zpow_add]
    exact mul_le_mul_of_nonneg_right (by exact_mod_cast hm) (two_zpow_pos _).le
  have := le_gridExponent (magnitude_pos hpos _) hpow
  omega

theorem value_powerOfTen : ∀ e : Fin 23,
    (Float.exactlyRepresentablePowersOfTen.getD e 0).isFinite = true
      ∧ value (Float.exactlyRepresentablePowersOfTen.getD e 0) = 10 ^ (e : ℕ) := by
  decide +kernel

theorem onGrid_natCast {n : ℕ} (h : n ≤ 2 ^ 53) : OnGrid n := by
  refine ⟨n, 0, ?_, by norm_num, by simp⟩
  rw [abs_of_nonneg (Int.natCast_nonneg n)]
  exact_mod_cast h

theorem natCast_lt_limit {n : ℕ} (h : n ≤ 2 ^ 53) : |(n : ℚ)| < limit := by
  have hle : (n : ℚ) ≤ 2 ^ (53 : ℤ) := by exact_mod_cast h
  rw [abs_of_nonneg (Nat.cast_nonneg n)]
  exact lt_of_le_of_lt hle (zpow_lt_zpow_right₀ (by norm_num) (by norm_num))

/-- Up to 53 binary digits a count is exact. -/
theorem value_toUInt64 {n : ℕ} (h : n ≤ 2 ^ 53) :
    n.toUInt64.toFloat.isFinite = true ∧ value n.toUInt64.toFloat = n := by
  have hrounds := rounds_ofUInt64 n.toUInt64
  have hn : n.toUInt64.toNat = n := by
    rw [Nat.toUInt64_eq, UInt64.toNat_ofNat', Nat.mod_eq_of_lt (by omega)]
  rw [hn] at hrounds
  have hvalue : value n.toUInt64.toFloat = n := by
    rw [hrounds.value_eq, nearest_of_onGrid (onGrid_natCast h) (natCast_lt_limit h).le]
  refine ⟨(isFinite_iff hrounds.isNaN_eq).mpr ?_, hvalue⟩
  rw [hvalue]
  exact natCast_lt_limit h

theorem limit_le_ten_pow {k : ℕ} (h : 2048 < k) : limit ≤ (10 : ℚ) ^ k := by
  have hbase : (2 : ℚ) ^ k ≤ 10 ^ k := pow_le_pow_left₀ (by norm_num) (by norm_num) k
  refine le_trans ?_ hbase
  rw [limit, ← zpow_natCast]
  exact two_zpow_le (by omega)

theorem div_ten_pow_lt {m k : ℕ} (h : 2048 + m.log2 < k) : (m / 10 ^ k : ℚ) < leastRoundoff := by
  have hm : (m : ℚ) < 2 ^ (m.log2 + 1) := by exact_mod_cast Nat.lt_log2_self
  have hten : (0 : ℚ) < 10 ^ k := by positivity
  have hbase : (2 : ℚ) ^ k ≤ 10 ^ k := pow_le_pow_left₀ (by norm_num) (by norm_num) k
  rw [div_lt_iff₀ hten]
  calc (m : ℚ) < 2 ^ (m.log2 + 1) := hm
    _ ≤ 2 ^ ((-1075 : ℤ) + k) := by
        rw [← zpow_natCast]
        exact two_zpow_le (by omega)
    _ = leastRoundoff * 2 ^ k := by rw [two_zpow_add, zpow_natCast, leastRoundoff]
    _ ≤ leastRoundoff * 10 ^ k := mul_le_mul_of_nonneg_left hbase leastRoundoff_pos.le

theorem rounds_zero {x : ℚ} (h : 0 ≤ x) (hx : x < leastRoundoff) :
    Rounds (.ofModel (.pack (.zero .positive))) x :=
  ⟨rfl, (nearest_of_lt_leastRoundoff h hx).symm⟩

theorem rounds_infinity {x : ℚ} (h : limit ≤ x) :
    Rounds (.ofModel (.pack (.infinity .positive))) x :=
  ⟨rfl, by rw [nearest_of_limit_le h]; rfl⟩

/-- A power of ten beyond the guard overflows or vanishes anyway. -/
theorem rounds_ofScientific_model (m : ℕ) (e : ℤ) :
    Rounds (.ofModel (.ofScientific m e)) (m * 10 ^ e) := by
  unfold Float.Model.ofScientific UnpackedFloat.ofScientific
  split_ifs with hzero hhigh hlow hnonneg
  · subst hzero
    exact rounds_zero (by simp) (by simpa using leastRoundoff_pos)
  · have hpos : 2048 < e := hhigh
    obtain ⟨k, rfl⟩ := Int.eq_ofNat_of_zero_le (by omega : 0 ≤ e)
    have hk : 2048 < k := by exact_mod_cast hpos
    have hm : (1 : ℚ) ≤ m := by exact_mod_cast Nat.pos_of_ne_zero hzero
    refine rounds_infinity ?_
    rw [zpow_natCast]
    exact (limit_le_ten_pow hk).trans (le_mul_of_one_le_left (by positivity) hm)
  · have hneg : e < -(2048 + m.log2 : ℤ) := hlow
    obtain ⟨k, rfl⟩ := Int.eq_negSucc_of_lt_zero (by omega : e < 0)
    have hk : 2048 + m.log2 < k + 1 := by omega
    rw [zpow_negSucc, ← div_eq_mul_inv]
    exact rounds_zero (by positivity) (div_ten_pow_lt hk)
  · obtain ⟨k, rfl⟩ := Int.eq_ofNat_of_zero_le hnonneg
    have hpos : 0 < m := Nat.pos_of_ne_zero hzero
    have hlarge : 2 ^ 52 ≤ (m <<< Format.binary64.mantissaBits) * 10 ^ (k : ℤ).toNat := by
      rw [Nat.shiftLeft_eq]
      have hbits : (2 ^ 52 : ℕ) ≤ 2 ^ Format.binary64.mantissaBits := by decide
      have hten : 0 < 10 ^ (k : ℤ).toNat := by positivity
      calc 2 ^ 52 ≤ 2 ^ Format.binary64.mantissaBits := hbits
        _ ≤ m * 2 ^ Format.binary64.mantissaBits := Nat.le_mul_of_pos_left _ hpos
        _ ≤ m * 2 ^ Format.binary64.mantissaBits * 10 ^ (k : ℤ).toNat :=
          Nat.le_mul_of_pos_right _ hten
    have hrounded := (isRounded_exact .positive (-Format.binary64.mantissaBits + 0) hlarge).rounds
    have hexact : signed .positive (((m <<< Format.binary64.mantissaBits) * 10 ^ (k : ℤ).toNat : ℕ)
        * 2 ^ (-(Format.binary64.mantissaBits : ℤ) + 0)) = (m * 10 ^ (k : ℤ) : ℚ) := by
      rw [Nat.shiftLeft_eq, Int.toNat_natCast, zpow_natCast, add_zero, zpow_neg, zpow_natCast]
      unfold signed
      push_cast
      field_simp
    rw [hexact] at hrounded
    exact hrounded
  · obtain ⟨k, rfl⟩ := Int.eq_negSucc_of_lt_zero (not_le.mp hnonneg)
    have hpos : 0 < m := Nat.pos_of_ne_zero hzero
    have hten : 0 < 10 ^ (-Int.negSucc k).toNat := by positivity
    have hrounded := (isRounded_div_finite .positive hpos hten 0 0).rounds
    have hexact : signed .positive ((m * 2 ^ (0 : ℤ)) / ((10 ^ (-Int.negSucc k).toNat : ℕ) * 2 ^ (0 : ℤ)))
        = (m * 10 ^ Int.negSucc k : ℚ) := by
      rw [zpow_negSucc, ← div_eq_mul_inv, zpow_zero, mul_one, mul_one, Int.neg_negSucc]
      unfold signed
      push_cast
      rfl
    rw [hexact] at hrounded
    exact hrounded

theorem rounds_ofScientific (m : ℕ) (s : Bool) (e : ℕ) :
    Rounds (Float.ofScientific m s e) (m * 10 ^ (if s then -(e : ℤ) else e)) := by
  unfold Float.ofScientific
  split
  · next hfast =>
    obtain ⟨hfinite, hvalue⟩ := value_toUInt64 hfast.1.le
    obtain ⟨hpower, hten⟩ := value_powerOfTen ⟨e, by omega⟩
    dsimp only at hpower hten ⊢
    rw [Array.getElem_eq_getD (0 : Float)]
    cases s with
    | true =>
      have hne : value (Float.exactlyRepresentablePowersOfTen.getD e 0) ≠ 0 := by
        rw [hten]
        positivity
      refine ⟨isNaN_div_right (isNaN_of_isFinite hfinite) hpower hne, ?_⟩
      rw [if_pos rfl, value_div hfinite hpower hne, hvalue, hten, if_pos rfl, zpow_neg,
        zpow_natCast, div_eq_mul_inv]
    | false =>
      obtain ⟨hnumber, hproduct⟩ := value_mul hfinite hpower
      refine ⟨hnumber, ?_⟩
      rw [if_neg Bool.false_ne_true, hproduct, hvalue, hten, if_neg Bool.false_ne_true,
        zpow_natCast]
  · cases s with
    | true =>
      have h := rounds_ofScientific_model m (Int.negOfNat e)
      rwa [Int.negOfNat_eq] at h
    | false => exact rounds_ofScientific_model m (Int.ofNat e)

theorem rounds_ofNat (n : ℕ) : Rounds (Float.ofNat n) n := by
  have h := rounds_ofScientific n false 0
  simp only [Bool.false_eq_true, if_false, Nat.cast_zero, zpow_zero, mul_one] at h
  exact h

theorem value_ofNat {n : ℕ} (h : n ≤ 2 ^ 53) :
    (Float.ofNat n).isFinite = true ∧ value (Float.ofNat n) = n := by
  have hrounds := rounds_ofNat n
  have hvalue : value (Float.ofNat n) = n := by
    rw [hrounds.value_eq, nearest_of_onGrid (onGrid_natCast h) (natCast_lt_limit h).le]
  refine ⟨(isFinite_iff hrounds.isNaN_eq).mpr ?_, hvalue⟩
  rw [hvalue]
  exact natCast_lt_limit h

theorem value_whole {n : ℕ} (h : n ≤ 2 ^ 53) : value (Float.ofScientific (10 * n) true 1) = n := by
  have htenth : ((10 * n : ℕ) * 10 ^ (if true then -((1 : ℕ) : ℤ) else (1 : ℕ)) : ℚ) = n := by
    push_cast
    norm_num
    ring
  rw [(rounds_ofScientific (10 * n) true 1).value_eq, htenth]
  exact nearest_of_onGrid (onGrid_natCast h) (natCast_lt_limit h).le

theorem value_one : value (1.0 : Float) = 1 := (value_whole (n := 1) (by norm_num)).trans Nat.cast_one

theorem value_two : value (2.0 : Float) = 2 := value_whole (n := 2) (by norm_num)

theorem value_three : value (3.0 : Float) = 3 := value_whole (n := 3) (by norm_num)

end BinGrade.Binary64
