import Mathlib.Data.Int.Log
import Mathlib.Data.Rat.Floor
import Mathlib.Tactic.Linarith
import Mathlib.Tactic.Ring

/-!
# The grid of double precision

Rounding as a function of exact numbers. Around a number the grid of doubles has a fixed step, a
power of two that leaves 53 binary digits and is never below the smallest one. A number goes to the
nearest multiple of the step, and from the middle to the even one. The whole map is monotone, and it
leaves every number on the grid where it is.
-/

namespace BinGrade.Binary64

/-! ### Whole numbers -/

/-- The nearest whole number, from the middle to the even one. -/
def roundEven (x : ℚ) : ℤ :=
  if Int.fract x < 1 / 2 then ⌊x⌋
  else if 1 / 2 < Int.fract x then ⌊x⌋ + 1
  else ⌊x⌋ + ⌊x⌋ % 2

theorem floor_le_roundEven (x : ℚ) : ⌊x⌋ ≤ roundEven x := by
  unfold roundEven
  split
  · exact le_refl _
  split <;> omega

theorem roundEven_le_floor_add_one (x : ℚ) : roundEven x ≤ ⌊x⌋ + 1 := by
  unfold roundEven
  split
  · omega
  split <;> omega

theorem roundEven_intCast (n : ℤ) : roundEven n = n := by
  have hfract : Int.fract (n : ℚ) < 1 / 2 := by
    rw [Int.fract_intCast]
    norm_num
  unfold roundEven
  rw [if_pos hfract, Int.floor_intCast]

theorem roundEven_mono {x y : ℚ} (h : x ≤ y) : roundEven x ≤ roundEven y := by
  rcases lt_or_eq_of_le (Int.floor_mono h) with hlt | heq
  · have hx := roundEven_le_floor_add_one x
    have hy := floor_le_roundEven y
    omega
  · -- in one unit step, only the distance from the floor decides
    have hfract : Int.fract x ≤ Int.fract y := by
      unfold Int.fract
      rw [heq]
      linarith
    unfold roundEven
    rw [heq]
    split_ifs
    all_goals first | omega | (exfalso; linarith)

theorem roundEven_neg (x : ℚ) : roundEven (-x) = -roundEven x := by
  rcases eq_or_ne (Int.fract x) 0 with hzero | hne
  · obtain ⟨n, rfl⟩ := Int.fract_eq_zero_iff.mp hzero
    rw [← Int.cast_neg, roundEven_intCast, roundEven_intCast]
  · have hfract : Int.fract (-x) = 1 - Int.fract x := Int.fract_neg hne
    have hfloor : ⌊-x⌋ = -⌊x⌋ - 1 := by
      have hx := Int.floor_add_fract x
      have hn := Int.floor_add_fract (-x)
      have hcast : ((⌊-x⌋ : ℤ) : ℚ) = ((-⌊x⌋ - 1 : ℤ) : ℚ) := by
        push_cast
        linarith
      exact_mod_cast hcast
    unfold roundEven
    rw [hfract, hfloor]
    split_ifs
    all_goals first | omega | (exfalso; linarith)

/-! ### Steps -/

theorem two_zpow_pos (k : ℤ) : (0 : ℚ) < 2 ^ k := zpow_pos (by norm_num) k

theorem two_zpow_le {d e : ℤ} (h : d ≤ e) : (2 : ℚ) ^ d ≤ 2 ^ e :=
  zpow_le_zpow_right₀ (by norm_num) h

theorem two_zpow_add (d e : ℤ) : (2 : ℚ) ^ (d + e) = 2 ^ d * 2 ^ e := zpow_add₀ (by norm_num) d e

/-- The exponent of the step around a number. -/
def gridExponent (x : ℚ) : ℤ := max (Int.log 2 |x| - 52) (-1074)

/-- The nearest point of the grid. -/
def toGrid (x : ℚ) : ℚ := roundEven (x / 2 ^ gridExponent x) * 2 ^ gridExponent x

theorem gridExponent_neg (x : ℚ) : gridExponent (-x) = gridExponent x := by
  unfold gridExponent
  rw [abs_neg]

theorem toGrid_neg (x : ℚ) : toGrid (-x) = -toGrid x := by
  unfold toGrid
  rw [gridExponent_neg, neg_div, roundEven_neg, Int.cast_neg, neg_mul]

theorem gridExponent_mono {x y : ℚ} (hx : 0 < x) (h : x ≤ y) :
    gridExponent x ≤ gridExponent y := by
  have hlog : Int.log 2 |x| ≤ Int.log 2 |y| := by
    rw [abs_of_pos hx, abs_of_pos (lt_of_lt_of_le hx h)]
    exact Int.log_mono_right hx h
  unfold gridExponent
  omega

theorem lt_two_zpow_of_pos {x : ℚ} (hx : 0 < x) : x < 2 ^ (gridExponent x + 53) := by
  have hlog : x < 2 ^ (Int.log 2 x + 1) := by
    exact_mod_cast Int.lt_zpow_succ_log_self (R := ℚ) (by norm_num : 1 < 2) x
  refine lt_of_lt_of_le hlog (two_zpow_le ?_)
  unfold gridExponent
  rw [abs_of_pos hx]
  omega

theorem two_zpow_le_of_pos {x : ℚ} (hx : 0 < x) (h : gridExponent x ≠ -1074) :
    2 ^ (gridExponent x + 52) ≤ x := by
  have hlog : (2 : ℚ) ^ Int.log 2 x ≤ x := by
    exact_mod_cast Int.zpow_log_le_self (R := ℚ) (by norm_num : 1 < 2) hx
  have hexp : gridExponent x + 52 = Int.log 2 x := by
    unfold gridExponent at h ⊢
    rw [abs_of_pos hx] at h ⊢
    omega
  rw [hexp]
  exact hlog

theorem toGrid_le_of_le {x : ℚ} {n : ℤ} (h : x ≤ n * 2 ^ gridExponent x) :
    toGrid x ≤ n * 2 ^ gridExponent x := by
  have hstep := two_zpow_pos (gridExponent x)
  have hround := roundEven_mono ((div_le_iff₀ hstep).mpr h)
  rw [roundEven_intCast] at hround
  exact mul_le_mul_of_nonneg_right (Int.cast_le.mpr hround) hstep.le

theorem le_toGrid_of_le {x : ℚ} {n : ℤ} (h : n * 2 ^ gridExponent x ≤ x) :
    n * 2 ^ gridExponent x ≤ toGrid x := by
  have hstep := two_zpow_pos (gridExponent x)
  have hround := roundEven_mono ((le_div_iff₀ hstep).mpr h)
  rw [roundEven_intCast] at hround
  exact mul_le_mul_of_nonneg_right (Int.cast_le.mpr hround) hstep.le

/-- A power of two is a multiple of every smaller one. -/
theorem exists_mul_two_zpow {e k : ℤ} (h : e ≤ k) : ∃ n : ℤ, (2 : ℚ) ^ k = n * 2 ^ e := by
  refine ⟨2 ^ (k - e).toNat, ?_⟩
  have hk : k = ((k - e).toNat : ℤ) + e := by omega
  nth_rewrite 1 [hk]
  rw [two_zpow_add, zpow_natCast]
  push_cast
  rfl

theorem toGrid_nonneg {x : ℚ} (h : 0 ≤ x) : 0 ≤ toGrid x := by
  have h0 : ((0 : ℤ) : ℚ) * 2 ^ gridExponent x ≤ x := by simpa using h
  simpa using le_toGrid_of_le h0

theorem toGrid_mono_of_pos {x y : ℚ} (hx : 0 < x) (h : x ≤ y) : toGrid x ≤ toGrid y := by
  have hy : 0 < y := lt_of_lt_of_le hx h
  rcases lt_or_eq_of_le (gridExponent_mono hx h) with hlt | heq
  · -- the steps differ, so a power of two lies between the numbers, and it is on both grids
    have hne : gridExponent y ≠ -1074 := by
      have hlow : -1074 ≤ gridExponent x := le_max_right _ _
      omega
    have hmid : x ≤ 2 ^ (gridExponent y + 52) := by
      refine (lt_two_zpow_of_pos hx).le.trans (two_zpow_le ?_)
      omega
    have hmid' := two_zpow_le_of_pos hy hne
    obtain ⟨n, hn⟩ := exists_mul_two_zpow (e := gridExponent x) (k := gridExponent y + 52)
      (by omega)
    obtain ⟨n', hn'⟩ := exists_mul_two_zpow (e := gridExponent y) (k := gridExponent y + 52)
      (by omega)
    calc toGrid x ≤ n * 2 ^ gridExponent x := toGrid_le_of_le (hn ▸ hmid)
      _ = n' * 2 ^ gridExponent y := by rw [← hn, hn']
      _ ≤ toGrid y := le_toGrid_of_le (hn' ▸ hmid')
  · have hstep := two_zpow_pos (gridExponent y)
    unfold toGrid
    rw [heq]
    refine mul_le_mul_of_nonneg_right (Int.cast_le.mpr (roundEven_mono ?_)) hstep.le
    exact div_le_div_of_nonneg_right h hstep.le

theorem toGrid_mono {x y : ℚ} (h : x ≤ y) : toGrid x ≤ toGrid y := by
  rcases lt_or_ge 0 x with hx | hx
  · exact toGrid_mono_of_pos hx h
  have hx' : toGrid x ≤ 0 := by
    have hnonneg := toGrid_nonneg (neg_nonneg.mpr hx)
    rw [toGrid_neg] at hnonneg
    linarith
  rcases lt_or_ge y 0 with hy | hy
  · have hneg := toGrid_mono_of_pos (neg_pos.mpr hy) (neg_le_neg h)
    rw [toGrid_neg, toGrid_neg] at hneg
    linarith
  · exact hx'.trans (toGrid_nonneg hy)

/-- At its point of the grid a positive number has at most 53 digits, and not less unless the step is
the smallest one. -/
theorem exists_toGrid_eq {x : ℚ} (hx : 0 < x) :
    ∃ n : ℕ, (n : ℤ) = roundEven (x / 2 ^ gridExponent x) ∧ toGrid x = n * 2 ^ gridExponent x
      ∧ n ≤ 2 ^ 53 ∧ (2 ^ 52 ≤ n ∨ gridExponent x = -1074) := by
  have hstep := two_zpow_pos (gridExponent x)
  have hnonneg : 0 ≤ roundEven (x / 2 ^ gridExponent x) :=
    (Int.floor_nonneg.mpr (div_nonneg hx.le hstep.le)).trans (floor_le_roundEven _)
  obtain ⟨n, hn⟩ := Int.eq_ofNat_of_zero_le hnonneg
  have hgrid : toGrid x = n * 2 ^ gridExponent x := by
    unfold toGrid
    rw [hn]
    push_cast
    rfl
  refine ⟨n, hn.symm, hgrid, ?_, ?_⟩
  · have hle : x ≤ ((2 ^ 53 : ℤ) : ℚ) * 2 ^ gridExponent x := by
      have := lt_two_zpow_of_pos hx
      rw [add_comm, two_zpow_add] at this
      exact_mod_cast this.le
    have := toGrid_le_of_le hle
    rw [hgrid] at this
    exact_mod_cast le_of_mul_le_mul_right this hstep
  · by_cases hmin : gridExponent x = -1074
    · exact .inr hmin
    have hle : ((2 ^ 52 : ℤ) : ℚ) * 2 ^ gridExponent x ≤ x := by
      have := two_zpow_le_of_pos hx hmin
      rw [add_comm, two_zpow_add] at this
      exact_mod_cast this
    have := le_toGrid_of_le hle
    rw [hgrid] at this
    exact .inl (by exact_mod_cast le_of_mul_le_mul_right this hstep)

/-! ### Points -/

/-- The points of the grid. -/
def OnGrid (x : ℚ) : Prop := ∃ m e : ℤ, |m| ≤ 2 ^ 53 ∧ -1074 ≤ e ∧ x = m * 2 ^ e

theorem OnGrid.neg {x : ℚ} (h : OnGrid x) : OnGrid (-x) := by
  obtain ⟨m, e, hm, he, rfl⟩ := h
  exact ⟨-m, e, by rwa [abs_neg], he, by push_cast; ring⟩

theorem onGrid_two_zpow {e : ℤ} (h : -1074 ≤ e) : OnGrid (2 ^ e) :=
  ⟨1, e, by norm_num, h, by norm_num⟩

theorem toGrid_of_multiple {x : ℚ} {n : ℤ} (h : x = n * 2 ^ gridExponent x) : toGrid x = x := by
  have hle := toGrid_le_of_le h.le
  have hge := le_toGrid_of_le h.ge
  rw [← h] at hle hge
  exact le_antisymm hle hge

theorem toGrid_of_onGrid {x : ℚ} (h : OnGrid x) : toGrid x = x := by
  wlog hpos : 0 < x generalizing x with hneg
  · rcases lt_or_eq_of_le (not_lt.mp hpos) with hlt | rfl
    · have := hneg h.neg (neg_pos.mpr hlt)
      rw [toGrid_neg] at this
      linarith
    · exact toGrid_of_multiple (n := 0) (by norm_num)
  obtain ⟨m, e, hm, he, hx⟩ := h
  have hstep := two_zpow_pos e
  have hm' : (m : ℚ) ≤ 2 ^ 53 := by exact_mod_cast (le_abs_self m).trans hm
  rcases lt_or_eq_of_le hm' with hlt | heq
  · -- with less than 54 digits the step is not beyond the exponent
    have hexp : gridExponent x ≤ e := by
      have hup : x < 2 ^ (e + 53) := by
        rw [hx, two_zpow_add, mul_comm]
        exact mul_lt_mul_of_pos_left (by exact_mod_cast hlt) hstep
      have hlog : Int.log 2 x < e + 53 :=
        (Int.lt_zpow_iff_log_lt (by norm_num : 1 < 2) hpos).mp (by exact_mod_cast hup)
      unfold gridExponent
      rw [abs_of_pos hpos]
      omega
    obtain ⟨n, hn⟩ := exists_mul_two_zpow hexp
    exact toGrid_of_multiple (n := m * n) (by rw [Int.cast_mul, mul_assoc, ← hn]; exact hx)
  · have hx' : x = 2 ^ (e + 53) := by
      rw [hx, heq, two_zpow_add, mul_comm]
      norm_num
    have hexp : gridExponent x ≤ e + 53 := by
      have hlog : Int.log 2 x = e + 53 := by
        rw [hx']
        exact_mod_cast Int.log_zpow (R := ℚ) (by norm_num : 1 < 2) (e + 53)
      unfold gridExponent
      rw [abs_of_pos hpos, hlog]
      omega
    obtain ⟨n, hn⟩ := exists_mul_two_zpow hexp
    exact toGrid_of_multiple (n := n) (hx'.trans hn)

/-! ### Range -/

/-- Where the numbers of double precision end. -/
def limit : ℚ := 2 ^ (1024 : ℤ)

/-- The nearest double, where infinities stand at the end of the range. -/
def nearest (x : ℚ) : ℚ := max (-limit) (min limit (toGrid x))

theorem limit_pos : 0 < limit := two_zpow_pos _

theorem nearest_mono {x y : ℚ} (h : x ≤ y) : nearest x ≤ nearest y :=
  max_le_max le_rfl (min_le_min le_rfl (toGrid_mono h))

theorem nearest_le_limit (x : ℚ) : nearest x ≤ limit :=
  max_le (by linarith [limit_pos]) (min_le_left _ _)

theorem nearest_of_onGrid {x : ℚ} (h : OnGrid x) (hx : |x| ≤ limit) : nearest x = x := by
  unfold nearest
  rw [toGrid_of_onGrid h, min_eq_right (le_of_abs_le hx), max_eq_right (neg_le_of_abs_le hx)]

theorem nearest_nonneg {x : ℚ} (h : 0 ≤ x) : 0 ≤ nearest x :=
  le_max_of_le_right (le_min limit_pos.le (toGrid_nonneg h))

theorem one_lt_limit : 1 < limit :=
  one_lt_zpow₀ (by norm_num) (by norm_num)

theorem nearest_one : nearest 1 = 1 := by
  refine nearest_of_onGrid ⟨1, 0, by norm_num, by norm_num, by norm_num⟩ ?_
  rw [abs_one]
  exact one_lt_limit.le

theorem nearest_of_limit_le {x : ℚ} (h : limit ≤ x) : nearest x = limit := by
  have hlimit : nearest limit = limit :=
    nearest_of_onGrid (onGrid_two_zpow (by norm_num)) (abs_of_pos limit_pos).le
  exact le_antisymm (nearest_le_limit x) (hlimit.symm.trans_le (nearest_mono h))

end BinGrade.Binary64
