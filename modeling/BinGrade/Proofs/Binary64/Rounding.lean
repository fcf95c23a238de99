import Mathlib
import BinGrade.Proofs.Binary64.Grid

/-!
# Rounding of mantissas

Double precision arithmetic is carried out on mantissas with two residual bits. Such a mantissa
stands for an exact number as far as rounding needs to know it, shifting it halves the number, and
rounding it goes to the nearest whole number. So every rounded result is the point of the grid that
is nearest to the exact one, written with the exponent that the format asks for.
-/

namespace BinGrade.Binary64

open Float.Model Float.Model.UnpackedFloat

/-! ### Residual bits -/

/-- An extended mantissa stands for a number: below the round bit less than one unit remains, and
the sticky bit tells whether anything does. -/
def Stands (em : ExtendedMantissa) (y : ℚ) : Prop :=
  ∃ rest : ℚ, 0 ≤ rest ∧ rest < 1 ∧ (em.stickyBit = false ↔ rest = 0)
    ∧ 2 * y = 2 * em.mantissa + em.roundBit.toNat + rest

theorem stands_exact (m : ℕ) : Stands (.ofMantissaAndAccuracy m .exact) m :=
  ⟨0, le_rfl, one_pos, by simp [ExtendedMantissa.ofMantissaAndAccuracy],
    by simp [ExtendedMantissa.ofMantissaAndAccuracy]⟩

theorem stands_fraction (m : ℕ) {num den : ℕ} (h : num < den) :
    Stands (.ofMantissaAndAccuracy m (accuracyOfFraction num den)) (m + num / den) := by
  have hden : (0 : ℚ) < den := by exact_mod_cast lt_of_le_of_lt (Nat.zero_le _) h
  unfold accuracyOfFraction
  split
  · rename_i hzero
    have := stands_exact m
    simpa [hzero] using this
  · rename_i hne
    have hpos : (0 : ℚ) < num := by exact_mod_cast Nat.pos_of_ne_zero hne
    have hnum : (num : ℚ) < den := by exact_mod_cast h
    cases hcmp : compare (2 * num) den with
    | lt =>
      have hlt : (2 * num : ℚ) < den := by exact_mod_cast compare_lt_iff_lt.mp hcmp
      refine ⟨2 * (num / den), by positivity, ?_, ?_, ?_⟩
      · rw [mul_div_assoc', div_lt_one hden]
        exact hlt
      · have : (2 * (num / den) : ℚ) ≠ 0 := by positivity
        simp [ExtendedMantissa.ofMantissaAndAccuracy, this]
      · simp only [ExtendedMantissa.ofMantissaAndAccuracy, Bool.toNat_false, Nat.cast_zero]
        ring
    | eq =>
      have heq : (2 * num : ℚ) = den := by exact_mod_cast compare_eq_iff_eq.mp hcmp
      refine ⟨0, le_rfl, one_pos, by simp [ExtendedMantissa.ofMantissaAndAccuracy], ?_⟩
      have hhalf : 2 * (num / den : ℚ) = 1 := by rw [mul_div_assoc', heq, div_self hden.ne']
      simp only [ExtendedMantissa.ofMantissaAndAccuracy, Bool.toNat_true, Nat.cast_one]
      linarith
    | gt =>
      have hgt : (den : ℚ) < 2 * num := by exact_mod_cast compare_gt_iff_gt.mp hcmp
      have hhalf : 1 < 2 * (num / den : ℚ) := by rwa [mul_div_assoc', one_lt_div hden]
      have hone : (num / den : ℚ) < 1 := (div_lt_one hden).mpr hnum
      refine ⟨2 * (num / den) - 1, by linarith, by linarith, ?_, ?_⟩
      · have : (2 * (num / den) - 1 : ℚ) ≠ 0 := by linarith
        simp [ExtendedMantissa.ofMantissaAndAccuracy, this]
      · simp only [ExtendedMantissa.ofMantissaAndAccuracy, Bool.toNat_true, Nat.cast_one]
        ring

theorem roundBit_bounds (em : ExtendedMantissa) :
    (0 : ℚ) ≤ em.roundBit.toNat ∧ (em.roundBit.toNat : ℚ) ≤ 1 := by
  cases em.roundBit <;> norm_num

theorem Stands.shiftRightOne {em : ExtendedMantissa} {y : ℚ} (h : Stands em y) :
    Stands em.shiftRightOne (y / 2) := by
  obtain ⟨rest, hlow, hhigh, hsticky, hy⟩ := h
  have hdiv : (em.mantissa : ℚ) = 2 * (em.mantissa / 2 : ℕ) + (em.mantissa % 2 : ℕ) := by
    exact_mod_cast (Nat.div_add_mod em.mantissa 2).symm
  have hbit : (em.mantissa % 2 : ℕ) = (em.mantissa % 2 != 0).toNat := by
    rcases Nat.mod_two_eq_zero_or_one em.mantissa with h0 | h1
    · rw [h0]
      rfl
    · rw [h1]
      rfl
  have hround := roundBit_bounds em
  refine ⟨(em.roundBit.toNat + rest) / 2, by linarith [hround.1], by linarith [hround.2], ?_, ?_⟩
  · cases hr : em.roundBit with
    | false => simp [ExtendedMantissa.shiftRightOne, hr, hsticky]
    | true =>
      have : (1 + rest) / 2 ≠ 0 := by linarith
      simpa [ExtendedMantissa.shiftRightOne, hr] using this
  · simp only [ExtendedMantissa.shiftRightOne, ← hbit]
    linarith

theorem Stands.shiftRight {em : ExtendedMantissa} {y : ℚ} (h : Stands em y) (n : ℕ) :
    Stands (em >>> n) (y / 2 ^ n) := by
  induction n with
  | zero => simpa [HShiftRight.hShiftRight, Nat.repeat] using h
  | succ n ih =>
    rw [pow_succ, ← div_div]
    exact ih.shiftRightOne

theorem Stands.floor_fract {em : ExtendedMantissa} {y : ℚ} (h : Stands em y) :
    ⌊y⌋ = em.mantissa ∧ ∃ rest : ℚ, 0 ≤ rest ∧ rest < 1 ∧ (em.stickyBit = false ↔ rest = 0)
      ∧ 2 * Int.fract y = em.roundBit.toNat + rest := by
  obtain ⟨rest, hlow, hhigh, hsticky, hy⟩ := h
  have hround := roundBit_bounds em
  have hfloor : ⌊y⌋ = em.mantissa := by
    rw [Int.floor_eq_iff]
    push_cast
    constructor <;> linarith [hround.1, hround.2]
  refine ⟨hfloor, rest, hlow, hhigh, hsticky, ?_⟩
  unfold Int.fract
  rw [hfloor]
  push_cast
  linarith

theorem Stands.roundedMantissa {em : ExtendedMantissa} {y : ℚ} (h : Stands em y) :
    (em.roundedMantissa : ℤ) = roundEven y := by
  obtain ⟨hfloor, rest, hlow, hhigh, hsticky, hfract⟩ := h.floor_fract
  unfold roundEven
  rw [hfloor]
  obtain ⟨m, roundBit, stickyBit⟩ := em
  cases roundBit <;> cases stickyBit <;>
    simp only [ExtendedMantissa.roundedMantissa, ExtendedMantissa.accuracy,
      Accuracy.roundToNearestEven, Bool.toNat_false, Bool.toNat_true, Nat.cast_zero,
      Nat.cast_one, true_iff, Bool.true_eq_false, false_iff] at hfract hsticky ⊢
  · rw [if_pos (by linarith)]
  · rw [if_pos (by linarith)]
  · rw [if_neg (by linarith), if_neg (by linarith)]
    push_cast
    rfl
  · have hpos : 0 < rest := lt_of_le_of_ne hlow (Ne.symm hsticky)
    rw [if_neg (by linarith), if_pos (by linarith)]
    push_cast
    rfl

/-! ### Exponents -/

theorem targetExponent_binary64 (t : ℤ) :
    Format.binary64.targetExponent t = max (t - 53) (-1074) := rfl

theorem mantissa_ofMantissaAndAccuracy (m : ℕ) (acc : Accuracy) :
    (ExtendedMantissa.ofMantissaAndAccuracy m acc).mantissa = m := by
  rcases acc with _ | (_ | _ | _) <;> rfl

theorem log2_add_eq_log {m : ℕ} {e : ℤ} {x : ℚ} (hx : 0 < x) (hm : 0 < m)
    (hfloor : ⌊x / 2 ^ e⌋ = m) : (m.log2 : ℤ) + e = Int.log 2 x := by
  have hstep := two_zpow_pos e
  obtain ⟨hle, hlt⟩ := Int.floor_eq_iff.mp hfloor
  rw [le_div_iff₀ hstep] at hle
  rw [div_lt_iff₀ hstep] at hlt
  have hlow : (2 : ℚ) ^ ((m.log2 : ℤ) + e) ≤ x := by
    have hpow : (2 : ℚ) ^ m.log2 ≤ m := by exact_mod_cast Nat.log2_self_le hm.ne'
    rw [two_zpow_add, zpow_natCast]
    exact (mul_le_mul_of_nonneg_right hpow hstep.le).trans (by exact_mod_cast hle)
  have hhigh : x < (2 : ℚ) ^ ((m.log2 : ℤ) + e + 1) := by
    have hpow : (m : ℚ) + 1 ≤ 2 ^ (m.log2 + 1) := by exact_mod_cast Nat.lt_log2_self (n := m)
    have hexp : (m.log2 : ℤ) + e + 1 = ((m.log2 + 1 : ℕ) : ℤ) + e := by push_cast; ring
    rw [hexp, two_zpow_add, zpow_natCast]
    exact lt_of_lt_of_le (by exact_mod_cast hlt) (mul_le_mul_of_nonneg_right hpow hstep.le)
  have h₁ := (Int.zpow_le_iff_le_log (by norm_num : 1 < 2) hx).mp (by exact_mod_cast hlow)
  have h₂ := (Int.lt_zpow_iff_log_lt (by norm_num : 1 < 2) hx).mp (by exact_mod_cast hhigh)
  omega

/-- The exponent that the format asks for is that of the step around the exact number. A mantissa
without digits is allowed where the smallest step is asked for anyway. -/
theorem targetExponent_eq_gridExponent {m : ℕ} {e : ℤ} {x : ℚ} (hx : 0 < x)
    (hfloor : ⌊x / 2 ^ e⌋ = m) (hm : 0 < m ∨ e ≤ -1074) :
    Format.binary64.targetExponent (totalExponent m e) = gridExponent x := by
  rw [targetExponent_binary64]
  unfold totalExponent gridExponent
  rw [abs_of_pos hx]
  rcases Nat.eq_zero_or_pos m with rfl | hpos
  · have he : e ≤ -1074 := by omega
    have hlt : x < 2 ^ e := by
      have := (Int.floor_eq_iff.mp hfloor).2
      rw [div_lt_iff₀ (two_zpow_pos _)] at this
      simpa using this
    have hlog := (Int.lt_zpow_iff_log_lt (by norm_num : 1 < 2) hx).mp (by exact_mod_cast hlt)
    simp only [Nat.log2_zero, Nat.cast_zero]
    omega
  · have := log2_add_eq_log hx hpos hfloor
    omega

theorem shiftToTargetExponent_binary64 (m : ℕ) (e : ℤ) (acc : Accuracy) :
    shiftToTargetExponent Format.binary64 m e acc
      = (ExtendedMantissa.ofMantissaAndAccuracy m acc
            >>> (Format.binary64.targetExponent (totalExponent m e) - e).toNat,
          e + (Format.binary64.targetExponent (totalExponent m e) - e).toNat) := rfl

theorem shiftToTargetExponent_of_lt {n : ℕ} {e : ℤ} (hn : n < 2 ^ 53) (he : -1074 ≤ e) :
    shiftToTargetExponent Format.binary64 n e .exact = (⟨n, false, false⟩, e) := by
  have hlog : n.log2 ≤ 52 := by
    rcases Nat.eq_zero_or_pos n with rfl | hpos
    · simp
    · exact Nat.lt_succ_iff.mp ((Nat.log2_lt hpos.ne').mpr hn)
  have hshift : (max ((n.log2 : ℤ) + 1 + e - 53) (-1074) - e).toNat = 0 := by omega
  rw [shiftToTargetExponent_binary64, targetExponent_binary64, totalExponent, hshift]
  simp [ExtendedMantissa.ofMantissaAndAccuracy, HShiftRight.hShiftRight, Nat.repeat]

theorem shiftToTargetExponent_of_eq {e : ℤ} (he : -1074 ≤ e) :
    shiftToTargetExponent Format.binary64 (2 ^ 53) e .exact
      = (⟨2 ^ 52, false, false⟩, e + 1) := by
  have hshift : (max (((2 ^ 53 : ℕ).log2 : ℤ) + 1 + e - 53) (-1074) - e).toNat = 1 := by
    rw [Nat.log2_two_pow]
    omega
  rw [shiftToTargetExponent_binary64, targetExponent_binary64, totalExponent, hshift]
  simp [ExtendedMantissa.ofMantissaAndAccuracy, HShiftRight.hShiftRight, Nat.repeat,
    ExtendedMantissa.shiftRightOne]

/-! ### Rounded results -/

/-- The number of a sign and a magnitude. -/
def signed : Sign → ℚ → ℚ
  | .negative, x => -x
  | .positive, x => x

/-- The number of an unpacked double. Infinities stand at the end of the range, and what is no
number at zero. -/
def number : UnpackedFloat → ℚ
  | .infinity s => signed s limit
  | .finite s m e _ => signed s (m * 2 ^ e)
  | .zero _ => 0
  | .notANumber => 0

/-- Written with the exponent that the format asks for. -/
def Canonical : UnpackedFloat → Prop
  | .finite _ m e _ => m < 2 ^ 53 ∧ -1074 ≤ e ∧ (2 ^ 52 ≤ m ∨ e = -1074)
  | _ => True

/-- An unpacked double is the exact number brought to the grid. -/
structure IsRounded (u : UnpackedFloat) (x : ℚ) : Prop where
  canonical : Canonical u
  finite : u.isFinite = true
  number_eq : number u = toGrid x

theorem toGrid_signed (s : Sign) (x : ℚ) : toGrid (signed s x) = signed s (toGrid x) := by
  cases s with
  | negative => exact toGrid_neg x
  | positive => rfl

/-- The first shift brings the mantissa to the step, where it is rounded. The second one is for a
carry. -/
theorem roundWithAccuracy_eq (s : Sign) {m n : ℕ} {e : ℤ} {acc : Accuracy} {x : ℚ} (hx : 0 < x)
    (hstands : Stands (.ofMantissaAndAccuracy m acc) (x / 2 ^ e)) (hm : 0 < m ∨ e ≤ -1074)
    (he : e ≤ gridExponent x) (hn : (n : ℤ) = roundEven (x / 2 ^ gridExponent x)) :
    roundWithAccuracy Format.binary64 s m e acc
      = let (em, e') := shiftToTargetExponent Format.binary64 n (gridExponent x) .exact
        if h : em.mantissa = 0 then .zero s
        else .finite s em.mantissa e' (Nat.pos_of_ne_zero h) := by
  have hfloor : ⌊x / 2 ^ e⌋ = m := by
    rw [hstands.floor_fract.1, mantissa_ofMantissaAndAccuracy]
  have hexp : e + ((gridExponent x - e).toNat : ℤ) = gridExponent x := by omega
  have hround := (hstands.shiftRight (gridExponent x - e).toNat).roundedMantissa
  rw [div_div, ← zpow_natCast, ← two_zpow_add, hexp, ← hn, Nat.cast_inj] at hround
  unfold roundWithAccuracy
  simp only [shiftToTargetExponent_binary64 m e acc,
    targetExponent_eq_gridExponent hx hfloor hm, hexp, hround]

theorem isRounded_roundWithAccuracy (s : Sign) {m : ℕ} {e : ℤ} {acc : Accuracy} {x : ℚ}
    (hx : 0 < x) (hstands : Stands (.ofMantissaAndAccuracy m acc) (x / 2 ^ e))
    (hm : 0 < m ∨ e ≤ -1074) (he : e ≤ gridExponent x) :
    IsRounded (roundWithAccuracy Format.binary64 s m e acc) (signed s x) := by
  obtain ⟨n, hn, hgrid, hupper, hlower⟩ := exists_toGrid_eq hx
  have hlow : -1074 ≤ gridExponent x := le_max_right _ _
  rw [roundWithAccuracy_eq s hx hstands hm he hn]
  rcases lt_or_eq_of_le hupper with hlt | rfl
  · rw [shiftToTargetExponent_of_lt hlt hlow]
    dsimp only
    split
    · rename_i hzero
      refine ⟨trivial, rfl, ?_⟩
      rw [toGrid_signed, hgrid, hzero, Nat.cast_zero, zero_mul]
      cases s <;> simp [number, signed]
    · refine ⟨⟨hlt, hlow, hlower⟩, rfl, ?_⟩
      rw [toGrid_signed, hgrid]
      rfl
  · -- the mantissa has one digit too many, all but the first zero
    rw [shiftToTargetExponent_of_eq hlow]
    dsimp only
    refine ⟨⟨by norm_num, by omega, Or.inl le_rfl⟩, rfl, ?_⟩
    rw [toGrid_signed, hgrid]
    have hcarry : ((2 ^ 52 : ℕ) : ℚ) * 2 ^ (gridExponent x + 1)
        = ((2 ^ 53 : ℕ) : ℚ) * 2 ^ gridExponent x := by
      rw [two_zpow_add]
      push_cast
      ring
    exact congrArg (signed s) hcarry

theorem magnitude_pos {m : ℕ} (h : 0 < m) (e : ℤ) : (0 : ℚ) < m * 2 ^ e :=
  mul_pos (by exact_mod_cast h) (two_zpow_pos _)

theorem floor_exact (m : ℕ) (e : ℤ) : ⌊(m * 2 ^ e : ℚ) / 2 ^ e⌋ = m := by
  rw [mul_div_cancel_right₀ _ (zpow_ne_zero e (by norm_num)), Int.floor_natCast]

theorem stands_exact_div (m : ℕ) (e : ℤ) :
    Stands (.ofMantissaAndAccuracy m .exact) ((m * 2 ^ e : ℚ) / 2 ^ e) := by
  rw [mul_div_cancel_right₀ _ (zpow_ne_zero e (by norm_num))]
  exact stands_exact m

theorem isRounded_round (s : Sign) {m : ℕ} (e : ℤ) (hm : 0 < m) :
    IsRounded (UnpackedFloat.round Format.binary64 s m e) (signed s (m * 2 ^ e)) := by
  have hx := magnitude_pos hm e
  generalize hk : (e - gridExponent (m * 2 ^ e)).toNat = k
  have hround : UnpackedFloat.round Format.binary64 s m e
      = roundWithAccuracy Format.binary64 s (m <<< k) (e - k) .exact := by
    unfold UnpackedFloat.round decreaseExponent
    simp only [targetExponent_eq_gridExponent hx (floor_exact m e) (.inl hm), hk]
  -- the shift to the left moves digits from the exponent into the mantissa
  have hsame : ((m <<< k : ℕ) * 2 ^ (e - (k : ℤ)) : ℚ) = m * 2 ^ e := by
    rw [Nat.shiftLeft_eq, zpow_sub₀ (by norm_num), zpow_natCast]
    push_cast
    field_simp
  have hstands := stands_exact_div (m <<< k) (e - k)
  rw [hsame] at hstands
  rw [hround]
  refine isRounded_roundWithAccuracy s hx hstands (.inl ?_) (by omega)
  rw [Nat.shiftLeft_eq]
  positivity

theorem toGrid_zero : toGrid 0 = 0 :=
  toGrid_of_multiple (n := 0) (by norm_num)

theorem isRounded_normalize (m e : ℤ) (zeroSign : Sign) :
    IsRounded (UnpackedFloat.normalize Format.binary64 m e zeroSign) (m * 2 ^ e) := by
  unfold UnpackedFloat.normalize
  cases hcmp : compare m 0 with
  | lt =>
    have hlt : m < 0 := compare_lt_iff_lt.mp hcmp
    have hcast : (m * 2 ^ e : ℚ) = signed .negative ((-m).toNat * 2 ^ e) := by
      have : (((-m).toNat : ℤ) : ℚ) = -m := by
        rw [Int.toNat_of_nonneg (by omega)]
        push_cast
        rfl
      rw [Int.cast_natCast] at this
      rw [this]
      simp [signed]
    rw [hcast]
    exact isRounded_round .negative e (by omega)
  | eq =>
    have heq : m = 0 := compare_eq_iff_eq.mp hcmp
    refine ⟨trivial, rfl, ?_⟩
    rw [heq, Int.cast_zero, zero_mul, toGrid_zero]
    rfl
  | gt =>
    have hgt : 0 < m := compare_gt_iff_gt.mp hcmp
    have hcast : (m * 2 ^ e : ℚ) = signed .positive (m.toNat * 2 ^ e) := by
      have : ((m.toNat : ℤ) : ℚ) = m := by rw [Int.toNat_of_nonneg hgt.le]
      rw [Int.cast_natCast] at this
      rw [this]
      rfl
    rw [hcast]
    exact isRounded_round .positive e (by omega)

end BinGrade.Binary64
