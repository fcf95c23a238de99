import BinGrade.Proofs.Binary64.Arithmetic
import BinGrade.Proofs.Scalar.Order

/-!
# The order of doubles

Comparisons of doubles are those of their values. The sort key of a pattern goes up with the value:
without the sign bit, the fields of exponent and mantissa count the magnitude in order, and under a
set sign bit the key runs the other way. Rounding is monotone, so sums and products keep the order
up to equality.
-/

namespace BinGrade.Binary64

open Float.Model Float.Model.UnpackedFloat

/-! ### Comparisons -/

theorem isNaN_of_compare {u v : UnpackedFloat} {o : Ordering} (h : u.compare v = some o) :
    u.isNaN = false ∧ v.isNaN = false := by
  cases u with
  | notANumber => cases h
  | _ =>
    refine ⟨rfl, ?_⟩
    cases v with
    | notANumber => cases h
    | _ => rfl

theorem isNaN_of_le {a b : Float} (h : a ≤ b) : a.isNaN = false ∧ b.isNaN = false := by
  change decide (a.toModel.unpack.le b.toModel.unpack = true) = true at h
  rw [decide_eq_true_iff, UnpackedFloat.le, Option.any_eq_true] at h
  obtain ⟨o, hcompare, _⟩ := h
  exact isNaN_of_compare hcompare

theorem isNaN_of_lt {a b : Float} (h : a < b) : a.isNaN = false ∧ b.isNaN = false := by
  change decide (a.toModel.unpack.lt b.toModel.unpack = true) = true at h
  rw [decide_eq_true_iff, UnpackedFloat.lt, beq_iff_eq] at h
  exact isNaN_of_compare h

theorem beq_iff {a b : Float} (ha : a.isNaN = false) (hb : b.isNaN = false) :
    (a == b) = true ↔ value a = value b := by
  change (a.toModel.unpack.beq b.toModel.unpack) = true ↔ _
  rw [UnpackedFloat.beq, compare_unpack ha hb, beq_iff_eq, Option.some.injEq, compare_eq_iff_eq]

theorem isNaN_of_beq {a b : Float} (h : (a == b) = true) : a.isNaN = false ∧ b.isNaN = false := by
  change (a.toModel.unpack.beq b.toModel.unpack) = true at h
  rw [UnpackedFloat.beq, beq_iff_eq] at h
  exact isNaN_of_compare h

/-! ### Bit patterns -/

/-- The magnitude of a pattern without its sign bit, counted in the smallest steps. -/
def magnitude (n : ℕ) : ℕ :=
  if n / 2 ^ 52 = 0 then n % 2 ^ 52 else (2 ^ 52 + n % 2 ^ 52) * 2 ^ (n / 2 ^ 52 - 1)

theorem magnitude_lt_succ (n : ℕ) : magnitude n < magnitude (n + 1) := by
  unfold magnitude
  have hsplit := Nat.div_add_mod n (2 ^ 52)
  have hmod := Nat.mod_lt n (show 0 < 2 ^ 52 by norm_num)
  generalize n / 2 ^ 52 = e at *
  generalize n % 2 ^ 52 = m at *
  subst hsplit
  by_cases hcarry : m + 1 < 2 ^ 52
  · have hdiv : (2 ^ 52 * e + m + 1) / 2 ^ 52 = e := by omega
    have hrest : (2 ^ 52 * e + m + 1) % 2 ^ 52 = m + 1 := by omega
    rw [hdiv, hrest]
    split
    · omega
    · exact Nat.mul_lt_mul_of_pos_right (by omega) (Nat.two_pow_pos _)
  · have hdiv : (2 ^ 52 * e + m + 1) / 2 ^ 52 = e + 1 := by omega
    have hrest : (2 ^ 52 * e + m + 1) % 2 ^ 52 = 0 := by omega
    rw [hdiv, hrest, if_neg (Nat.succ_ne_zero e), Nat.add_sub_cancel, Nat.add_zero]
    split
    · next hzero =>
      subst hzero
      omega
    · next hpos =>
      obtain ⟨k, rfl⟩ := Nat.exists_eq_succ_of_ne_zero hpos
      have hdouble : 2 ^ 52 * 2 ^ (k + 1) = (2 ^ 52 + 2 ^ 52) * 2 ^ k := by ring
      rw [Nat.succ_eq_add_one, Nat.add_sub_cancel, hdouble]
      exact Nat.mul_lt_mul_of_pos_right (by omega) (Nat.two_pow_pos _)

theorem magnitude_strictMono : StrictMono magnitude :=
  strictMono_nat_of_lt_succ magnitude_lt_succ

theorem toNat_unpackMantissa (bits : BitVec Format.binary64.numBits) :
    (unpackMantissa bits).toNat = bits.toNat % 2 ^ 63 % 2 ^ 52 := by
  have hmantissa : (unpackMantissa bits).toNat = bits.toNat % 2 ^ 52 := by
    simp [unpackMantissa, Format.binary64]
  rw [hmantissa]
  omega

theorem toNat_unpackExponent (bits : BitVec Format.binary64.numBits) :
    (unpackExponent bits).toNat = bits.toNat % 2 ^ 63 / 2 ^ 52 := by
  have hexponent : (unpackExponent bits).toNat = bits.toNat / 2 ^ 52 % 2 ^ 11 := by
    simp [unpackExponent, Format.binary64, Nat.shiftRight_eq_div_pow]
  rw [hexponent]
  omega

theorem ofBitVec_unpackSign (bits : BitVec Format.binary64.numBits) :
    Sign.ofBitVec (unpackSign bits) = if bits.toNat < 2 ^ 63 then .positive else .negative := by
  have hsign : (unpackSign bits).toNat = bits.toNat / 2 ^ 63 := by
    have hlt : bits.toNat < 2 ^ 64 := bits.isLt
    simp [unpackSign, Format.binary64, Nat.shiftRight_eq_div_pow]
    omega
  have hzero : unpackSign bits = 0#1 ↔ bits.toNat < 2 ^ 63 := by
    rw [← BitVec.toNat_inj, hsign]
    change bits.toNat / 2 ^ 63 = 0 ↔ _
    omega
  unfold Sign.ofBitVec
  by_cases h : bits.toNat < 2 ^ 63
  · rw [if_pos h, if_pos (hzero.mpr h)]
  · rw [if_neg h, if_neg (mt hzero.mp h)]

theorem magnitude_of_subnormal {n : ℕ} (h : n / 2 ^ 52 = 0) : magnitude n = n % 2 ^ 52 := if_pos h

theorem magnitude_of_normal {n : ℕ} (h : n / 2 ^ 52 ≠ 0) :
    (magnitude n : ℚ) * 2 ^ (-1074 : ℤ)
      = (2 ^ 52 + n % 2 ^ 52 : ℕ) * 2 ^ (((n / 2 ^ 52 : ℕ) : ℤ) - 1075) := by
  obtain ⟨k, hk⟩ := Nat.exists_eq_succ_of_ne_zero h
  unfold magnitude
  rw [if_neg h, hk, Nat.succ_eq_add_one, Nat.add_sub_cancel]
  have hexp : ((k + 1 : ℕ) : ℤ) - 1075 = k + -1074 := by omega
  rw [hexp, two_zpow_add, zpow_natCast, Nat.cast_mul, Nat.cast_pow, Nat.cast_two, mul_assoc]

/-- A number is read off its pattern. An infinity stands where its fields put it. -/
theorem number_unpack {bits : BitVec Format.binary64.numBits}
    (h : (UnpackedFloat.unpack Format.binary64 bits).isNaN = false) :
    number (UnpackedFloat.unpack Format.binary64 bits)
      = signed (if bits.toNat < 2 ^ 63 then .positive else .negative)
        (magnitude (bits.toNat % 2 ^ 63) * 2 ^ (-1074 : ℤ)) := by
  have hmantissa := toNat_unpackMantissa bits
  have hexponent := toNat_unpackExponent bits
  have hbias : (Format.binary64.exponentBias : ℤ)
      + (Format.binary64.mantissaBitsWithoutImplicit : ℤ) = 1075 := rfl
  rw [← ofBitVec_unpackSign]
  generalize hx : (magnitude (bits.toNat % 2 ^ 63) * 2 ^ (-1074 : ℤ) : ℚ) = x
  unfold UnpackedFloat.unpack at h ⊢
  simp only [hbias] at h ⊢
  split_ifs at h ⊢ with hones hinf hzero hmzero
  · -- infinity has the largest exponent and no mantissa
    have hfield : bits.toNat % 2 ^ 63 / 2 ^ 52 = 2047 := by
      rw [← hexponent, hones]
      rfl
    have hrest : bits.toNat % 2 ^ 63 % 2 ^ 52 = 0 := by
      rw [← hmantissa, hinf]
      rfl
    rw [magnitude_of_normal (by omega), hfield, hrest] at hx
    rw [← hx]
    change signed _ limit = _
    congr 1
    rw [limit, show (1024 : ℤ) = 52 + (2047 - 1075) from rfl, two_zpow_add]
    norm_num
  · cases h
  · have hfield : bits.toNat % 2 ^ 63 / 2 ^ 52 = 0 := by
      rw [← hexponent, hzero]
      rfl
    have hrest : bits.toNat % 2 ^ 63 % 2 ^ 52 = 0 := by
      rw [← hmantissa, hmzero]
      rfl
    rw [magnitude_of_subnormal hfield, hrest, Nat.cast_zero, zero_mul] at hx
    rw [← hx]
    cases Sign.ofBitVec (unpackSign bits)
    · exact neg_zero.symm
    · rfl
  · have hfield : bits.toNat % 2 ^ 63 / 2 ^ 52 = 0 := by
      rw [← hexponent, hzero]
      rfl
    rw [magnitude_of_subnormal hfield, ← hmantissa] at hx
    rw [← hx, hexponent, hfield]
    rfl
  · have hfield : bits.toNat % 2 ^ 63 / 2 ^ 52 ≠ 0 := by
      rw [← hexponent]
      exact fun h => hzero (BitVec.eq_of_toNat_eq h)
    have hdigits : (1#1 ++ unpackMantissa bits).toNat
        = 2 ^ 52 + (unpackMantissa bits).toNat := by
      rw [BitVec.toNat_append, ← Nat.shiftLeft_add_eq_or_of_lt (unpackMantissa bits).isLt]
      rfl
    rw [magnitude_of_normal hfield, ← hmantissa, ← hexponent, ← hdigits] at hx
    rw [← hx]
    rfl

/-- Only the largest exponent stands for something that is not finite. -/
theorem isFinite_unpack {bits : BitVec Format.binary64.numBits}
    (h : bits.toNat % 2 ^ 63 / 2 ^ 52 ≠ 2047) :
    (UnpackedFloat.unpack Format.binary64 bits).isFinite = true := by
  have hones : unpackExponent bits ≠ -1#_ := by
    intro hones
    apply h
    rw [← toNat_unpackExponent, hones]
    rfl
  unfold UnpackedFloat.unpack
  rw [if_neg hones]
  split_ifs <;> rfl

/-! ### Sorting -/

theorem xor_two_pow {n : ℕ} (h : n < 2 ^ 63) : n ^^^ 2 ^ 63 = n + 2 ^ 63 := by
  have hdiv : (n ^^^ 2 ^ 63) / 2 ^ 63 = 1 := by
    rw [Nat.xor_div_two_pow, Nat.div_eq_of_lt h, Nat.div_self (by norm_num), Nat.zero_xor]
  have hmod : (n ^^^ 2 ^ 63) % 2 ^ 63 = n := by
    rw [Nat.xor_mod_two_pow, Nat.mod_eq_of_lt h, Nat.mod_self, Nat.xor_zero]
  have hsplit := Nat.div_add_mod (n ^^^ 2 ^ 63) (2 ^ 63)
  omega

theorem toNat_sortKey (a : Float) :
    (Scalar.Binary64.sortKey a).toNat = if a.toBits.toNat < 2 ^ 63 then a.toBits.toNat + 2 ^ 63
      else 2 ^ 64 - 1 - a.toBits.toNat := by
  have hlt : a.toBits.toNat < 2 ^ 64 := a.toBits.toNat_lt
  have hsign : a.toBits >>> 63 = 1 ↔ ¬a.toBits.toNat < 2 ^ 63 := by
    rw [← UInt64.toNat_inj, UInt64.toNat_shiftRight, Nat.shiftRight_eq_div_pow]
    change a.toBits.toNat / 2 ^ 63 = 1 ↔ _
    omega
  unfold Scalar.Binary64.sortKey
  dsimp only
  by_cases h : a.toBits.toNat < 2 ^ 63
  · rw [if_neg (fun hs => hsign.mp hs h), if_pos h, UInt64.toNat_xor]
    exact xor_two_pow h
  · rw [if_pos (hsign.mpr h), if_neg h, UInt64.toNat_not]
    rfl

theorem value_of_isNaN_eq_false {a : Float} (h : a.isNaN = false) :
    value a = signed (if a.toBits.toNat < 2 ^ 63 then .positive else .negative)
      (magnitude (a.toBits.toNat % 2 ^ 63) * 2 ^ (-1074 : ℤ)) :=
  number_unpack h

theorem value_le_of_sortKey_le {a b : Float} (ha : a.isNaN = false) (hb : b.isNaN = false)
    (h : Scalar.Binary64.sortKey a ≤ Scalar.Binary64.sortKey b) : value a ≤ value b := by
  have hkey : (Scalar.Binary64.sortKey a).toNat ≤ (Scalar.Binary64.sortKey b).toNat := h
  have hstep := two_zpow_pos (-1074)
  have hbits : a.toBits.toNat < 2 ^ 64 := a.toBits.toNat_lt
  rw [toNat_sortKey, toNat_sortKey] at hkey
  rw [value_of_isNaN_eq_false ha, value_of_isNaN_eq_false hb]
  have hmono : ∀ {n k : ℕ}, n ≤ k →
      (magnitude n * 2 ^ (-1074 : ℤ) : ℚ) ≤ magnitude k * 2 ^ (-1074 : ℤ) := by
    intro n k hnk
    exact mul_le_mul_of_nonneg_right (by exact_mod_cast magnitude_strictMono.monotone hnk) hstep.le
  have hnonneg : ∀ n : ℕ, (0 : ℚ) ≤ magnitude n * 2 ^ (-1074 : ℤ) := fun n =>
    mul_nonneg (Nat.cast_nonneg _) hstep.le
  by_cases hsa : a.toBits.toNat < 2 ^ 63 <;> by_cases hsb : b.toBits.toNat < 2 ^ 63
  · rw [if_pos hsa, if_pos hsb] at hkey ⊢
    exact hmono (by omega)
  · rw [if_pos hsa, if_neg hsb] at hkey
    omega
  · rw [if_neg hsa, if_pos hsb]
    exact (neg_nonpos.mpr (hnonneg _)).trans (hnonneg _)
  · rw [if_neg hsa, if_neg hsb] at hkey ⊢
    exact neg_le_neg (hmono (by omega))

instance : Scalar.Ordered Float where
  isNaN_of_le := isNaN_of_le
  le_refl h := (le_iff h h).mpr le_rfl
  le_trans {a b c} hab hbc := by
    obtain ⟨ha, hb⟩ := isNaN_of_le hab
    obtain ⟨_, hc⟩ := isNaN_of_le hbc
    exact (le_iff ha hc).mpr (((le_iff ha hb).mp hab).trans ((le_iff hb hc).mp hbc))
  le_total ha hb := (le_total _ _).imp (le_iff ha hb).mpr (le_iff hb ha).mpr
  lt_iff {a b} := by
    constructor
    · intro h
      obtain ⟨ha, hb⟩ := isNaN_of_lt h
      have hlt := (lt_iff ha hb).mp h
      exact ⟨(le_iff ha hb).mpr hlt.le, fun hba => hlt.not_ge ((le_iff hb ha).mp hba)⟩
    · rintro ⟨hab, hba⟩
      obtain ⟨ha, hb⟩ := isNaN_of_le hab
      exact (lt_iff ha hb).mpr (not_le.mp fun h => hba ((le_iff hb ha).mpr h))
  beq_iff {a b} := by
    constructor
    · intro h
      obtain ⟨ha, hb⟩ := isNaN_of_beq h
      have heq := (beq_iff ha hb).mp h
      exact ⟨(le_iff ha hb).mpr heq.le, (le_iff hb ha).mpr heq.ge⟩
    · rintro ⟨hab, hba⟩
      obtain ⟨ha, hb⟩ := isNaN_of_le hab
      exact (beq_iff ha hb).mpr (le_antisymm ((le_iff ha hb).mp hab) ((le_iff hb ha).mp hba))
  isNaN_of_isFinite := isNaN_of_isFinite
  sortsBefore_trans a b c hab hbc :=
    decide_eq_true (UInt64.le_trans (of_decide_eq_true hab) (of_decide_eq_true hbc))
  sortsBefore_total a b := by
    rw [Bool.or_eq_true]
    exact (UInt64.le_total _ _).imp decide_eq_true decide_eq_true
  le_of_sortsBefore ha hb h :=
    (le_iff ha hb).mpr (value_le_of_sortKey_le ha hb (of_decide_eq_true h))

/-! ### Infinity -/

theorem isFinite_of_le {a b : Float} (h0 : (0.0 : Float) ≤ a) (hab : a ≤ b)
    (hb : b.isFinite = true) : a.isFinite = true := by
  obtain ⟨ha, _⟩ := isNaN_of_le hab
  have hnonneg : 0 ≤ value a := (le_iff rfl ha).mp h0
  have hle : value a ≤ value b := (le_iff ha (isNaN_of_isFinite hb)).mp hab
  rw [isFinite_iff (isNaN_of_isFinite hb), abs_of_nonneg (hnonneg.trans hle)] at hb
  rw [isFinite_iff ha, abs_of_nonneg hnonneg]
  exact hle.trans_lt hb

theorem le_of_not_isFinite {a b : Float} (ha : a.isNaN = false) (h0 : (0.0 : Float) ≤ b)
    (hb : b.isFinite = false) : a ≤ b := by
  obtain ⟨_, hnumber⟩ := isNaN_of_le h0
  have hnonneg : 0 ≤ value b := (le_iff rfl hnumber).mp h0
  have hlimit : limit ≤ value b := by
    rw [← Bool.not_eq_true, isFinite_iff hnumber, abs_of_nonneg hnonneg] at hb
    exact not_lt.mp hb
  exact (le_iff ha hnumber).mpr ((le_abs_self _).trans ((abs_value_le a).trans hlimit))

/-! ### Rounded operations -/

section Rounded

variable {a b c : Float}

theorem value_le_nearest {x : ℚ} (h : value a ≤ x) : value a ≤ nearest x :=
  (nearest_value a).ge.trans (nearest_mono h)

theorem nearest_le_value {x : ℚ} (h : x ≤ value a) : nearest x ≤ value a :=
  (nearest_mono h).trans (nearest_value a).le

theorem sub_le_left (ha : a.isFinite = true) (hb : b.isFinite = true) (h : 0 ≤ value b) :
    a - b ≤ a := by
  obtain ⟨hnumber, hvalue⟩ := value_sub ha hb
  rw [le_iff hnumber (isNaN_of_isFinite ha), hvalue]
  exact nearest_le_value (by linarith)

theorem left_le_add (ha : a.isFinite = true) (hb : b.isFinite = true) (h : 0 ≤ value b) :
    a ≤ a + b := by
  obtain ⟨hnumber, hvalue⟩ := value_add ha hb
  rw [le_iff (isNaN_of_isFinite ha) hnumber, hvalue]
  exact value_le_nearest (by linarith)

theorem mul_mono_left (ha : a.isFinite = true) (hb : b.isFinite = true)
    (hc : c.isFinite = true) (h : a ≤ b) (hpos : 0 ≤ value c) : a * c ≤ b * c := by
  obtain ⟨hleft, hvalue⟩ := value_mul ha hc
  obtain ⟨hright, hvalue'⟩ := value_mul hb hc
  have hab := (le_iff (isNaN_of_isFinite ha) (isNaN_of_isFinite hb)).mp h
  rw [le_iff hleft hright, hvalue, hvalue']
  exact nearest_mono (mul_le_mul_of_nonneg_right hab hpos)

/-- Two doubles whose rounded difference is below a third one are no further apart than that. -/
theorem le_add_of_abs_sub_lt (ha : a.isFinite = true) (hb : b.isFinite = true)
    (hc : c.isFinite = true) (h : (b - a).abs < c) : b ≤ a + c := by
  obtain ⟨hdiff, hvalue⟩ := value_sub hb ha
  obtain ⟨hsum, hvalue'⟩ := value_add ha hc
  have hnear : |value (b - a)| < value c := by
    rw [← value_abs]
    exact (lt_iff ((isNaN_abs _).trans hdiff) (isNaN_of_isFinite hc)).mp h
  have hle : value b - value a ≤ value c := by
    by_contra hfar
    have hround : value c ≤ value (b - a) := by
      rw [hvalue]
      exact value_le_nearest (not_le.mp hfar).le
    exact absurd (hround.trans (le_abs_self _)) (not_le.mpr hnear)
  rw [le_iff (isNaN_of_isFinite hb) hsum, hvalue']
  exact value_le_nearest (by linarith)

theorem isNaN_pack {u : UnpackedFloat} (h : u.isNaN = true) :
    (Float.Model.pack u).unpack.isNaN = true := by
  cases u with
  | notANumber => rfl
  | _ => cases h

theorem isNaN_add_of_right {u v : UnpackedFloat} (h : v.isNaN = true) :
    (UnpackedFloat.add Format.binary64 u v).isNaN = true := by
  cases v with
  | notANumber => cases u <;> rfl
  | _ => cases h

theorem isNaN_zero_mul {s : Sign} {v : UnpackedFloat} (h : v.isFinite = false) :
    (UnpackedFloat.mul Format.binary64 (.zero s) v).isNaN = true := by
  cases v with
  | zero t => cases h
  | finite t n e hn => cases h
  | infinity t => rfl
  | notANumber => rfl

/-- Zero steps from a double lead back to it, unless the step is no finite number. -/
theorem add_zero_mul_le (ha : a.isFinite = true) (h : (a + Float.ofNat 0 * b).isNaN = false) :
    a + Float.ofNat 0 * b ≤ a := by
  have hb : b.isFinite = true := by
    by_contra hnot
    have hstep : (Float.ofNat 0 * b).isNaN = true :=
      isNaN_pack (isNaN_zero_mul (s := .positive) (Bool.eq_false_iff.mpr hnot))
    rw [show (a + Float.ofNat 0 * b).isNaN = true from isNaN_pack (isNaN_add_of_right hstep)] at h
    cases h
  obtain ⟨hproduct, hrounded⟩ := value_mul (a := Float.ofNat 0) rfl hb
  have hzero : value (Float.ofNat 0 * b) = 0 := by
    rw [hrounded, show value (Float.ofNat 0) = 0 from rfl, zero_mul]
    exact nearest_value (0.0 : Float)
  replace hproduct : (Float.ofNat 0 * b).isFinite = true := by
    rw [isFinite_iff hproduct, hzero, abs_zero]
    exact limit_pos
  obtain ⟨hnumber, hvalue⟩ := value_add ha hproduct
  rw [le_iff hnumber (isNaN_of_isFinite ha), hvalue, hzero, add_zero]
  exact nearest_le_value le_rfl

end Rounded

end BinGrade.Binary64
