import BinGrade.Proofs.Binary64.Rounding
import BinGrade.Scalar.Binary64

/-!
# Values of doubles

The exact number of a double. Packing keeps it, up to the end of the range, and the comparisons of
doubles are those of their values wherever there are numbers to compare.
-/

namespace BinGrade.Binary64

open Float.Model Float.Model.UnpackedFloat

/-! ### Packing -/

theorem ofBitVec_unpackSign_packComponents {spec : Format} (s : Sign)
    (exponent : BitVec spec.exponentBits) (mantissa : BitVec spec.mantissaBitsWithoutImplicit) :
    Sign.ofBitVec (unpackSign (packComponents spec s exponent mantissa)) = s := by
  have hsign : unpackSign (packComponents spec s exponent mantissa) = s.toBitVec := by
    ext i hi
    have hi0 : i = 0 := by omega
    subst hi0
    simp [unpackSign, packComponents, BitVec.getLsbD_append, BitVec.getElem_append]
  rw [hsign]
  cases s <;> rfl

/-- A double that fits its format, or the infinity that stands for one beyond it. -/
def saturate : UnpackedFloat → UnpackedFloat
  | .finite s m e h => if e ≤ 971 then .finite s m e h else .infinity s
  | u => u

theorem unpack_packedInfinity (s : Sign) :
    UnpackedFloat.unpack Format.binary64 (packedInfinity Format.binary64 s) = .infinity s := by
  unfold packedInfinity UnpackedFloat.unpack
  simp only [unpackMantissa_packComponents, unpackExponent_packComponents,
    ofBitVec_unpackSign_packComponents]
  rfl

theorem unpack_normal (s : Sign) {m : ℕ} {e : ℤ} (hm : 0 < m) (hlow : 2 ^ 52 ≤ m)
    (hhigh : m < 2 ^ 53) (he : -1074 ≤ e) (he' : e ≤ 971) :
    UnpackedFloat.unpack Format.binary64
      (packComponents Format.binary64 s (BitVec.ofNat _ (e + 1075).toNat) (BitVec.ofNat _ m))
      = .finite s m e hm := by
  have hexp : (BitVec.ofNat 11 (e + 1075).toNat).toNat = (e + 1075).toNat := by
    rw [BitVec.toNat_ofNat]
    omega
  have hones : BitVec.ofNat 11 (e + 1075).toNat ≠ -1#11 := by
    intro h
    have := congrArg BitVec.toNat h
    rw [hexp, show (-1#11).toNat = 2047 from rfl] at this
    omega
  have hzero : BitVec.ofNat 11 (e + 1075).toNat ≠ 0#11 := by
    intro h
    have := congrArg BitVec.toNat h
    rw [hexp, show (0#11).toNat = 0 from rfl] at this
    omega
  have hmant : (1#1 ++ BitVec.ofNat 52 m).toNat = m := by
    rw [BitVec.toNat_append, BitVec.toNat_ofNat, BitVec.toNat_ofNat,
      ← Nat.shiftLeft_add_eq_or_of_lt (Nat.mod_lt _ (by norm_num))]
    omega
  unfold UnpackedFloat.unpack
  simp only [unpackMantissa_packComponents, unpackExponent_packComponents,
    ofBitVec_unpackSign_packComponents]
  rw [if_neg hones, if_neg hzero]
  congr 1
  rw [hexp]
  change ((e + 1075).toNat : ℤ) - (1023 + 52) = e
  omega

theorem unpack_subnormal (s : Sign) {m : ℕ} (hm : 0 < m) (hhigh : m < 2 ^ 52) :
    UnpackedFloat.unpack Format.binary64
      (packComponents Format.binary64 s 0#_ (BitVec.ofNat _ m)) = .finite s m (-1074) hm := by
  have hmant : (BitVec.ofNat 52 m).toNat = m := by
    rw [BitVec.toNat_ofNat, Nat.mod_eq_of_lt hhigh]
  have hzero : BitVec.ofNat 52 m ≠ 0#52 := by
    intro h
    have := congrArg BitVec.toNat h
    rw [hmant, show (0#52).toNat = 0 from rfl] at this
    omega
  unfold UnpackedFloat.unpack
  simp only [unpackMantissa_packComponents, unpackExponent_packComponents,
    ofBitVec_unpackSign_packComponents]
  rw [if_neg (by decide), if_pos trivial, dif_neg hzero]
  congr 1

theorem unpack_pack_of_canonical {u : UnpackedFloat} (h : Canonical u) :
    (Float.Model.pack u).unpack = saturate u := by
  change UnpackedFloat.unpack Format.binary64 (UnpackedFloat.pack Format.binary64 u) = saturate u
  cases u with
  | infinity s => exact unpack_packedInfinity s
  | notANumber => rfl
  | zero s => cases s <;> rfl
  | finite s m e hm =>
    obtain ⟨hdigits, hlow, hnormal⟩ := h
    have hbias : (e + (Format.binary64.exponentBias : ℤ)
        + (Format.binary64.mantissaBitsWithoutImplicit : ℤ)).toNat = (e + 1075).toNat := by
      change (e + 1023 + 52).toNat = _
      omega
    unfold UnpackedFloat.pack saturate
    simp only [hbias]
    rcases lt_or_ge 971 e with hover | hfits
    · rw [if_pos (by omega), if_neg (by omega), unpack_packedInfinity]
    rw [if_neg (by omega), if_pos hfits]
    by_cases hlog : 2 ^ 52 ≤ m
    · have hlog2 : m.log2 = 52 := by
        rw [Nat.log2_eq_iff hm.ne']
        exact ⟨hlog, hdigits⟩
      rw [if_pos (by rw [hlog2]; rfl)]
      exact unpack_normal s hm hlog hdigits hlow hfits
    · have hlog2 : m.log2 < 52 := (Nat.log2_lt hm.ne').mpr (by omega)
      obtain rfl : e = -1074 := hnormal.resolve_left hlog
      rw [if_neg (by change ¬m.log2 + 1 = 53; omega)]
      exact unpack_subnormal s hm (by omega)

/-- The unpacked doubles that there are. -/
structure InFormat (u : UnpackedFloat) : Prop where
  canonical : Canonical u
  saturated : saturate u = u

theorem inFormat_finite {s : Sign} {m : ℕ} {e : ℤ} (h : 0 < m) (hm : m < 2 ^ 53)
    (hlow : -1074 ≤ e) (hhigh : e ≤ 971) (hnormal : 2 ^ 52 ≤ m ∨ e = -1074) :
    InFormat (.finite s m e h) :=
  ⟨⟨hm, hlow, hnormal⟩, if_pos hhigh⟩

theorem inFormat_unpack (bits : BitVec Format.binary64.numBits) :
    InFormat (UnpackedFloat.unpack Format.binary64 bits) := by
  unfold UnpackedFloat.unpack
  have hbias : (Format.binary64.exponentBias : ℤ)
      + (Format.binary64.mantissaBitsWithoutImplicit : ℤ) = 1075 := rfl
  have hmant : (unpackMantissa bits).toNat < 2 ^ 52 := (unpackMantissa bits).isLt
  have hexp : (unpackExponent bits).toNat < 2 ^ 11 := (unpackExponent bits).isLt
  simp only [hbias]
  split_ifs with hones hinf hzero hmzero
  · exact ⟨trivial, rfl⟩
  · exact ⟨trivial, rfl⟩
  · exact ⟨trivial, rfl⟩
  · have hsub : (unpackExponent bits).toNat = 0 := congrArg BitVec.toNat hzero
    apply inFormat_finite <;> omega
  · have hlow : (unpackExponent bits).toNat ≠ 0 := fun h => hzero (BitVec.eq_of_toNat_eq h)
    have hhigh : (unpackExponent bits).toNat ≠ 2047 := fun h => hones (BitVec.eq_of_toNat_eq h)
    have hdigits : (1#1 ++ unpackMantissa bits).toNat
        = 2 ^ 52 + (unpackMantissa bits).toNat := by
      rw [BitVec.toNat_append, ← Nat.shiftLeft_add_eq_or_of_lt hmant]
      rfl
    apply inFormat_finite <;> omega

/-! ### Values -/

/-- The exact number of a double. -/
def value (a : Float) : ℚ := number a.toModel.unpack

theorem magnitude_lt_limit {m : ℕ} {e : ℤ} (hm : m < 2 ^ 53) (he : e ≤ 971) :
    (m * 2 ^ e : ℚ) < limit := by
  have hpow : (2 : ℚ) ^ e ≤ 2 ^ (971 : ℤ) := two_zpow_le he
  have hm' : (m : ℚ) < 2 ^ (53 : ℤ) := by exact_mod_cast hm
  calc (m * 2 ^ e : ℚ) ≤ m * 2 ^ (971 : ℤ) := mul_le_mul_of_nonneg_left hpow (Nat.cast_nonneg m)
    _ < 2 ^ (53 : ℤ) * 2 ^ (971 : ℤ) := mul_lt_mul_of_pos_right hm' (two_zpow_pos _)
    _ = limit := (two_zpow_add 53 971).symm

theorem limit_le_magnitude {m : ℕ} {e : ℤ} (hm : 2 ^ 52 ≤ m) (he : 971 < e) :
    limit ≤ (m * 2 ^ e : ℚ) := by
  have hpow : (2 : ℚ) ^ (972 : ℤ) ≤ 2 ^ e := two_zpow_le he
  have hm' : (2 : ℚ) ^ (52 : ℤ) ≤ m := by exact_mod_cast hm
  calc limit = 2 ^ (52 : ℤ) * 2 ^ (972 : ℤ) := two_zpow_add 52 972
    _ ≤ m * 2 ^ e := mul_le_mul hm' hpow (two_zpow_pos _).le (Nat.cast_nonneg m)

theorem number_saturate {u : UnpackedFloat} (h : Canonical u) :
    number (saturate u) = max (-limit) (min limit (number u)) := by
  have hlimit := limit_pos
  cases u with
  | infinity s => cases s <;> simp [saturate, number, signed, hlimit.le]
  | notANumber => simp [saturate, number, hlimit.le]
  | zero s => simp [saturate, number, hlimit.le]
  | finite s m e hm =>
    obtain ⟨hdigits, hlow, hnormal⟩ := h
    have hpos := magnitude_pos hm e
    rcases le_or_gt e 971 with hfits | hover
    · have hlt := magnitude_lt_limit hdigits hfits
      rw [saturate, if_pos hfits]
      cases s with
      | negative =>
        simp only [number, signed]
        rw [min_eq_right (by linarith), max_eq_right (by linarith)]
      | positive =>
        simp only [number, signed]
        rw [min_eq_right hlt.le, max_eq_right (by linarith)]
    · have hle := limit_le_magnitude (hnormal.resolve_right (by omega)) hover
      rw [saturate, if_neg (by omega)]
      cases s with
      | negative =>
        simp only [number, signed]
        rw [min_eq_right (by linarith), max_eq_left (by linarith)]
      | positive =>
        simp only [number, signed]
        rw [min_eq_left hle, max_eq_right (by linarith)]

theorem value_pack {u : UnpackedFloat} (h : Canonical u) :
    value (.ofModel (.pack u)) = max (-limit) (min limit (number u)) := by
  change number (Float.Model.pack u).unpack = _
  rw [unpack_pack_of_canonical h, number_saturate h]

theorem IsRounded.value_eq {u : UnpackedFloat} {x : ℚ} (h : IsRounded u x) :
    value (.ofModel (.pack u)) = nearest x := by
  rw [value_pack h.canonical, h.number_eq]
  rfl

/-! ### Order -/

theorem magnitude_lt_of_exponent_lt {m n : ℕ} {d e : ℤ} (hm : m < 2 ^ 53) (hn : 2 ^ 52 ≤ n)
    (h : d < e) : (m * 2 ^ d : ℚ) < n * 2 ^ e := by
  have hm' : (m : ℚ) < 2 ^ 53 := by exact_mod_cast hm
  have hn' : (2 : ℚ) ^ 52 ≤ n := by exact_mod_cast hn
  have hpow : (2 : ℚ) ^ (d + 1) ≤ 2 ^ e := two_zpow_le h
  calc (m * 2 ^ d : ℚ) < 2 ^ 53 * 2 ^ d := mul_lt_mul_of_pos_right hm' (two_zpow_pos _)
    _ = 2 ^ 52 * 2 ^ (d + 1) := by rw [two_zpow_add]; ring
    _ ≤ n * 2 ^ e := mul_le_mul hn' hpow (two_zpow_pos _).le (Nat.cast_nonneg n)

/-- In canonical form the exponents decide first, and then the mantissas. -/
theorem compare_magnitude {m n : ℕ} {d e : ℤ} {s t : Sign} {hm : 0 < m} {hn : 0 < n}
    (hu : Canonical (.finite s m d hm)) (hv : Canonical (.finite t n e hn)) :
    (compare d e).then (compare m n) = compare (m * 2 ^ d : ℚ) (n * 2 ^ e) := by
  obtain ⟨hm53, hd, hdn⟩ := hu
  obtain ⟨hn53, he, hen⟩ := hv
  rcases lt_trichotomy d e with hlt | rfl | hgt
  · rw [compare_lt_iff_lt.mpr hlt]
    have := magnitude_lt_of_exponent_lt hm53 (hen.resolve_right (by omega)) hlt
    exact (compare_lt_iff_lt.mpr this).symm
  · have hstep := two_zpow_pos d
    rw [compare_eq_iff_eq.mpr rfl, Ordering.then]
    rcases lt_trichotomy m n with hlt | rfl | hgt
    · have : (m * 2 ^ d : ℚ) < n * 2 ^ d := mul_lt_mul_of_pos_right (by exact_mod_cast hlt) hstep
      rw [compare_lt_iff_lt.mpr hlt, compare_lt_iff_lt.mpr this]
    · rw [compare_eq_iff_eq.mpr rfl, compare_eq_iff_eq.mpr rfl]
    · have : (n * 2 ^ d : ℚ) < m * 2 ^ d := mul_lt_mul_of_pos_right (by exact_mod_cast hgt) hstep
      rw [compare_gt_iff_gt.mpr hgt, compare_gt_iff_gt.mpr this]
  · rw [compare_gt_iff_gt.mpr hgt]
    have := magnitude_lt_of_exponent_lt hn53 (hdn.resolve_right (by omega)) hgt
    exact (compare_gt_iff_gt.mpr this).symm

theorem swap_compare (x y : ℚ) : (compare x y).swap = compare (-x) (-y) := by
  rcases lt_trichotomy x y with hlt | rfl | hgt
  · rw [compare_lt_iff_lt.mpr hlt, compare_gt_iff_gt.mpr (neg_lt_neg hlt)]
    rfl
  · rw [compare_eq_iff_eq.mpr rfl, compare_eq_iff_eq.mpr rfl]
    rfl
  · rw [compare_gt_iff_gt.mpr hgt, compare_lt_iff_lt.mpr (neg_lt_neg hgt)]
    rfl

theorem some_lt_eq {x y : ℚ} (h : x < y) : some Ordering.lt = some (compare x y) :=
  congrArg some (compare_lt_iff_lt.mpr h).symm

theorem some_gt_eq {x y : ℚ} (h : y < x) : some Ordering.gt = some (compare x y) :=
  congrArg some (compare_gt_iff_gt.mpr h).symm

theorem some_eq_eq (x : ℚ) : some Ordering.eq = some (compare x x) :=
  congrArg some (compare_eq_iff_eq.mpr rfl).symm

theorem InFormat.magnitude_lt {s : Sign} {m : ℕ} {e : ℤ} {h : 0 < m}
    (hu : InFormat (.finite s m e h)) : (m * 2 ^ e : ℚ) < limit := by
  refine magnitude_lt_limit hu.canonical.1 ?_
  by_contra hover
  have hsat := hu.saturated
  rw [saturate, if_neg hover] at hsat
  cases hsat

theorem compare_eq_compare_number {u v : UnpackedFloat} (hu : InFormat u) (hv : InFormat v)
    (hu' : u.isNaN = false) (hv' : v.isNaN = false) :
    u.compare v = some (compare (number u) (number v)) := by
  have hlimit := limit_pos
  cases u with
  | notANumber => cases hu'
  | infinity s =>
    cases v with
    | notANumber => cases hv'
    | infinity t =>
      cases s <;> cases t
      · exact some_eq_eq _
      · exact some_lt_eq (by simp only [number, signed]; linarith)
      · exact some_gt_eq (by simp only [number, signed]; linarith)
      · exact some_eq_eq _
    | zero t =>
      cases s
      · exact some_lt_eq (by simp only [number, signed]; linarith)
      · exact some_gt_eq (by simp only [number, signed]; linarith)
    | finite t n e hn =>
      have hpos := magnitude_pos hn e
      have hlt := hv.magnitude_lt
      cases s <;> cases t
      · exact some_lt_eq (by simp only [number, signed]; linarith)
      · exact some_lt_eq (by simp only [number, signed]; linarith)
      · exact some_gt_eq (by simp only [number, signed]; linarith)
      · exact some_gt_eq (by simp only [number, signed]; linarith)
  | zero s =>
    cases v with
    | notANumber => cases hv'
    | infinity t =>
      cases t
      · exact some_gt_eq (by simp only [number, signed]; linarith)
      · exact some_lt_eq (by simp only [number, signed]; linarith)
    | zero t => exact some_eq_eq _
    | finite t n e hn =>
      have hpos := magnitude_pos hn e
      cases t
      · exact some_gt_eq (by simp only [number, signed]; linarith)
      · exact some_lt_eq (by simp only [number, signed]; linarith)
  | finite s m d hm =>
    have hpos := magnitude_pos hm d
    have hlt := hu.magnitude_lt
    cases v with
    | notANumber => cases hv'
    | infinity t =>
      cases s <;> cases t
      · exact some_gt_eq (by simp only [number, signed]; linarith)
      · exact some_lt_eq (by simp only [number, signed]; linarith)
      · exact some_gt_eq (by simp only [number, signed]; linarith)
      · exact some_lt_eq (by simp only [number, signed]; linarith)
    | zero t =>
      cases s
      · exact some_lt_eq (by simp only [number, signed]; linarith)
      · exact some_gt_eq (by simp only [number, signed]; linarith)
    | finite t n e hn =>
      have hpos' := magnitude_pos hn e
      have hcmp := compare_magnitude hu.canonical hv.canonical
      cases s <;> cases t
      · exact congrArg some ((congrArg Ordering.swap hcmp).trans (swap_compare _ _))
      · exact some_lt_eq (by simp only [number, signed]; linarith)
      · exact some_gt_eq (by simp only [number, signed]; linarith)
      · exact congrArg some hcmp

theorem compare_unpack {a b : Float} (ha : a.isNaN = false) (hb : b.isNaN = false) :
    a.toModel.unpack.compare b.toModel.unpack = some (compare (value a) (value b)) :=
  compare_eq_compare_number (inFormat_unpack _) (inFormat_unpack _) ha hb

theorem lt_iff {a b : Float} (ha : a.isNaN = false) (hb : b.isNaN = false) :
    a < b ↔ value a < value b := by
  change decide (a.toModel.unpack.lt b.toModel.unpack = true) = true ↔ _
  rw [decide_eq_true_iff, UnpackedFloat.lt, compare_unpack ha hb, beq_iff_eq, Option.some.injEq,
    compare_lt_iff_lt]

theorem le_iff {a b : Float} (ha : a.isNaN = false) (hb : b.isNaN = false) :
    a ≤ b ↔ value a ≤ value b := by
  change decide (a.toModel.unpack.le b.toModel.unpack = true) = true ↔ _
  rw [decide_eq_true_iff, UnpackedFloat.le, compare_unpack ha hb, Option.any_some,
    ← Ordering.ne_gt_iff_isLE]
  exact compare_le_iff_le

/-! ### Range -/

theorem onGrid_number {u : UnpackedFloat} (h : Canonical u) : OnGrid (number u) := by
  cases u with
  | infinity s =>
    have hlimit : OnGrid limit := onGrid_two_zpow (by norm_num)
    cases s with
    | negative => exact hlimit.neg
    | positive => exact hlimit
  | notANumber => exact ⟨0, 0, by norm_num, by norm_num, by simp [number]⟩
  | zero s => exact ⟨0, 0, by norm_num, by norm_num, by simp [number]⟩
  | finite s m e hm =>
    have hpoint : OnGrid (m * 2 ^ e) := by
      refine ⟨m, e, ?_, h.2.1, by push_cast; rfl⟩
      rw [abs_of_nonneg (Int.natCast_nonneg m)]
      exact_mod_cast h.1.le
    cases s with
    | negative => exact hpoint.neg
    | positive => exact hpoint

theorem onGrid_value (a : Float) : OnGrid (value a) :=
  onGrid_number (inFormat_unpack _).canonical

theorem abs_number_lt_iff {u : UnpackedFloat} (h : InFormat u) (hu : u.isNaN = false) :
    |number u| < limit ↔ u.isFinite = true := by
  have hlimit := limit_pos
  cases u with
  | infinity s => cases s <;> simp [number, signed, UnpackedFloat.isFinite, abs_of_pos hlimit]
  | notANumber => cases hu
  | zero s => simpa [number, UnpackedFloat.isFinite] using hlimit
  | finite s m e hm =>
    have hlt := h.magnitude_lt
    have hpos := magnitude_pos hm e
    cases s <;> simpa [number, signed, UnpackedFloat.isFinite, abs_of_pos hpos] using hlt

theorem abs_value_le (a : Float) : |value a| ≤ limit := by
  have hformat := inFormat_unpack a.toModel.toBits.toBitVec
  change |number a.toModel.unpack| ≤ limit
  cases hu : a.toModel.unpack with
  | infinity s => cases s <;> simp [number, signed, abs_of_pos limit_pos]
  | notANumber => simpa [number] using limit_pos.le
  | zero s => simpa [number] using limit_pos.le
  | finite s m e hm =>
    change InFormat a.toModel.unpack at hformat
    rw [hu] at hformat
    exact ((abs_number_lt_iff hformat rfl).mpr rfl).le

theorem isFinite_iff {a : Float} (ha : a.isNaN = false) :
    a.isFinite = true ↔ |value a| < limit :=
  (abs_number_lt_iff (inFormat_unpack _) ha).symm

theorem isNaN_of_isFinite {a : Float} (h : a.isFinite = true) : a.isNaN = false := by
  change a.toModel.unpack.isFinite = true at h
  change a.toModel.unpack.isNaN = false
  cases hu : a.toModel.unpack with
  | notANumber =>
    rw [hu] at h
    cases h
  | _ => rfl

end BinGrade.Binary64
