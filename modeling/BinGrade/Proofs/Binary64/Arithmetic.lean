import BinGrade.Proofs.Binary64.Value

/-!
# Arithmetic of doubles

Sums, products and quotients of finite doubles are the nearest doubles to the exact results. Where
infinities take part, it is said only when there is a result at all.
-/

namespace BinGrade.Binary64

open Float.Model Float.Model.UnpackedFloat

/-! ### Unpacked operations -/

theorem isRounded_self {u : UnpackedFloat} (h : Canonical u) (hu : u.isFinite = true) :
    IsRounded u (number u) :=
  ⟨h, hu, (toGrid_of_onGrid (onGrid_number h)).symm⟩

theorem apply_shiftLeft_mul (s : Sign) (m : ℕ) {d e : ℤ} (h : d ≤ e) :
    (s.apply (m <<< (e - d).toNat : ℕ) * 2 ^ d : ℚ) = signed s (m * 2 ^ e) := by
  have hsame : ((m <<< (e - d).toNat : ℕ) * 2 ^ d : ℚ) = m * 2 ^ e := by
    have he : e = ((e - d).toNat : ℤ) + d := by omega
    rw [Nat.shiftLeft_eq]
    nth_rewrite 2 [he]
    rw [two_zpow_add, zpow_natCast]
    push_cast
    ring
  rw [← hsame]
  generalize m <<< (e - d).toNat = n
  cases s with
  | negative =>
    simp only [Sign.apply, signed]
    push_cast
    ring
  | positive =>
    simp only [Sign.apply, signed]
    push_cast
    rfl

theorem isRounded_add {u v : UnpackedFloat} (hu : Canonical u) (hv : Canonical v)
    (hu' : u.isFinite = true) (hv' : v.isFinite = true) :
    IsRounded (UnpackedFloat.add Format.binary64 u v) (number u + number v) := by
  cases u with
  | infinity s => cases hu'
  | notANumber => cases hu'
  | zero s =>
    cases v with
    | infinity t => cases hv'
    | notANumber => cases hv'
    | zero t =>
      rw [show number (.zero s) + number (.zero t) = 0 from add_zero 0]
      cases s <;> cases t <;> exact ⟨trivial, rfl, toGrid_zero.symm⟩
    | finite t n e hn =>
      rw [show number (.zero s) + number (.finite t n e hn) = number (.finite t n e hn) from
        zero_add _]
      exact isRounded_self hv hv'
  | finite s m d hm =>
    cases v with
    | infinity t => cases hv'
    | notANumber => cases hv'
    | zero t =>
      rw [show number (.finite s m d hm) + number (.zero t) = number (.finite s m d hm) from
        add_zero _]
      exact isRounded_self hu hu'
    | finite t n e hn =>
      have hsum : number (.finite s m d hm) + number (.finite t n e hn)
          = ((s.apply (m <<< (d - min d e).toNat : ℕ) + t.apply (n <<< (e - min d e).toNat : ℕ) : ℤ)
            : ℚ) * 2 ^ min d e := by
        rw [Int.cast_add, add_mul, apply_shiftLeft_mul s m (min_le_left d e),
          apply_shiftLeft_mul t n (min_le_right d e)]
        rfl
      rw [hsum]
      exact isRounded_normalize _ _ _

theorem signed_neg (s : Sign) (x : ℚ) : signed (-s) x = -signed s x := by
  cases s with
  | negative => exact (neg_neg x).symm
  | positive => rfl

theorem apply_neg (s : Sign) (n : ℤ) : (-s).apply n = -s.apply n := by
  cases s with
  | negative => exact (neg_neg n).symm
  | positive => rfl

theorem number_neg (u : UnpackedFloat) : number u.neg = -number u := by
  cases u with
  | infinity s => exact signed_neg s limit
  | notANumber => exact neg_zero.symm
  | zero s => exact neg_zero.symm
  | finite s m e hm => exact signed_neg s _

theorem canonical_neg {u : UnpackedFloat} (h : Canonical u) : Canonical u.neg := by
  cases u with
  | finite s m e hm => exact h
  | _ => trivial

theorem isFinite_neg (u : UnpackedFloat) : u.neg.isFinite = u.isFinite := by
  cases u <;> rfl

/-- A difference is the sum with the negated number. -/
theorem sub_eq_add_of_isFinite {u v : UnpackedFloat} (hu : u.isFinite = true)
    (hv : v.isFinite = true) :
    UnpackedFloat.sub Format.binary64 u v = UnpackedFloat.add Format.binary64 u v.neg := by
  cases u with
  | infinity s => cases hu
  | notANumber => cases hu
  | zero s =>
    cases v with
    | infinity t => cases hv
    | notANumber => cases hv
    | zero t => rfl
    | finite t n e hn => rfl
  | finite s m d hm =>
    cases v with
    | infinity t => cases hv
    | notANumber => cases hv
    | zero t => rfl
    | finite t n e hn =>
      simp only [UnpackedFloat.sub, UnpackedFloat.add, UnpackedFloat.neg, apply_neg,
        sub_eq_add_neg]

theorem isRounded_sub {u v : UnpackedFloat} (hu : Canonical u) (hv : Canonical v)
    (hu' : u.isFinite = true) (hv' : v.isFinite = true) :
    IsRounded (UnpackedFloat.sub Format.binary64 u v) (number u - number v) := by
  rw [sub_eq_add_of_isFinite hu' hv', sub_eq_add_neg, ← number_neg]
  exact isRounded_add hu (canonical_neg hv) hu' ((isFinite_neg v).trans hv')

theorem signed_mul_signed (s t : Sign) (x y : ℚ) :
    signed s x * signed t y = signed (s * t) (x * y) := by
  cases s <;> cases t
  · exact neg_mul_neg x y
  · exact neg_mul x y
  · exact mul_neg x y
  · rfl

theorem signed_div_signed (s t : Sign) (x y : ℚ) :
    signed s x / signed t y = signed (s / t) (x / y) := by
  cases s <;> cases t
  · exact neg_div_neg_eq x y
  · exact neg_div y x
  · exact div_neg x
  · rfl

theorem le_gridExponent {x : ℚ} (hx : 0 < x) {k : ℤ} (h : 2 ^ k ≤ x) : k - 52 ≤ gridExponent x := by
  have hlog := (Int.zpow_le_iff_le_log (by norm_num : 1 < 2) hx).mp (by exact_mod_cast h)
  unfold gridExponent
  rw [abs_of_pos hx]
  omega

theorem isRounded_mul_finite (s : Sign) {m n : ℕ} {d e : ℤ} (hm : 0 < m) (hn : 0 < n)
    (hd : 2 ^ 52 ≤ m ∨ d = -1074) (he : 2 ^ 52 ≤ n ∨ e = -1074) :
    IsRounded (roundWithAccuracy Format.binary64 s (m * n) (d + e) .exact)
      (signed s ((m * 2 ^ d) * (n * 2 ^ e))) := by
  have hpos : 0 < m * n := Nat.mul_pos hm hn
  have hx : ((m * 2 ^ d) * (n * 2 ^ e) : ℚ) = (m * n : ℕ) * 2 ^ (d + e) := by
    rw [two_zpow_add]
    push_cast
    ring
  rw [hx]
  refine isRounded_roundWithAccuracy s (magnitude_pos hpos _) (stands_exact_div _ _) (.inl hpos) ?_
  by_cases hlarge : 2 ^ 52 ≤ m * n
  · have hpow : (2 : ℚ) ^ (52 + (d + e)) ≤ (m * n : ℕ) * 2 ^ (d + e) := by
      rw [two_zpow_add]
      exact mul_le_mul_of_nonneg_right (by exact_mod_cast hlarge) (two_zpow_pos _).le
    have := le_gridExponent (magnitude_pos hpos _) hpow
    omega
  · -- both factors are below the normal numbers, and so is the exponent of the product
    have hd' : d = -1074 := hd.resolve_left fun h =>
      hlarge (h.trans (Nat.le_mul_of_pos_right m hn))
    have he' : e = -1074 := he.resolve_left fun h =>
      hlarge (h.trans (Nat.le_mul_of_pos_left n hm))
    have hlow : -1074 ≤ gridExponent ((m * n : ℕ) * 2 ^ (d + e)) := le_max_right _ _
    omega

theorem isRounded_mul {u v : UnpackedFloat} (hu : Canonical u) (hv : Canonical v)
    (hu' : u.isFinite = true) (hv' : v.isFinite = true) :
    IsRounded (UnpackedFloat.mul Format.binary64 u v) (number u * number v) := by
  cases u with
  | infinity s => cases hu'
  | notANumber => cases hu'
  | zero s =>
    rw [show number (.zero s) * number v = 0 from zero_mul _]
    cases v with
    | infinity t => cases hv'
    | notANumber => cases hv'
    | zero t => exact ⟨trivial, rfl, toGrid_zero.symm⟩
    | finite t n e hn => exact ⟨trivial, rfl, toGrid_zero.symm⟩
  | finite s m d hm =>
    cases v with
    | infinity t => cases hv'
    | notANumber => cases hv'
    | zero t =>
      rw [show number (.finite s m d hm) * number (.zero t) = 0 from mul_zero _]
      exact ⟨trivial, rfl, toGrid_zero.symm⟩
    | finite t n e hn =>
      rw [show number (.finite s m d hm) * number (.finite t n e hn)
        = signed (s * t) ((m * 2 ^ d) * (n * 2 ^ e)) from signed_mul_signed s t _ _]
      exact isRounded_mul_finite (s * t) hm hn hu.2.2 hv.2.2

theorem two_zpow_le_div {m n : ℕ} (hm : 0 < m) (hn : 0 < n) (d e : ℤ) :
    (2 : ℚ) ^ ((m.log2 + d) - (n.log2 + e) - 1 : ℤ) ≤ (m * 2 ^ d) / (n * 2 ^ e) := by
  have hlow : (2 : ℚ) ^ m.log2 ≤ m := by exact_mod_cast Nat.log2_self_le hm.ne'
  have hhigh : (n : ℚ) ≤ 2 ^ (n.log2 + 1) := by exact_mod_cast Nat.lt_log2_self.le
  rw [le_div_iff₀ (magnitude_pos hn e)]
  calc (2 : ℚ) ^ ((m.log2 + d) - (n.log2 + e) - 1 : ℤ) * (n * 2 ^ e)
      ≤ 2 ^ ((m.log2 + d) - (n.log2 + e) - 1 : ℤ) * (2 ^ (n.log2 + 1) * 2 ^ e) :=
        mul_le_mul_of_nonneg_left (mul_le_mul_of_nonneg_right hhigh (two_zpow_pos e).le)
          (two_zpow_pos _).le
    _ = 2 ^ m.log2 * 2 ^ d := by
        rw [← zpow_natCast, ← zpow_natCast, ← two_zpow_add, ← two_zpow_add,
          ← two_zpow_add]
        congr 1
        push_cast
        ring
    _ ≤ m * 2 ^ d := mul_le_mul_of_nonneg_right hlow (two_zpow_pos d).le

theorem isRounded_div_finite (s : Sign) {m n : ℕ} (hm : 0 < m) (hn : 0 < n) (d e : ℤ) :
    IsRounded
      (let (q, t, acc) := divCore Format.binary64 m d n e
       roundWithAccuracy Format.binary64 s q t acc)
      (signed s ((m * 2 ^ d) / (n * 2 ^ e))) := by
  have hx : (0 : ℚ) < (m * 2 ^ d) / (n * 2 ^ e) := div_pos (magnitude_pos hm d) (magnitude_pos hn e)
  have hsize := two_zpow_le_div hm hn d e
  have hn' : (0 : ℚ) < n := by exact_mod_cast hn
  unfold divCore
  rw [targetExponent_binary64]
  generalize ht : min (d - e) (max (totalExponent m d - totalExponent n e - 53) (-1074)) = t
  unfold totalExponent at ht
  dsimp only
  generalize hk : (d - e - t).toNat = k
  rw [Nat.shiftLeft_eq]
  have hquot : ((m * 2 ^ d) / (n * 2 ^ e) : ℚ) / 2 ^ t = (m * 2 ^ k : ℕ) / n := by
    have hexp : d = t + e + (k : ℤ) := by omega
    rw [hexp, two_zpow_add, two_zpow_add, zpow_natCast]
    push_cast
    field_simp
  have hstands : Stands (.ofMantissaAndAccuracy (m * 2 ^ k / n)
      (accuracyOfFraction (m * 2 ^ k % n) n)) ((m * 2 ^ d) / (n * 2 ^ e) / 2 ^ t) := by
    have hfrac := stands_fraction (m * 2 ^ k / n) (Nat.mod_lt (m * 2 ^ k) hn)
    have hsplit : ((m * 2 ^ k : ℕ) : ℚ)
        = n * (m * 2 ^ k / n : ℕ) + (m * 2 ^ k % n : ℕ) := by
      exact_mod_cast (Nat.div_add_mod (m * 2 ^ k) n).symm
    rw [hquot, hsplit, add_div, mul_div_cancel_left₀ _ hn'.ne']
    exact hfrac
  refine isRounded_roundWithAccuracy s hx hstands ?_ ?_
  · -- with more than the smallest step left, the quotient keeps its digits
    by_cases hmin : t ≤ -1074
    · exact .inr hmin
    refine .inl (Nat.div_pos ?_ hn)
    have hone : (1 : ℚ) ≤ (m * 2 ^ k : ℕ) / n := by
      rw [← hquot, one_le_div (two_zpow_pos _)]
      exact (two_zpow_le (by omega)).trans hsize
    rw [one_le_div hn'] at hone
    exact_mod_cast hone
  · have := le_gridExponent hx hsize
    have hlow : -1074 ≤ gridExponent ((m * 2 ^ d) / (n * 2 ^ e)) := le_max_right _ _
    omega

theorem isRounded_div {u v : UnpackedFloat} (hu : u.isFinite = true) (hv : v.isFinite = true)
    (h : number v ≠ 0) :
    IsRounded (UnpackedFloat.div Format.binary64 u v) (number u / number v) := by
  cases v with
  | infinity t => cases hv
  | notANumber => cases hv
  | zero t => exact absurd rfl h
  | finite t n e hn =>
    cases u with
    | infinity s => cases hu
    | notANumber => cases hu
    | zero s =>
      rw [show number (.zero s) / number (.finite t n e hn) = 0 from zero_div _]
      exact ⟨trivial, rfl, toGrid_zero.symm⟩
    | finite s m d hm =>
      rw [show number (.finite s m d hm) / number (.finite t n e hn)
        = signed (s / t) ((m * 2 ^ d) / (n * 2 ^ e)) from signed_div_signed s t _ _]
      exact isRounded_div_finite (s / t) hm hn d e

theorem number_abs (u : UnpackedFloat) : number u.abs = |number u| := by
  cases u with
  | infinity s => cases s <;> simp [UnpackedFloat.abs, number, signed, abs_of_pos limit_pos]
  | notANumber => simp [UnpackedFloat.abs, number]
  | zero s => simp [UnpackedFloat.abs, number]
  | finite s m e hm =>
    cases s <;> simp [UnpackedFloat.abs, number, signed, abs_of_pos (magnitude_pos hm e)]

theorem inFormat_abs {u : UnpackedFloat} (h : InFormat u) : InFormat u.abs := by
  obtain ⟨hcanonical, hsaturated⟩ := h
  cases u with
  | finite s m e hm =>
    refine ⟨hcanonical, if_pos ?_⟩
    by_contra hover
    rw [saturate, if_neg hover] at hsaturated
    cases hsaturated
  | infinity s => exact ⟨trivial, rfl⟩
  | notANumber => exact ⟨trivial, rfl⟩
  | zero s => exact ⟨trivial, rfl⟩

/-! ### Where there is a number -/

/-- An unpacked result that is a number, maybe infinite. -/
structure IsNumber (u : UnpackedFloat) : Prop where
  canonical : Canonical u
  isNaN_eq : u.isNaN = false

theorem IsRounded.isNumber {u : UnpackedFloat} {x : ℚ} (h : IsRounded u x) : IsNumber u := by
  refine ⟨h.canonical, ?_⟩
  have hfinite := h.finite
  cases u with
  | notANumber => cases hfinite
  | _ => rfl

theorem isFinite_or_infinity {u : UnpackedFloat} (h : u.isNaN = false) :
    u.isFinite = true ∨ ∃ s, u = .infinity s := by
  cases u with
  | infinity s => exact .inr ⟨s, rfl⟩
  | notANumber => cases h
  | zero s => exact .inl rfl
  | finite s m e hm => exact .inl rfl

theorem isNumber_add {u v : UnpackedFloat} (hu : Canonical u) (hv : Canonical v)
    (hu' : u.isFinite = true) (hv' : v.isNaN = false) :
    IsNumber (UnpackedFloat.add Format.binary64 u v) := by
  rcases isFinite_or_infinity hv' with hfinite | ⟨t, rfl⟩
  · exact (isRounded_add hu hv hu' hfinite).isNumber
  · cases u with
    | infinity s => cases hu'
    | notANumber => cases hu'
    | zero s => exact ⟨trivial, rfl⟩
    | finite s m d hm => exact ⟨trivial, rfl⟩

theorem isNumber_mul {u v : UnpackedFloat} (hu : Canonical u) (hv : Canonical v)
    (hu' : u.isFinite = true) (h : number u ≠ 0) (hv' : v.isNaN = false) :
    IsNumber (UnpackedFloat.mul Format.binary64 u v) := by
  rcases isFinite_or_infinity hv' with hfinite | ⟨t, rfl⟩
  · exact (isRounded_mul hu hv hu' hfinite).isNumber
  · cases u with
    | infinity s => cases hu'
    | notANumber => cases hu'
    | zero s => exact absurd rfl h
    | finite s m d hm => exact ⟨trivial, rfl⟩

/-- A finite dividend other than zero has a quotient by every number. -/
theorem isNumber_div_left {u v : UnpackedFloat} (hu' : u.isFinite = true) (h : number u ≠ 0)
    (hv' : v.isNaN = false) : IsNumber (UnpackedFloat.div Format.binary64 u v) := by
  cases u with
  | infinity s => cases hu'
  | notANumber => cases hu'
  | zero s => exact absurd rfl h
  | finite s m d hm =>
    cases v with
    | infinity t => exact ⟨trivial, rfl⟩
    | notANumber => cases hv'
    | zero t => exact ⟨trivial, rfl⟩
    | finite t n e hn => exact (isRounded_div_finite (s / t) hm hn d e).isNumber

/-- Every number has a quotient by a finite divisor other than zero. -/
theorem isNumber_div_right {u v : UnpackedFloat} (hu' : u.isNaN = false) (hv' : v.isFinite = true)
    (h : number v ≠ 0) : IsNumber (UnpackedFloat.div Format.binary64 u v) := by
  rcases isFinite_or_infinity hu' with hfinite | ⟨s, rfl⟩
  · exact (isRounded_div hfinite hv' h).isNumber
  · cases v with
    | infinity t => cases hv'
    | notANumber => cases hv'
    | zero t => exact absurd rfl h
    | finite t n e hn => exact ⟨trivial, rfl⟩

theorem number_infinity : number (.infinity .positive) = limit := rfl

theorem div_infinity {u : UnpackedFloat} (h : u.isFinite = true) (t : Sign) :
    ∃ s, UnpackedFloat.div Format.binary64 u (.infinity t) = .zero s := by
  cases u with
  | infinity s => cases h
  | notANumber => cases h
  | zero s => exact ⟨s / t, rfl⟩
  | finite s m e hm => exact ⟨s / t, rfl⟩

theorem infinity_of_nonneg {s : Sign} (h : 0 ≤ number (.infinity s)) : s = .positive := by
  cases s with
  | negative => exact absurd h (not_le.mpr (neg_neg_of_pos limit_pos))
  | positive => rfl

/-- Numbers that are not negative have a sum, even if they are infinite. -/
theorem add_of_nonneg {u v : UnpackedFloat} (hu : Canonical u) (hv : Canonical v)
    (hu' : u.isNaN = false) (hv' : v.isNaN = false) (hu0 : 0 ≤ number u) (hv0 : 0 ≤ number v) :
    IsNumber (UnpackedFloat.add Format.binary64 u v)
      ∧ max (-limit) (min limit (number (UnpackedFloat.add Format.binary64 u v)))
        = nearest (number u + number v) := by
  have hlimit := limit_pos
  have hsaturated : max (-limit) (min limit limit) = limit := by
    rw [min_self, max_eq_right (by linarith)]
  rcases isFinite_or_infinity hu' with hfu | ⟨s, rfl⟩
  · rcases isFinite_or_infinity hv' with hfv | ⟨t, rfl⟩
    · have hrounded := isRounded_add hu hv hfu hfv
      exact ⟨hrounded.isNumber, by rw [hrounded.number_eq, nearest]⟩
    · obtain rfl := infinity_of_nonneg hv0
      have hadd : UnpackedFloat.add Format.binary64 u (.infinity .positive)
          = .infinity .positive := by
        cases u <;> first | rfl | cases hfu
      rw [hadd, number_infinity, nearest_of_limit_le (le_add_of_nonneg_left hu0)]
      exact ⟨⟨trivial, rfl⟩, hsaturated⟩
  · obtain rfl := infinity_of_nonneg hu0
    have hadd : UnpackedFloat.add Format.binary64 (.infinity .positive) v
        = .infinity .positive := by
      cases v with
      | infinity t =>
        obtain rfl := infinity_of_nonneg hv0
        rfl
      | notANumber => cases hv'
      | zero t => rfl
      | finite t n e hn => rfl
    rw [hadd, number_infinity, nearest_of_limit_le (le_add_of_nonneg_right hv0)]
    exact ⟨⟨trivial, rfl⟩, hsaturated⟩

/-! ### Operations on doubles -/

section Operations

variable {a b : Float}

theorem IsNumber.isNaN_pack {u : UnpackedFloat} (h : IsNumber u) :
    (Float.ofModel (.pack u)).isNaN = false := by
  change (Float.Model.pack u).unpack.isNaN = false
  rw [unpack_pack_of_canonical h.canonical]
  cases u with
  | finite s m e hm =>
    rw [saturate]
    split <;> rfl
  | _ => exact h.isNaN_eq

theorem canonical_unpack (a : Float) : Canonical a.toModel.unpack :=
  (inFormat_unpack _).canonical

theorem isNaN_add (ha : a.isFinite = true) (hb : b.isNaN = false) : (a + b).isNaN = false :=
  (isNumber_add (canonical_unpack a) (canonical_unpack b) ha hb).isNaN_pack

theorem isNaN_mul (ha : a.isFinite = true) (h : value a ≠ 0) (hb : b.isNaN = false) :
    (a * b).isNaN = false :=
  (isNumber_mul (canonical_unpack a) (canonical_unpack b) ha h hb).isNaN_pack

theorem isNaN_div_left (ha : a.isFinite = true) (h : value a ≠ 0) (hb : b.isNaN = false) :
    (a / b).isNaN = false :=
  (isNumber_div_left ha h hb).isNaN_pack

theorem isNaN_div_right (ha : a.isNaN = false) (hb : b.isFinite = true) (h : value b ≠ 0) :
    (a / b).isNaN = false :=
  (isNumber_div_right ha hb h).isNaN_pack

theorem value_div (ha : a.isFinite = true) (hb : b.isFinite = true) (h : value b ≠ 0) :
    value (a / b) = nearest (value a / value b) :=
  (isRounded_div ha hb h).value_eq

theorem value_div_of_not_isFinite (ha : a.isFinite = true) (hb : b.isNaN = false)
    (hb' : ¬b.isFinite = true) : (a / b).isFinite = true ∧ value (a / b) = 0 := by
  obtain ⟨t, ht⟩ := (isFinite_or_infinity hb).resolve_left hb'
  obtain ⟨s, hs⟩ := div_infinity ha t
  have hunpack : (a / b).toModel.unpack = .zero s := by
    change (Float.Model.pack (UnpackedFloat.div _ a.toModel.unpack b.toModel.unpack)).unpack = _
    rw [ht, hs]
    exact unpack_pack_of_canonical (u := .zero s) trivial
  refine ⟨?_, ?_⟩
  · change (a / b).toModel.unpack.isFinite = true
    rw [hunpack]
    rfl
  · change number (a / b).toModel.unpack = 0
    rw [hunpack]
    rfl

/-- A rounded result is a number, of the value that is nearest to the exact one. -/
theorem IsRounded.pack {u : UnpackedFloat} {x : ℚ} (h : IsRounded u x) :
    (Float.ofModel (.pack u)).isNaN = false ∧ value (.ofModel (.pack u)) = nearest x :=
  ⟨h.isNumber.isNaN_pack, h.value_eq⟩

theorem value_add (ha : a.isFinite = true) (hb : b.isFinite = true) :
    (a + b).isNaN = false ∧ value (a + b) = nearest (value a + value b) :=
  (isRounded_add (canonical_unpack a) (canonical_unpack b) ha hb).pack

theorem value_sub (ha : a.isFinite = true) (hb : b.isFinite = true) :
    (a - b).isNaN = false ∧ value (a - b) = nearest (value a - value b) :=
  (isRounded_sub (canonical_unpack a) (canonical_unpack b) ha hb).pack

theorem value_mul (ha : a.isFinite = true) (hb : b.isFinite = true) :
    (a * b).isNaN = false ∧ value (a * b) = nearest (value a * value b) :=
  (isRounded_mul (canonical_unpack a) (canonical_unpack b) ha hb).pack

theorem unpack_abs (a : Float) : a.abs.toModel.unpack = a.toModel.unpack.abs := by
  have hformat := inFormat_abs (inFormat_unpack a.toModel.toBits.toBitVec)
  exact (unpack_pack_of_canonical hformat.canonical).trans hformat.saturated

theorem value_abs (a : Float) : value a.abs = |value a| := by
  unfold value
  rw [unpack_abs, number_abs]

theorem isNaN_abs (a : Float) : a.abs.isNaN = a.isNaN := by
  change a.abs.toModel.unpack.isNaN = a.toModel.unpack.isNaN
  rw [unpack_abs]
  cases a.toModel.unpack <;> rfl

theorem isFinite_abs (a : Float) : a.abs.isFinite = a.isFinite := by
  change a.abs.toModel.unpack.isFinite = a.toModel.unpack.isFinite
  rw [unpack_abs]
  cases a.toModel.unpack <;> rfl

theorem nearest_value (a : Float) : nearest (value a) = value a :=
  nearest_of_onGrid (onGrid_value a) (abs_value_le a)

theorem value_add_of_nonneg (ha : a.isNaN = false) (hb : b.isNaN = false) (ha0 : 0 ≤ value a)
    (hb0 : 0 ≤ value b) :
    (a + b).isNaN = false ∧ value (a + b) = nearest (value a + value b) := by
  obtain ⟨hnumber, hvalue⟩ := add_of_nonneg (canonical_unpack a) (canonical_unpack b) ha hb ha0 hb0
  exact ⟨hnumber.isNaN_pack, (value_pack hnumber.canonical).trans hvalue⟩

/-- A sum of numbers that are not negative is a number, and no summand is beyond it. -/
theorem value_le_add (ha : a.isNaN = false) (hb : b.isNaN = false) (ha0 : 0 ≤ value a)
    (hb0 : 0 ≤ value b) :
    (a + b).isNaN = false ∧ value a ≤ value (a + b) ∧ value b ≤ value (a + b) := by
  obtain ⟨hnumber, hsum⟩ := value_add_of_nonneg ha hb ha0 hb0
  refine ⟨hnumber, ?_, ?_⟩
  · calc value a = nearest (value a) := (nearest_value a).symm
      _ ≤ value (a + b) := hsum ▸ nearest_mono (by linarith)
  · calc value b = nearest (value b) := (nearest_value b).symm
      _ ≤ value (a + b) := hsum ▸ nearest_mono (by linarith)

end Operations

end BinGrade.Binary64
