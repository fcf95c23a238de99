import BinGrade.Proofs.Binary64.Order

/-!
# Signs of doubles

A double is known from what it unpacks to. There are two zeros, which are equal in value and differ in
their signs, and there is one double that is no number. So a product with a zero is again that zero,
as long as the other factor is finite and has no sign of its own to add.
-/

namespace BinGrade.Binary64

open Float.Model Float.Model.UnpackedFloat

/-! ### Patterns -/

/-- The sign of an unpacked double; what is no number counts as positive. -/
def sign : UnpackedFloat → Sign
  | .infinity s => s
  | .zero s => s
  | .finite s _ _ _ => s
  | .notANumber => .positive

theorem sign_unpack {bits : BitVec Format.binary64.numBits}
    (h : (UnpackedFloat.unpack Format.binary64 bits).isNaN = false) :
    sign (UnpackedFloat.unpack Format.binary64 bits)
      = if bits.toNat < 2 ^ 63 then .positive else .negative := by
  rw [← ofBitVec_unpackSign]
  unfold UnpackedFloat.unpack at h ⊢
  dsimp only at h ⊢
  split_ifs at h ⊢
  · rfl
  · cases h
  · rfl
  · rfl
  · rfl

theorem signed_injective (s : Sign) : Function.Injective (signed s) := by
  intro x y h
  cases s with
  | negative => exact neg_injective h
  | positive => exact h

theorem toNat_toBits_of_value_eq {a b : Float} (ha : a.isNaN = false) (hb : b.isNaN = false)
    (hsign : a.toBits.toNat < 2 ^ 63 ↔ b.toBits.toNat < 2 ^ 63) (h : value a = value b) :
    a.toBits.toNat = b.toBits.toNat := by
  rw [value_of_isNaN_eq_false ha, value_of_isNaN_eq_false hb, if_congr hsign rfl rfl] at h
  have hmagnitude := mul_right_cancel₀ (two_zpow_pos (-1074)).ne' (signed_injective _ h)
  have hrest := magnitude_strictMono.injective (Nat.cast_injective hmagnitude)
  have hlt : a.toBits.toNat < 2 ^ 64 := a.toBits.toNat_lt
  have hlt' : b.toBits.toNat < 2 ^ 64 := b.toBits.toNat_lt
  omega

theorem toNat_toBits_of_unpack_eq {a b : Float} (ha : a.isNaN = false)
    (h : a.toModel.unpack = b.toModel.unpack) : a.toBits.toNat = b.toBits.toNat := by
  have hb : b.isNaN = false := by
    change b.toModel.unpack.isNaN = false
    rw [← h]
    exact ha
  have hsign : (if a.toBits.toNat < 2 ^ 63 then Sign.positive else .negative)
      = if b.toBits.toNat < 2 ^ 63 then .positive else .negative :=
    (sign_unpack ha).symm.trans ((congrArg sign h).trans (sign_unpack hb))
  refine toNat_toBits_of_value_eq ha hb ?_ (congrArg number h)
  split_ifs at hsign <;> omega

theorem toBits_of_isNaN {a : Float} (ha : a.isNaN = true) :
    a.toBits.toBitVec = packedNaN Format.binary64 := by
  have hvalid := a.toModel.valid
  change (UnpackedFloat.unpack Format.binary64 a.toBits.toBitVec).isNaN = true at ha
  change Format.binary64.Valid a.toBits.toBitVec at hvalid
  unfold UnpackedFloat.unpack at ha
  dsimp only at ha
  split_ifs at ha with hones hmantissa
  · cases ha
  · exact hvalid.eq_packedNaN hones hmantissa
  · cases ha
  · cases ha
  · cases ha

theorem eq_of_toBits_eq {a b : Float} (h : a.toBits = b.toBits) : a = b := by
  obtain ⟨⟨bits, _⟩⟩ := a
  obtain ⟨⟨bits', _⟩⟩ := b
  change bits = bits' at h
  subst h
  rfl

theorem eq_of_unpack_eq {a b : Float} (h : a.toModel.unpack = b.toModel.unpack) : a = b := by
  apply eq_of_toBits_eq
  cases ha : a.isNaN with
  | false => exact UInt64.toNat_inj.mp (toNat_toBits_of_unpack_eq ha h)
  | true =>
    have hb : b.isNaN = true := by
      change b.toModel.unpack.isNaN = true
      rw [← h]
      exact ha
    exact UInt64.toBitVec_inj.mp ((toBits_of_isNaN ha).trans (toBits_of_isNaN hb).symm)

theorem eq_of_value_eq {a b : Float} (ha : a.isNaN = false) (hb : b.isNaN = false)
    (hsign : a.toBits.toNat < 2 ^ 63 ↔ b.toBits.toNat < 2 ^ 63) (h : value a = value b) : a = b :=
  eq_of_toBits_eq (UInt64.toNat_inj.mp (toNat_toBits_of_value_eq ha hb hsign h))

theorem toNat_toBits_lt_iff {a : Float} (ha : a.isNaN = false) (hne : value a ≠ 0) :
    a.toBits.toNat < 2 ^ 63 ↔ 0 < value a := by
  have hmagnitude : (0 : ℚ) ≤ magnitude (a.toBits.toNat % 2 ^ 63) * 2 ^ (-1074 : ℤ) :=
    mul_nonneg (Nat.cast_nonneg _) (two_zpow_pos _).le
  rw [value_of_isNaN_eq_false ha] at hne ⊢
  by_cases hsign : a.toBits.toNat < 2 ^ 63
  · rw [if_pos hsign] at hne ⊢
    exact iff_of_true hsign (hmagnitude.lt_of_ne hne.symm)
  · rw [if_neg hsign]
    exact iff_of_false hsign (not_lt.mpr (neg_nonpos.mpr hmagnitude))

/-- Away from zero, a double is known from its value. -/
theorem eq_of_value_eq_of_ne_zero {a b : Float} (ha : a.isNaN = false) (hb : b.isNaN = false)
    (hne : value a ≠ 0) (h : value a = value b) : a = b := by
  refine eq_of_value_eq ha hb ?_ h
  rw [toNat_toBits_lt_iff ha hne, toNat_toBits_lt_iff hb (h ▸ hne), h]

/-! ### Negation -/

theorem inFormat_neg {u : UnpackedFloat} (h : InFormat u) : InFormat u.neg := by
  obtain ⟨hcanonical, hsaturated⟩ := h
  refine ⟨canonical_neg hcanonical, ?_⟩
  cases u with
  | finite s m e hm =>
    by_cases he : e ≤ 971
    · exact if_pos he
    · rw [saturate, if_neg he] at hsaturated
      cases hsaturated
  | _ => rfl

theorem unpack_neg (a : Float) : (-a).toModel.unpack = a.toModel.unpack.neg := by
  have hformat := inFormat_neg (inFormat_unpack a.toModel.toBits.toBitVec)
  exact (unpack_pack_of_canonical hformat.canonical).trans hformat.saturated

theorem value_neg (a : Float) : value (-a) = -value a := by
  unfold value
  rw [unpack_neg, number_neg]

theorem isNaN_neg (a : Float) : (-a).isNaN = a.isNaN := by
  change (-a).toModel.unpack.isNaN = a.toModel.unpack.isNaN
  rw [unpack_neg]
  cases a.toModel.unpack <;> rfl

/-! ### Numbers without a sign -/

theorem abs_roundWithAccuracy (m : ℕ) (e : ℤ) (acc : Accuracy) :
    (roundWithAccuracy Format.binary64 .positive m e acc).abs
      = roundWithAccuracy Format.binary64 .positive m e acc := by
  unfold roundWithAccuracy
  dsimp only
  split <;> rfl

theorem canonical_mul {u v : UnpackedFloat} (hu : Canonical u) (hv : Canonical v) :
    Canonical (UnpackedFloat.mul Format.binary64 u v) := by
  cases u with
  | notANumber => trivial
  | infinity s => cases v <;> trivial
  | zero s => cases v <;> trivial
  | finite s m d hm =>
    cases v with
    | finite t n e hn => exact (isRounded_mul_finite (s * t) hm hn hu.2.2 hv.2.2).canonical
    | _ => trivial

theorem canonical_div (u v : UnpackedFloat) : Canonical (UnpackedFloat.div Format.binary64 u v) := by
  cases u with
  | notANumber => trivial
  | infinity s => cases v <;> trivial
  | zero s => cases v <;> trivial
  | finite s m d hm =>
    cases v with
    | finite t n e hn => exact (isRounded_div_finite (s / t) hm hn d e).canonical
    | _ => trivial

theorem abs_mul_unpacked {u v : UnpackedFloat} (hu : u.abs = u) (hv : v.abs = v) :
    (UnpackedFloat.mul Format.binary64 u v).abs = UnpackedFloat.mul Format.binary64 u v := by
  rw [← hu, ← hv]
  cases u <;> cases v <;> first | rfl | exact abs_roundWithAccuracy _ _ _

theorem abs_div_unpacked {u v : UnpackedFloat} (hu : u.abs = u) (hv : v.abs = v) :
    (UnpackedFloat.div Format.binary64 u v).abs = UnpackedFloat.div Format.binary64 u v := by
  rw [← hu, ← hv]
  cases u <;> cases v <;> first | rfl | exact abs_roundWithAccuracy _ _ _

theorem abs_pack {u : UnpackedFloat} (hu : Canonical u) (h : u.abs = u) :
    (Float.ofModel (.pack u)).abs = .ofModel (.pack u) := by
  apply eq_of_unpack_eq
  rw [unpack_abs]
  change (Float.Model.pack u).unpack.abs = (Float.Model.pack u).unpack
  rw [unpack_pack_of_canonical hu, ← h]
  cases u with
  | finite s m e hm => by_cases he : e ≤ 971 <;> simp [UnpackedFloat.abs, saturate, he]
  | _ => rfl

section Unsigned

variable {a b : Float}

theorem abs_unpack (ha : a.abs = a) : a.toModel.unpack.abs = a.toModel.unpack := by
  rw [← unpack_abs, ha]

theorem abs_abs (a : Float) : a.abs.abs = a.abs := by
  apply eq_of_unpack_eq
  rw [unpack_abs, unpack_abs]
  cases a.toModel.unpack <;> rfl

theorem abs_mul_of_abs (ha : a.abs = a) (hb : b.abs = b) : (a * b).abs = a * b :=
  abs_pack (canonical_mul (canonical_unpack a) (canonical_unpack b))
    (abs_mul_unpacked (abs_unpack ha) (abs_unpack hb))

theorem abs_div_of_abs (ha : a.abs = a) (hb : b.abs = b) : (a / b).abs = a / b :=
  abs_pack (canonical_div _ _) (abs_div_unpacked (abs_unpack ha) (abs_unpack hb))

end Unsigned

/-! ### Zeros -/

section Zeros

variable {a w x : Float}

theorem exists_unpack_eq_zero (hfinite : w.isFinite = true) (hzero : value w = 0) :
    ∃ s, w.toModel.unpack = .zero s := by
  change w.toModel.unpack.isFinite = true at hfinite
  change number w.toModel.unpack = 0 at hzero
  cases hu : w.toModel.unpack with
  | zero s => exact ⟨s, rfl⟩
  | finite s m e hm =>
    rw [hu] at hzero
    have hpos := magnitude_pos hm e
    cases s with
    | negative => exact absurd (neg_eq_zero.mp hzero) hpos.ne'
    | positive => exact absurd hzero hpos.ne'
  | infinity s =>
    rw [hu] at hfinite
    cases hfinite
  | notANumber =>
    rw [hu] at hfinite
    cases hfinite

theorem eq_of_pack_zero {s : Sign} (hw : w.toModel.unpack = .zero s) :
    Float.ofModel (.pack (.zero s)) = w := by
  apply eq_of_unpack_eq
  rw [hw]
  exact unpack_pack_of_canonical (u := .zero s) trivial

/-- A zero times a finite number without a sign is that zero. -/
theorem zero_mul_eq_self (hfinite : w.isFinite = true) (hzero : value w = 0)
    (hx : x.isFinite = true) (hsign : x.abs = x) : w * x = w := by
  obtain ⟨s, hw⟩ := exists_unpack_eq_zero hfinite hzero
  have hproduct : UnpackedFloat.mul Format.binary64 w.toModel.unpack x.toModel.unpack
      = .zero s := by
    have hx' : x.toModel.unpack.isFinite = true := hx
    rw [hw, ← abs_unpack hsign]
    cases hu : x.toModel.unpack with
    | zero t => cases s <;> rfl
    | finite t m e hm => cases s <;> rfl
    | infinity t =>
      rw [hu] at hx'
      cases hx'
    | notANumber =>
      rw [hu] at hx'
      cases hx'
  change Float.ofModel (.pack (UnpackedFloat.mul _ w.toModel.unpack x.toModel.unpack)) = w
  rw [hproduct]
  exact eq_of_pack_zero hw

/-- A zero times what is not finite is no number. -/
theorem isNaN_zero_mul_of_not_isFinite (hfinite : w.isFinite = true) (hzero : value w = 0)
    (hx : x.isFinite = false) : (w * x).isNaN = true := by
  obtain ⟨s, hw⟩ := exists_unpack_eq_zero hfinite hzero
  change (Float.Model.pack (UnpackedFloat.mul _ w.toModel.unpack x.toModel.unpack)).unpack.isNaN
    = true
  rw [hw]
  exact isNaN_pack (isNaN_zero_mul hx)

/-- A part of zero of a positive total, which may be infinite, is that zero. -/
theorem zero_div_eq_self (hfinite : w.isFinite = true) (hzero : value w = 0)
    (ha : a.isNaN = false) (hpos : 0 < value a) : w / a = w := by
  obtain ⟨s, hw⟩ := exists_unpack_eq_zero hfinite hzero
  have hquotient : UnpackedFloat.div Format.binary64 w.toModel.unpack a.toModel.unpack
      = .zero s := by
    change a.toModel.unpack.isNaN = false at ha
    change 0 < number a.toModel.unpack at hpos
    rw [hw]
    cases hu : a.toModel.unpack with
    | zero t =>
      rw [hu] at hpos
      exact absurd hpos (lt_irrefl 0)
    | notANumber =>
      rw [hu] at ha
      cases ha
    | infinity t =>
      rw [hu] at hpos
      obtain rfl := infinity_of_nonneg hpos.le
      cases s <;> rfl
    | finite t m e hm =>
      rw [hu] at hpos
      cases t with
      | negative => exact absurd hpos (not_lt.mpr (neg_nonpos.mpr (magnitude_pos hm e).le))
      | positive => cases s <;> rfl
  change Float.ofModel (.pack (UnpackedFloat.div _ w.toModel.unpack a.toModel.unpack)) = w
  rw [hquotient]
  exact eq_of_pack_zero hw

end Zeros

/-! ### Missing numbers in sums -/

theorem isNaN_add_of_left {u v : UnpackedFloat} (h : u.isNaN = true) :
    (UnpackedFloat.add Format.binary64 u v).isNaN = true := by
  cases u with
  | notANumber => cases v <;> rfl
  | _ => cases h

/-- What a sum takes over from either summand, it takes over from any member of a list. -/
theorem foldl_add_of_mem {P : Float → Prop} (hleft : ∀ {a b}, P a → P (a + b))
    (hright : ∀ {a b}, P b → P (a + b)) {xs : List Float} {start : Float}
    (h : P start ∨ ∃ x ∈ xs, P x) : P (xs.foldl (· + ·) start) := by
  induction xs generalizing start with
  | nil =>
    rcases h with h | ⟨x, hx, _⟩
    · exact h
    · cases hx
  | cons y xs ih =>
    rw [List.foldl_cons]
    apply ih
    rcases h with h | ⟨x, hx, hmember⟩
    · exact .inl (hleft h)
    rcases List.mem_cons.mp hx with rfl | hx
    · exact .inl (hright hmember)
    · exact .inr ⟨x, hx, hmember⟩

theorem isNaN_foldl_add {xs : List Float} {start x : Float} (hx : x ∈ xs)
    (hnan : x.isNaN = true) : (xs.foldl (· + ·) start).isNaN = true :=
  foldl_add_of_mem (P := fun a => a.isNaN = true) (fun h => isNaN_pack (isNaN_add_of_left h))
    (fun h => isNaN_pack (isNaN_add_of_right h)) (.inr ⟨x, hx, hnan⟩)

end BinGrade.Binary64
