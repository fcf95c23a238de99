import BinGrade.Proofs.Binary64.Root
import BinGrade.Proofs.Scalar.Unit
import BinGrade.Proofs.Shape.Detection

/-!
# Confidence of shapes

The confidence of a shape is a rounded product: of what the depth of the statistics deserves, and of
the share that the size of the sample does. Both factors are kept between zero and one whatever the
statistics and the cut points are, and rounding keeps the order, so confidence is a confidence and goes
up with the depth and with the size. At the usual cut points the depth in turn goes up and down with
the statistics that decided the shape.
-/

namespace BinGrade

open Binary64

namespace CutPoints

/-! ### The size of the sample -/

section Size

variable (c : CutPoints Float) {n n' : ℕ}

/-- The square root of the share that a sample has of the size for full confidence. -/
def sizeRoot (n : ℕ) : Float := (Float.ofNat n / Float.ofNat (max c.fullConfidenceSize 1)).sqrt

theorem sizeFactor_eq (n : ℕ) : c.sizeFactor n = Scalar.lesser (c.sizeRoot n) 1.0 := rfl

theorem value_ofNat_nonneg (n : ℕ) : 0 ≤ value (Float.ofNat n) := by
  rw [(rounds_ofNat n).value_eq]
  exact nearest_nonneg (Nat.cast_nonneg n)

theorem value_ofNat_mono (h : n ≤ n') : value (Float.ofNat n) ≤ value (Float.ofNat n') := by
  rw [(rounds_ofNat n).value_eq, (rounds_ofNat n').value_eq]
  exact nearest_mono (by exact_mod_cast h)

theorem value_sizeRoot (hn : (Float.ofNat n).isFinite = true) :
    (c.sizeRoot n).isNaN = false ∧ 0 ≤ value (c.sizeRoot n) := by
  have hsize := (rounds_ofNat (max c.fullConfidenceSize 1)).isNaN_eq
  have hpos := value_ofNat_pos (le_max_right c.fullConfidenceSize 1)
  have hshare := value_div_of_pos hn (value_ofNat_nonneg n) hsize hpos
  have hnumber : (Float.ofNat n / Float.ofNat (max c.fullConfidenceSize 1)).isNaN = false := by
    by_cases hfinite : (Float.ofNat (max c.fullConfidenceSize 1)).isFinite = true
    · exact isNaN_div_right (rounds_ofNat n).isNaN_eq hfinite hpos.ne'
    · exact isNaN_of_isFinite (value_div_of_not_isFinite hn hsize hfinite).1
  exact ⟨isNaN_sqrt hnumber hshare, value_sqrt_nonneg hnumber hshare⟩

theorem beyond_sizeRoot (hn : ¬(Float.ofNat n).isFinite = true) : Beyond (c.sizeRoot n) := by
  have hnumber := (rounds_ofNat n).isNaN_eq
  have hbeyond := beyond_of_limit_le hnumber (limit_le_value hnumber (value_ofNat_nonneg n) hn)
  exact (hbeyond.div (rounds_ofNat _).isNaN_eq
    (value_ofNat_pos (le_max_right c.fullConfidenceSize 1))).sqrt

theorem sizeRoot_mono (hn : (Float.ofNat n').isFinite = true) (h : n ≤ n') :
    value (c.sizeRoot n) ≤ value (c.sizeRoot n') := by
  have hle := value_ofNat_mono h
  have hleft := isFinite_of_value_le (rounds_ofNat n).isNaN_eq (value_ofNat_nonneg n) hle hn
  have hsize := (rounds_ofNat (max c.fullConfidenceSize 1)).isNaN_eq
  have hpos := value_ofNat_pos (le_max_right c.fullConfidenceSize 1)
  have hshare := value_div_of_pos hleft (value_ofNat_nonneg n) hsize hpos
  by_cases hfinite : (Float.ofNat (max c.fullConfidenceSize 1)).isFinite = true
  · exact value_sqrt_mono (isNaN_div_right (rounds_ofNat n).isNaN_eq hfinite hpos.ne')
      (isNaN_div_right (rounds_ofNat n').isNaN_eq hfinite hpos.ne') hshare
      (value_div_mono (rounds_ofNat n).isNaN_eq (rounds_ofNat n').isNaN_eq (value_ofNat_nonneg n)
        hle hfinite hpos)
  · -- every finite count is nothing against an infinite size
    obtain ⟨hzero, hvalue⟩ := value_div_of_not_isFinite hleft hsize hfinite
    obtain ⟨hzero', hvalue'⟩ := value_div_of_not_isFinite hn hsize hfinite
    exact value_sqrt_mono (isNaN_of_isFinite hzero) (isNaN_of_isFinite hzero') hshare
      (hvalue.trans hvalue'.symm).le

theorem lesser_one_of_beyond {x : Float} (h : Beyond x) : Scalar.lesser x 1.0 = 1.0 := by
  unfold Scalar.lesser
  split
  · rfl
  · next hnumber =>
    have hone : (1.0 : Float) < x := by
      rw [lt_iff rfl (Bool.eq_false_iff.mpr hnumber), h.value_eq (Bool.eq_false_iff.mpr hnumber)]
      exact value_one ▸ one_lt_limit
    rw [if_pos hone]

theorem sizeFactor_bounds (n : ℕ) : (0.0 : Float) ≤ c.sizeFactor n ∧ c.sizeFactor n ≤ 1.0 := by
  rw [sizeFactor_eq]
  by_cases hn : (Float.ofNat n).isFinite = true
  · obtain ⟨hnumber, hnonneg⟩ := c.value_sizeRoot hn
    refine ⟨?_, (Scalar.lesser_le hnumber rfl).2⟩
    rcases Scalar.lesser_eq_or (c.sizeRoot n) 1.0 with h | h
    · rw [h]
      exact (le_iff rfl hnumber).mpr hnonneg
    · rw [h]
      exact Scalar.unit_ordered
  · rw [lesser_one_of_beyond (c.beyond_sizeRoot hn)]
    exact ⟨Scalar.unit_ordered, Scalar.Ordered.le_refl rfl⟩

theorem within_sizeFactor (n : ℕ) : Within 0 1024 (c.sizeFactor n) :=
  Scalar.within_of_bounds (c.sizeFactor_bounds n).1 (c.sizeFactor_bounds n).2

theorem sizeFactor_mono (h : n ≤ n') : c.sizeFactor n ≤ c.sizeFactor n' := by
  by_cases hn : (Float.ofNat n').isFinite = true
  · have hleft := isFinite_of_value_le (rounds_ofNat n).isNaN_eq (value_ofNat_nonneg n)
      (value_ofNat_mono h) hn
    have hle : c.sizeRoot n ≤ c.sizeRoot n' :=
      (le_iff (c.value_sizeRoot hleft).1 (c.value_sizeRoot hn).1).mpr (c.sizeRoot_mono hn h)
    exact Scalar.lesser_le_lesser hle (Scalar.Ordered.le_refl rfl)
  · have hone : c.sizeFactor n' = 1.0 := lesser_one_of_beyond (c.beyond_sizeRoot hn)
    rw [hone]
    exact (c.sizeFactor_bounds n).2

end Size

/-! ### Depth and confidence -/

section Depth

variable {a b factor factor' : Float} {d : Distribution}

/-- The part of the depth that counts. -/
def inside (depth : Float) : Float :=
  if depth.isFinite = true then Scalar.clamp 0.0 1.0 depth else 0.0

theorem inside_of_isFinite (h : a.isFinite = true) : inside a = Scalar.unit a := by
  rw [inside, if_pos h, Scalar.clamp_eq_unit (isNaN_of_isFinite h)]

theorem inside_of_not_isFinite (h : ¬a.isFinite = true) : inside a = 0.0 := if_neg h

theorem within_inside (depth : Float) : Within 0 1024 (inside depth) := by
  by_cases h : depth.isFinite = true
  · rw [inside_of_isFinite h]
    exact Scalar.within_unit depth
  · rw [inside_of_not_isFinite h]
    exact Scalar.within_of_bounds (Scalar.Ordered.le_refl rfl) Scalar.unit_ordered

theorem inside_mono (h : a ≤ b) (hb : b.isFinite = true) : inside a ≤ inside b := by
  rw [inside_of_isFinite hb]
  by_cases ha : a.isFinite = true
  · rw [inside_of_isFinite ha]
    exact Scalar.unit_mono h
  · rw [inside_of_not_isFinite ha]
    exact (Scalar.unit_bounds b).1

theorem inside_le_full (depth : Float) : inside depth ≤ inside 1.0 := by
  have hself : ¬(1.0 : Float) < 1.0 := Scalar.not_lt_of_le (Scalar.Ordered.le_refl rfl)
  have hfull : inside 1.0 = 1.0 := (inside_of_isFinite rfl).trans
    (Scalar.unit_of_between rfl (Scalar.not_lt_of_le Scalar.unit_ordered) hself)
  have hdepth := within_inside depth
  rw [hfull, le_iff hdepth.isNaN_eq rfl, value_one]
  exact hdepth.le_one

/-- The confidence before it is clamped. -/
def deserved (d : Distribution) (depth factor : Float) : Float :=
  (baseConfidence d + spanConfidence d * inside depth) * factor

theorem confidence_eq (d : Distribution) (depth factor : Float) :
    confidence d depth factor = Scalar.clamp 0.0 1.0 (deserved d depth factor) := rfl

theorem within_parts (d : Distribution) :
    Within 0 512 (baseConfidence d) ∧ Within 0 512 (spanConfidence d) := by
  have hfallback : Within 0 512 0.4 := ⟨rfl, by decide +kernel, by decide +kernel⟩
  have hhalf : Within 0 512 0.5 := ⟨rfl, by decide +kernel, by decide +kernel⟩
  cases d with
  | quasiNormal => exact ⟨hfallback, hfallback⟩
  | _ => exact ⟨hhalf, hhalf⟩

theorem within_gained (d : Distribution) (depth : Float) :
    Within 0 512 (spanConfidence d * inside depth) :=
  (within_parts d).2.mul (within_inside depth) (by norm_num) (by norm_num) (by norm_num)

theorem within_sum (d : Distribution) (depth : Float) :
    Within 0 1024 (baseConfidence d + spanConfidence d * inside depth) :=
  (within_parts d).1.add (within_gained d depth) (by norm_num)

theorem within_deserved (hfactor : Within 0 1024 factor) (d : Distribution) (depth : Float) :
    Within 0 1024 (deserved d depth factor) :=
  (within_sum d depth).mul hfactor (by norm_num) (by norm_num) (by norm_num)

theorem confidence_bounds (hfactor : Within 0 1024 factor) (d : Distribution) (depth : Float) :
    (0.0 : Float) ≤ confidence d depth factor ∧ confidence d depth factor ≤ 1.0 := by
  rw [confidence_eq, Scalar.clamp_eq_unit (within_deserved hfactor d depth).isNaN_eq]
  exact Scalar.unit_bounds _

theorem deserved_mono (hfactor : Within 0 1024 factor) (hfactor' : Within 0 1024 factor')
    (hinside : inside a ≤ inside b) (hle : factor ≤ factor') :
    deserved d a factor ≤ deserved d b factor' := by
  have hspan := (within_parts d).2
  have hgained : value (spanConfidence d * inside a) ≤ value (spanConfidence d * inside b) := by
    rw [(value_mul hspan.isFinite (within_inside a).isFinite).2,
      (value_mul hspan.isFinite (within_inside b).isFinite).2]
    exact nearest_mono (mul_le_mul_of_nonneg_left
      ((le_iff (within_inside a).isNaN_eq (within_inside b).isNaN_eq).mp hinside) hspan.nonneg)
  have hsum : value (baseConfidence d + spanConfidence d * inside a)
      ≤ value (baseConfidence d + spanConfidence d * inside b) :=
    value_add_mono (within_parts d).1.isNaN_eq (within_gained d a).isNaN_eq
      (within_gained d b).isNaN_eq (within_parts d).1.nonneg (within_gained d a).nonneg hgained
  rw [le_iff (within_deserved hfactor d a).isNaN_eq (within_deserved hfactor' d b).isNaN_eq]
  unfold deserved
  rw [(value_mul (within_sum d a).isFinite hfactor.isFinite).2,
    (value_mul (within_sum d b).isFinite hfactor'.isFinite).2]
  exact nearest_mono (mul_le_mul hsum ((le_iff hfactor.isNaN_eq hfactor'.isNaN_eq).mp hle)
    hfactor.nonneg (within_sum d b).nonneg)

/-- Confidence goes up with the depth that counts and with the factor. -/
theorem confidence_mono (hfactor : Within 0 1024 factor) (hfactor' : Within 0 1024 factor')
    (hinside : inside a ≤ inside b) (hle : factor ≤ factor') :
    confidence d a factor ≤ confidence d b factor' := by
  rw [confidence_eq, confidence_eq, Scalar.clamp_eq_unit (within_deserved hfactor d a).isNaN_eq,
    Scalar.clamp_eq_unit (within_deserved hfactor' d b).isNaN_eq]
  exact Scalar.unit_mono (deserved_mono hfactor hfactor' hinside hle)

end Depth

/-! ### Shapes -/

section Shapes

variable {α : Type} [Scalar α] {c : CutPoints α} {p : Moments α} {modes : ModeSummary α}

/-- How deep statistics lie in the range of a shape. -/
def depthIn (c : CutPoints α) (p : Moments α) (modes : ModeSummary α) : Distribution → α
  | .multimodal => modes.separation
  | .leptokurtic => (p.excessKurtosis - c.leptokurticExcess) / c.leptokurticExcess
  | .asymmetric => Scalar.abs p.skewness - c.asymmetricSkewness
  | .normal => Scalar.lesser ((c.normalSkewness - Scalar.abs p.skewness) / c.normalSkewness)
      ((c.normalExcess - Scalar.abs p.excessKurtosis) / c.normalExcess)
  | .quasiNormal => Scalar.lesser
      ((c.asymmetricSkewness - Scalar.abs p.skewness) / (c.asymmetricSkewness - c.normalSkewness))
      ((c.leptokurticExcess - p.excessKurtosis) / (c.leptokurticExcess - c.normalExcess))

/-- The bounds that statistics of a shape keep. -/
def Keeps (c : CutPoints α) (p : Moments α) (modes : ModeSummary α) : Distribution → Prop
  | .multimodal => c.minModeSeparation ≤ modes.separation
  | .leptokurtic => c.leptokurticExcess < p.excessKurtosis
  | .asymmetric => c.asymmetricSkewness ≤ Scalar.abs p.skewness
  | .normal => Scalar.abs p.skewness < c.normalSkewness
      ∧ Scalar.abs p.excessKurtosis < c.normalExcess
  | .quasiNormal => True

theorem exists_classify_eq (c : CutPoints α) (p : Moments α) (modes : ModeSummary α) :
    ∃ d, c.classify p modes = (d, c.depthIn p modes d) ∧ c.Keeps p modes d := by
  unfold classify
  dsimp only
  split_ifs with hmodes htails hskew hnormal
  · rw [Bool.and_eq_true, decide_eq_true_eq, decide_eq_true_eq] at hmodes
    exact ⟨.multimodal, rfl, hmodes.2⟩
  · exact ⟨.leptokurtic, rfl, htails⟩
  · exact ⟨.asymmetric, rfl, hskew⟩
  · rw [Bool.and_eq_true, decide_eq_true_eq, decide_eq_true_eq] at hnormal
    exact ⟨.normal, rfl, hnormal⟩
  · exact ⟨.quasiNormal, rfl, trivial⟩

end Shapes

/-! ### The usual cut points -/

section Standard

variable {a b r : Float} {p q : Moments Float} {modes modes' : ModeSummary Float}

/-- The room below a bound, relative to the bound, grows if the statistic gets smaller. -/
theorem room_anti (hr : r.isFinite = true) (h0 : 0 ≤ value a) (hab : a ≤ b) (hbr : b < r) :
    (r - b) / r ≤ (r - a) / r ∧ ((r - a) / r).isFinite = true := by
  obtain ⟨ha, hb⟩ := isNaN_of_le hab
  have hle := (le_iff ha hb).mp hab
  have hlt := (lt_iff hb (isNaN_of_isFinite hr)).mp hbr
  have hpos : 0 < value r := by linarith
  have hbfinite := isFinite_of_value_le hb (h0.trans hle) hlt.le hr
  have hafinite := isFinite_of_value_le ha h0 hle hbfinite
  obtain ⟨hleft, hleft0, _⟩ := isFinite_sub_of_le hbfinite hr (h0.trans hle) hlt.le
  obtain ⟨hright, hright0, hroom⟩ := isFinite_sub_of_le hafinite hr h0 (hle.trans hlt.le)
  have hone : value (r - a) / value r ≤ value (1.0 : Float) := by
    rw [value_one, div_le_one hpos]
    exact hroom
  exact ⟨div_mono hleft hright hr hpos (sub_anti hafinite hbfinite hr hab),
    isFinite_div_of_le hright rfl hr hright0 hpos hone⟩

/-- What a statistic has beyond a bound, relative to the bound. -/
theorem surplus_mono (hr : r.isFinite = true) (hone : 1 ≤ value r) (hb : b.isFinite = true)
    (hra : r < a) (hab : a ≤ b) :
    (a - r) / r ≤ (b - r) / r ∧ ((b - r) / r).isFinite = true := by
  obtain ⟨hnumber, _⟩ := isNaN_of_le hab
  have hle := (le_iff hnumber (isNaN_of_isFinite hb)).mp hab
  have hlt := (lt_iff (isNaN_of_isFinite hr) hnumber).mp hra
  have ha := isFinite_of_value_le hnumber (by linarith) hle hb
  obtain ⟨hleft, _, _⟩ := isFinite_sub_of_le hr ha (by linarith) hlt.le
  obtain ⟨hright, hright0, _⟩ := isFinite_sub_of_le hr hb (by linarith) (hlt.le.trans hle)
  exact ⟨div_mono hleft hright hr (by linarith) (sub_mono ha hb hr hab),
    isFinite_div_of_le hright hright hr hright0 (by linarith) (div_le_self hright0 hone)⟩

theorem value_abs_nonneg (x : Float) : 0 ≤ value x.abs := by
  rw [value_abs]
  exact abs_nonneg _

theorem depthIn_leptokurtic_mono (hq : q.excessKurtosis.isFinite = true)
    (hkeeps : standard.Keeps p modes .leptokurtic) (h : p.excessKurtosis ≤ q.excessKurtosis) :
    standard.depthIn p modes .leptokurtic ≤ standard.depthIn q modes' .leptokurtic
      ∧ (standard.depthIn q modes' .leptokurtic).isFinite = true :=
  surplus_mono (r := 2.0) rfl (value_two ▸ one_le_two) hq hkeeps h

theorem depthIn_asymmetric_mono (hq : q.skewness.isFinite = true)
    (hkeeps : standard.Keeps p modes .asymmetric) (h : p.skewness.abs ≤ q.skewness.abs) :
    standard.depthIn p modes .asymmetric ≤ standard.depthIn q modes' .asymmetric
      ∧ (standard.depthIn q modes' .asymmetric).isFinite = true := by
  have hfinite : q.skewness.abs.isFinite = true := (isFinite_abs _).trans hq
  have hone : (1.0 : Float) ≤ p.skewness.abs := hkeeps
  obtain ⟨hp, _⟩ := isNaN_of_le h
  have hle := (le_iff hp (isNaN_of_isFinite hfinite)).mp h
  have hfull : value (1.0 : Float) ≤ value p.skewness.abs := (le_iff rfl hp).mp hone
  exact ⟨sub_mono (isFinite_of_value_le hp (value_abs_nonneg _) hle hfinite) hfinite rfl h,
    (isFinite_sub_of_le rfl hfinite (value_one ▸ zero_le_one) (hfull.trans hle)).1⟩

theorem depthIn_normal_anti (hkeeps : standard.Keeps p modes .normal)
    (hskew : q.skewness.abs ≤ p.skewness.abs)
    (hexcess : q.excessKurtosis.abs ≤ p.excessKurtosis.abs) :
    standard.depthIn p modes .normal ≤ standard.depthIn q modes' .normal
      ∧ (standard.depthIn q modes' .normal).isFinite = true := by
  obtain ⟨hleft, hleft'⟩ := room_anti (r := 0.5) rfl (value_abs_nonneg _) hskew hkeeps.1
  obtain ⟨hright, hright'⟩ := room_anti (r := 1.0) rfl (value_abs_nonneg _) hexcess hkeeps.2
  refine ⟨Scalar.lesser_le_lesser hleft hright, ?_⟩
  rcases Scalar.lesser_eq_or ((0.5 - q.skewness.abs) / 0.5) ((1.0 - q.excessKurtosis.abs) / 1.0)
    with h | h
  · exact (congrArg Float.isFinite h).trans hleft'
  · exact (congrArg Float.isFinite h).trans hright'

theorem isFinite_excessKurtosis (h : p.kurtosis.isFinite = true) :
    p.excessKurtosis.isFinite = true := by
  obtain ⟨hnumber, hvalue⟩ := value_sub h (show (3.0 : Float).isFinite = true from rfl)
  have hmax := value_le_of_isFinite ((isFinite_abs p.kurtosis).trans h)
  rw [value_abs] at hmax
  have hdistance : |value p.kurtosis - value (3.0 : Float)| ≤ |value p.kurtosis| + 3 := by
    rw [value_three]
    exact (abs_sub _ _).trans (by norm_num)
  refine (isFinite_iff hnumber).mpr ?_
  rw [hvalue, abs_nearest]
  exact nearest_lt_limit (by linarith)

end Standard

end CutPoints

/-! ### Labels -/

namespace Classifier

section Label

variable {c : Classifier Float} {p q : Moments Float} {modes modes' : ModeSummary Float} {n n' : ℕ}
  {d : Distribution}

theorem confidence_labelFrom (h : (c.labelFrom p modes n).distribution = d) :
    (c.labelFrom p modes n).confidence
        = CutPoints.confidence d (c.cutPoints.depthIn p modes d) (c.cutPoints.sizeFactor n)
      ∧ c.cutPoints.Keeps p modes d := by
  obtain ⟨k, hclassify, hkeeps⟩ := c.cutPoints.exists_classify_eq p modes
  have hlabel : c.labelFrom p modes n
      = ⟨k, CutPoints.confidence k (c.cutPoints.depthIn p modes k) (c.cutPoints.sizeFactor n),
          p.skewness, p.excessKurtosis, some modes.modeCount⟩ := by
    unfold labelFrom
    rw [hclassify]
  rw [hlabel] at h ⊢
  obtain rfl : k = d := h
  exact ⟨rfl, hkeeps⟩

theorem labelFrom_bounds (c : Classifier Float) (p : Moments Float) (modes : ModeSummary Float) (n : ℕ) :
    (0.0 : Float) ≤ (c.labelFrom p modes n).confidence ∧ (c.labelFrom p modes n).confidence ≤ 1.0 :=
  CutPoints.confidence_bounds (c.cutPoints.within_sizeFactor n) _ _

theorem labelFrom_le_of_quasiNormal (h : (c.labelFrom p modes n).distribution = .quasiNormal) :
    (c.labelFrom p modes n).confidence ≤ 0.8 := by
  have hfull : CutPoints.confidence .quasiNormal 1.0 1.0 ≤ (0.8 : Float) := by decide +kernel
  have hone : Within 0 1024 1.0 :=
    Scalar.within_of_bounds Scalar.unit_ordered (Scalar.Ordered.le_refl rfl)
  rw [(confidence_labelFrom h).1]
  exact Scalar.Ordered.le_trans (CutPoints.confidence_mono (c.cutPoints.within_sizeFactor n) hone
    (CutPoints.inside_le_full _) (c.cutPoints.sizeFactor_bounds n).2) hfull

theorem labelFrom_mono_size (h : n ≤ n') :
    (c.labelFrom p modes n).confidence ≤ (c.labelFrom p modes n').confidence :=
  CutPoints.confidence_mono (c.cutPoints.within_sizeFactor n) (c.cutPoints.within_sizeFactor n')
    (Scalar.Ordered.le_refl (CutPoints.within_inside _).isNaN_eq) (c.cutPoints.sizeFactor_mono h)

/-- Of two labels of one shape and size, the one with more depth has more confidence. -/
theorem labelFrom_mono_depth (hp : (c.labelFrom p modes n).distribution = d)
    (hq : (c.labelFrom q modes' n).distribution = d)
    (hle : c.cutPoints.depthIn p modes d ≤ c.cutPoints.depthIn q modes' d)
    (hfinite : (c.cutPoints.depthIn q modes' d).isFinite = true) :
    (c.labelFrom p modes n).confidence ≤ (c.labelFrom q modes' n).confidence := by
  have hfactor := c.cutPoints.within_sizeFactor n
  rw [(confidence_labelFrom hp).1, (confidence_labelFrom hq).1]
  exact CutPoints.confidence_mono hfactor hfactor (CutPoints.inside_mono hle hfinite)
    (Scalar.Ordered.le_refl hfactor.isNaN_eq)

end Label

/-- The statistics that shapes are told apart by are finite numbers. -/
structure FiniteStatistics (p : Moments Float) (modes : ModeSummary Float) : Prop where
  skewness : p.skewness.isFinite = true
  kurtosis : p.kurtosis.isFinite = true
  separation : modes.separation.isFinite = true

/-- Whatever the cut points and the statistics are, the size of the sample does not change the shape,
and confidence is a number in the unit interval that goes up with the size; of the fallback shape it is
never full. At the usual cut points, of two labels of one shape and size the one with the clearer
statistics has at least the confidence of the other. -/
theorem labelFrom_bounded_and_monotone :
    (∀ (c : Classifier Float) (p : Moments Float) (modes : ModeSummary Float) (n : ℕ),
      (∀ n', (c.labelFrom p modes n').distribution = (c.labelFrom p modes n).distribution) ∧
      (c.labelFrom p modes n).confidence.isNaN = false ∧
      (0.0 : Float) ≤ (c.labelFrom p modes n).confidence ∧
      (c.labelFrom p modes n).confidence ≤ 1.0 ∧
      ((c.labelFrom p modes n).distribution = .quasiNormal →
        (c.labelFrom p modes n).confidence ≤ 0.8) ∧
      ∀ n', n ≤ n' → (c.labelFrom p modes n).confidence ≤ (c.labelFrom p modes n').confidence) ∧
    ∀ (c : Classifier Float) (p q : Moments Float) (modes modes' : ModeSummary Float) (n : ℕ),
      c.cutPoints = .standard → FiniteStatistics p modes → FiniteStatistics q modes' →
      (c.labelFrom p modes n).distribution = (c.labelFrom q modes' n).distribution →
      ((c.labelFrom p modes n).distribution = .leptokurtic → p.excessKurtosis ≤ q.excessKurtosis →
        (c.labelFrom p modes n).confidence ≤ (c.labelFrom q modes' n).confidence) ∧
      ((c.labelFrom p modes n).distribution = .asymmetric → p.skewness.abs ≤ q.skewness.abs →
        (c.labelFrom p modes n).confidence ≤ (c.labelFrom q modes' n).confidence) ∧
      ((c.labelFrom p modes n).distribution = .multimodal → modes.separation ≤ modes'.separation →
        (c.labelFrom p modes n).confidence ≤ (c.labelFrom q modes' n).confidence) ∧
      ((c.labelFrom p modes n).distribution = .normal → q.skewness.abs ≤ p.skewness.abs →
        q.excessKurtosis.abs ≤ p.excessKurtosis.abs →
        (c.labelFrom p modes n).confidence ≤ (c.labelFrom q modes' n).confidence) := by
  refine ⟨?_, ?_⟩
  · intro c p modes n
    obtain ⟨hlow, hhigh⟩ := labelFrom_bounds c p modes n
    exact ⟨fun _ => rfl, (isNaN_of_le hlow).2, hlow, hhigh,
      labelFrom_le_of_quasiNormal, fun n' => labelFrom_mono_size⟩
  · rintro ⟨_, config⟩ p q modes modes' n rfl hp hq htag
    refine ⟨?_, ?_, ?_, ?_⟩
    · intro hshape hle
      obtain ⟨hdepth, hfinite⟩ := CutPoints.depthIn_leptokurtic_mono
        (CutPoints.isFinite_excessKurtosis hq.kurtosis) (confidence_labelFrom hshape).2 hle
      exact labelFrom_mono_depth hshape (htag ▸ hshape) hdepth hfinite
    · intro hshape hle
      obtain ⟨hdepth, hfinite⟩ :=
        CutPoints.depthIn_asymmetric_mono hq.skewness (confidence_labelFrom hshape).2 hle
      exact labelFrom_mono_depth hshape (htag ▸ hshape) hdepth hfinite
    · intro hshape hle
      exact labelFrom_mono_depth hshape (htag ▸ hshape) hle hq.separation
    · intro hshape hskew hexcess
      obtain ⟨hdepth, hfinite⟩ :=
        CutPoints.depthIn_normal_anti (confidence_labelFrom hshape).2 hskew hexcess
      exact labelFrom_mono_depth hshape (htag ▸ hshape) hdepth hfinite

/-- Statistics of a sample with a single mode, of some skewness and kurtosis. -/
def singleMode (skewness kurtosis : Float) : Moments Float × ModeSummary Float :=
  (⟨0.0, 1.0, skewness, kurtosis⟩, ⟨1, 0.0, [0.0]⟩)

theorem heavierTails_more_confident :
    let label (skewness kurtosis : Float) := (standard : Classifier Float).labelFrom
      (singleMode skewness kurtosis).1 (singleMode skewness kurtosis).2 50
    (label 0.0 6.0).distribution = .leptokurtic ∧ (label 0.0 7.0).distribution = .leptokurtic ∧
      (label 0.0 6.0).confidence ≤ (label 0.0 7.0).confidence ∧
      (label 0.7 3.0).distribution = .quasiNormal ∧ (label 0.7 3.0).confidence ≤ 0.8 := by
  have htails (k : Float) (hk : k = 6.0 ∨ k = 7.0) : ((standard : Classifier Float).labelFrom
      (singleMode 0.0 k).1 (singleMode 0.0 k).2 50).distribution = .leptokurtic := by
    rcases hk with rfl | rfl <;> decide +kernel
  have hskewed : ((standard : Classifier Float).labelFrom (singleMode 0.7 3.0).1
      (singleMode 0.7 3.0).2 50).distribution = .quasiNormal := by decide +kernel
  obtain ⟨hbounded, hmono⟩ := labelFrom_bounded_and_monotone
  have hsix := htails 6.0 (.inl rfl)
  have hseven := htails 7.0 (.inr rfl)
  have hle : (singleMode 0.0 6.0).1.excessKurtosis ≤ (singleMode 0.0 7.0).1.excessKurtosis := by
    decide +kernel
  exact ⟨hsix, hseven, (hmono standard _ _ _ _ 50 rfl ⟨rfl, rfl, rfl⟩ ⟨rfl, rfl, rfl⟩
    (hsix.trans hseven.symm)).1 hsix hle, hskewed, (hbounded standard _ _ 50).2.2.2.2.1 hskewed⟩

end Classifier

end BinGrade
