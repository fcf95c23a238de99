import BinGrade.Proofs.Weight.Strength

/-!
# The share of the use

Of a blend the use keeps what the pulls leave. Without rounding that is never negative, and the blend
is scaled to sum to one. With rounding, pulls that are cut down to a bound of one may leave a little
less than nothing: then a component of the blend may be negative, the blend is refused, and the
weights of the use come back as if there were no signal.
-/

namespace BinGrade

open Binary64

namespace WeightEngine

/-! ### What the use keeps -/

/-- The share that two pulls leave. -/
def keep (s : Strengths Float) : Float := 1.0 - s.distribution - s.objective

section Keep

variable {s : Strengths Float} (hd : Within 0 1024 s.distribution) (ho : Within 0 1024 s.objective)

theorem rounds_rest (hd : Within 0 1024 s.distribution) :
    Rounds (1.0 - s.distribution) (1 - value s.distribution) := by
  have hrounds := rounds_sub (show (1.0 : Float).isFinite = true from rfl) hd.isFinite
  rwa [value_one] at hrounds

theorem within_rest (hd : Within 0 1024 s.distribution) : Within 0 1024 (1.0 - s.distribution) := by
  apply (rounds_rest hd).within (by norm_num)
  · simpa using hd.le_one
  · simpa [step] using hd.nonneg

include hd ho

theorem within_keep {i : ℤ} (hi : |i| ≤ 2 ^ 20)
    (h : i * step + value s.objective ≤ value (1.0 - s.distribution)) : Within i 1024 (keep s) := by
  have hrest := within_rest hd
  apply (rounds_sub hrest.isFinite ho.isFinite).within ⟨hi, by norm_num⟩
  · linarith
  · linarith [hrest.high, ho.nonneg]

/-- Pulls that sum to one at most leave nothing negative: the second one is a double that is not
beyond the exact rest, so it is not beyond the rounded one. -/
theorem within_keep_of_le_one (hsum : value s.distribution + value s.objective ≤ 1) :
    Within 0 1024 (keep s) := by
  apply within_keep hd ho (by norm_num)
  have hle : value s.objective ≤ 1 - value s.distribution := by linarith
  rw [(rounds_rest hd).value_eq, Int.cast_zero, zero_mul, zero_add]
  exact value_le_nearest hle

theorem within_keep_of_le (hsum : value s.distribution + value s.objective ≤ 1 + 4 * step) :
    Within (-8) 1024 (keep s) := by
  apply within_keep hd ho (by norm_num)
  have hd1 := hd.le_one
  have hd0 := hd.nonneg
  have hrest : |1 - value s.distribution| ≤ 1 := abs_le.mpr ⟨by linarith, by linarith⟩
  have herror := (abs_le.mp (abs_nearest_sub_le (hrest.trans one_lt_limit.le))).1
  have hleast : leastRoundoff ≤ 2 ^ (-53 : ℤ) := two_zpow_le (by norm_num)
  have hshare := mul_le_mul_of_nonneg_right hrest unitRoundoff_pos.le
  rw [(rounds_rest hd).value_eq]
  unfold unitRoundoff at *
  norm_num [step] at *
  linarith

theorem within_keep_of_small (hdsmall : value s.distribution ≤ 1 / 4)
    (hosmall : value s.objective ≤ 1 / 4) : Within 256 1024 (keep s) := by
  apply within_keep hd ho (by norm_num)
  have hrest : Within 512 1024 (1.0 - s.distribution) := by
    apply (rounds_rest hd).within (by norm_num)
    · norm_num [step]
      linarith
    · simpa [step] using hd.nonneg
  have hlow := hrest.low
  norm_num [step] at hlow ⊢
  linarith

end Keep

/-! ### Components -/

/-- A pull of some strength towards weights that sum to about one. -/
structure Pull (x : Float) (t : Weights Float) : Prop where
  strength : Within 0 1024 x
  weights : ∀ m, Within 0 2048 (t.get m)
  large : 1 / 4 ≤ value x → ∃ m, Within 128 2048 (t.get m)

theorem pull_signal {signal : Option (Signal Float)}
    (h : ∀ g ∈ signal, g.weights.check = .ok g.weights) {x : Float}
    (hx : Within 0 (reach (signal.map (·.confidence))) x) :
    Pull x ((signal.map (·.weights)).getD (.all 0.0)) := by
  refine ⟨hx.mono le_rfl (reach_bounds _).2, ?_, ?_⟩
  · intro m
    cases signal with
    | none =>
      change Within 0 2048 ((PerMoment.all (0.0 : Float)).get m)
      rw [PerMoment.get_all]
      exact ⟨rfl, by decide +kernel, by decide +kernel⟩
    | some g => exact Weights.within_of_check (h g rfl) m
  · intro hlarge
    cases signal with
    | none =>
      have hzero := hx.high
      norm_num [reach] at hzero
      linarith
    | some g => exact Weights.exists_within_of_check (h g rfl)

theorem Pull.within_mul {x : Float} {t : Weights Float} (h : Pull x t) (m : Moment) :
    Within 0 2048 (x * t.get m) :=
  h.strength.mul (h.weights m) (by norm_num) (by norm_num) (by norm_num)

theorem Pull.exists_within_mul {x : Float} {t : Weights Float} (h : Pull x t)
    (hlarge : 1 / 4 ≤ value x) : ∃ m, Within 32 2048 (x * t.get m) := by
  obtain ⟨m, hm⟩ := h.large hlarge
  have hx : Within 256 1024 x := by
    refine ⟨h.strength.isFinite, ?_, h.strength.high⟩
    norm_num [step]
    linarith
  exact ⟨m, hx.mul hm (by norm_num) (by norm_num) (by norm_num)⟩

section Components

variable {s : Strengths Float} {c t u : Weights Float}

theorem get_mixture (m : Moment) : (mixture s c t u).get m
    = keep s * c.get m + s.distribution * t.get m + s.objective * u.get m :=
  PerMoment.get_of ..

theorem within_mixture {j k l : ℤ} {m : Moment} (hleft : Within j 2048 (keep s * c.get m))
    (hmiddle : Within k 2048 (s.distribution * t.get m))
    (hright : Within l 2048 (s.objective * u.get m))
    (hsmall : |j + k| ≤ 2 ^ 20 ∧ |j + k + l| ≤ 2 ^ 20) :
    Within (j + k + l) 6144 ((mixture s c t u).get m) := by
  rw [get_mixture]
  exact (hleft.add hmiddle ⟨hsmall.1, by norm_num⟩).add hright ⟨hsmall.2, by norm_num⟩

variable (hc : ∀ m, Within 0 2048 (c.get m)) (ht : Pull s.distribution t) (hu : Pull s.objective u)

include hc ht hu

theorem within_mixture_of_nonneg (hkeep : Within 0 1024 (keep s)) (m : Moment) :
    Within 0 6144 ((mixture s c t u).get m) := by
  have hleft : Within 0 2048 (keep s * c.get m) :=
    hkeep.mul (hc m) (by norm_num) (by norm_num) (by norm_num)
  exact within_mixture hleft (ht.within_mul m) (hu.within_mul m) (by norm_num)

omit hc in
/-- One of the three shares is at least a quarter, and it alone makes some component positive. -/
theorem exists_within_mixture (hleft : ∀ m, Within (-16) 2048 (keep s * c.get m))
    (hlarge : ∃ m, Within 128 2048 (c.get m)) :
    ∃ m, Within 16 6144 ((mixture s c t u).get m) := by
  by_cases hd : 1 / 4 ≤ value s.distribution
  · obtain ⟨m, hm⟩ := ht.exists_within_mul hd
    exact ⟨m, within_mixture (hleft m) hm (hu.within_mul m) (by norm_num)⟩
  by_cases ho : 1 / 4 ≤ value s.objective
  · obtain ⟨m, hm⟩ := hu.exists_within_mul ho
    exact ⟨m, within_mixture (hleft m) (ht.within_mul m) hm (by norm_num)⟩
  · obtain ⟨m, hm⟩ := hlarge
    have hrest := within_keep_of_small ht.strength hu.strength (not_le.mp hd).le (not_le.mp ho).le
    have hproduct : Within 32 2048 (keep s * c.get m) :=
      hrest.mul hm (by norm_num) (by norm_num) (by norm_num)
    have hmixture := within_mixture hproduct (ht.within_mul m) (hu.within_mul m) (by norm_num)
    exact ⟨m, hmixture.mono (by norm_num) le_rfl⟩

end Components

/-! ### Outcomes -/

/-- The strengths with which two signals pull. -/
def pulling (e : WeightEngine Float) (distribution objective : Option (Signal Float)) :
    Strengths Float :=
  e.strengths (distribution.map (·.confidence)) (objective.map (·.confidence))

/-- The blend before it is scaled. -/
def blended (e : WeightEngine Float) (context : Weights Float)
    (distribution objective : Option (Signal Float)) : Weights Float :=
  mixture (e.pulling distribution objective) context
    ((distribution.map (·.weights)).getD (.all 0.0)) ((objective.map (·.weights)).getD (.all 0.0))

section Outcomes

variable {e : WeightEngine Float} {context : Weights Float}
  {distribution objective : Option (Signal Float)}

theorem combine_of_normalize
    (hpos : 0.0 < (e.pulling distribution objective).distribution
      + (e.pulling distribution objective).objective) {w : Weights Float}
    (h : (e.blended context distribution objective).normalize = .ok w) :
    e.combine context distribution objective = w := by
  have hnot : ¬(e.pulling distribution objective).distribution
      + (e.pulling distribution objective).objective ≤ 0.0 :=
    (Scalar.Ordered.lt_iff.mp hpos).2
  unfold blended pulling at h
  unfold pulling at hnot
  unfold combine
  dsimp only
  rw [if_neg hnot, h]

theorem combine_of_negative {m : Moment}
    (h : (e.blended context distribution objective).get m < 0.0) :
    e.combine context distribution objective = context := by
  unfold combine
  dsimp only
  split
  · rfl
  split
  · next w hw => exact absurd h (Weights.not_lt_of_isUsable (Weights.isUsable_of_normalize hw m))
  · rfl

section Moderate

variable (he : e.influence.Moderate)

include he

theorem within_pulling : Within 0 1024 (e.pulling distribution objective).distribution
    ∧ Within 0 1024 (e.pulling distribution objective).objective := by
  obtain ⟨hleft, hright⟩ := within_strengths he (distribution.map (·.confidence))
    (objective.map (·.confidence))
  exact ⟨hleft.mono le_rfl (reach_bounds _).2, hright.mono le_rfl (reach_bounds _).2⟩

theorem within_keep_pulling : Within (-8) 1024 (keep (e.pulling distribution objective)) :=
  within_keep_of_le (within_pulling he).1 (within_pulling he).2 (sum_strengths_le_of_bound he _ _)

/-- The use keeps less than nothing only if both signals pull and the bound is one up to roundings.
-/
theorem of_keep_lt (h : keep (e.pulling distribution objective) < 0.0) :
    0.0 < (e.pulling distribution objective).distribution
      ∧ 0.0 < (e.pulling distribution objective).objective
      ∧ 0.9999999999999997 < e.influence.maxBlend := by
  generalize hs : e.pulling distribution objective = s at h
  obtain ⟨hleft, hright⟩ := hs ▸ within_pulling he
  have hsum : 1 < value s.distribution + value s.objective := by
    by_contra hle
    have hkeep := within_keep_of_le_one hleft hright (not_lt.mp hle)
    exact not_lt.mpr hkeep.nonneg (hkeep.lt_zero_iff.mp h)
  refine ⟨hleft.zero_lt_iff.mpr ?_, hright.zero_lt_iff.mpr ?_, ?_⟩
  · linarith [hright.le_one]
  · linarith [hleft.le_one]
  · by_contra hnot
    have hbound := Scalar.le_of_not_lt rfl he.maxBlend.isNaN_eq hnot
    exact not_le.mpr hsum (hs ▸ sum_strengths_le_one he _ _ hbound)

variable (hcontext : context.check = .ok context)
  (hd : ∀ g ∈ distribution, g.weights.check = .ok g.weights)
  (ho : ∀ g ∈ objective, g.weights.check = .ok g.weights)

include hcontext hd ho

theorem keep_lt_of_negative {m : Moment}
    (h : (e.blended context distribution objective).get m < 0.0) :
    keep (e.pulling distribution objective) < 0.0 := by
  have hkeep : Within (-8) 1024 (keep (e.pulling distribution objective)) := within_keep_pulling he
  by_contra hnot
  rw [hkeep.lt_zero_iff, not_lt] at hnot
  have hmixture := within_mixture_of_nonneg (Weights.within_of_check hcontext)
    (pull_signal hd (within_strengths he _ _).1) (pull_signal ho (within_strengths he _ _).2)
    (hkeep.of_nonneg hnot) m
  exact not_lt.mpr hmixture.nonneg (hmixture.lt_zero_iff.mp h)

/-- A blend without negative components has a sum that is finite and above zero. -/
theorem normalize_blended (h : ∀ m, ¬(e.blended context distribution objective).get m < 0.0) :
    (e.blended context distribution objective).normalize
      = .ok (e.blended context distribution objective).scaled
    ∧ (e.blended context distribution objective).scaled.SumsToOne := by
  have ht := pull_signal hd (within_strengths he _ (objective.map (·.confidence))).1
  have hu := pull_signal ho (within_strengths he (distribution.map (·.confidence)) _).2
  have hleft (m : Moment) :
      Within (-16) 2048 (keep (e.pulling distribution objective) * context.get m) :=
    (within_keep_pulling he).mul (Weights.within_of_check hcontext m) (by norm_num) (by norm_num)
      (by norm_num)
  have hwithin (m : Moment) :
      Within (-16) 6144 ((e.blended context distribution objective).get m) :=
    within_mixture (hleft m) (ht.within_mul m) (hu.within_mul m) (by norm_num)
  have husable (m : Moment) :
      Weights.isUsable ((e.blended context distribution objective).get m) = true :=
    Weights.isUsable_iff.mpr ⟨(hwithin m).isFinite, not_lt.mp ((hwithin m).lt_zero_iff.not.mp (h m))⟩
  have hpos : 0 < value (e.blended context distribution objective).sum := by
    obtain ⟨m, hm⟩ : ∃ m, Within 16 6144 ((e.blended context distribution objective).get m) :=
      exists_within_mixture ht hu hleft (Weights.exists_within_of_check hcontext)
    refine lt_of_lt_of_le (lt_of_lt_of_le ?_ hm.low) ((Weights.value_le_sum husable).2 m)
    norm_num [step]
  have hfinite : (e.blended context distribution objective).sum.isFinite = true := by
    refine Weights.isFinite_sum_of_le (k := 6) husable (fun m => ?_) (by norm_num)
    refine (hwithin m).high.trans ?_
    norm_num [step]
  exact ⟨Weights.normalize_eq_scaled husable hpos, Weights.sumsToOne_scaled husable hpos hfinite⟩

end Moderate

end Outcomes

/-- Signals with a positive sum of strengths count exactly if no component of the blend is negative:
then the weights are the blend, scaled to sum to one. Otherwise the weights of the use come back. That
happens only if both signals pull, the bound on them is one up to three units in the last place, and
rounding leaves the use less than nothing. -/
theorem normalize_iff_and_combine {e : WeightEngine Float} (he : e.Made) {context : Weights Float}
    (hcontext : context.check = .ok context) {distribution objective : Option (Signal Float)}
    (hd : ∀ g ∈ distribution, g.weights.check = .ok g.weights)
    (ho : ∀ g ∈ objective, g.weights.check = .ok g.weights)
    (hpos : 0.0 < (e.pulling distribution objective).distribution
      + (e.pulling distribution objective).objective) :
    ((∃ w, (e.blended context distribution objective).normalize = .ok w)
      ↔ ∀ m, ¬(e.blended context distribution objective).get m < 0.0)
    ∧ (∀ w, (e.blended context distribution objective).normalize = .ok w →
      e.combine context distribution objective = w ∧ w.SumsToOne)
    ∧ ((∃ m, (e.blended context distribution objective).get m < 0.0) →
      e.combine context distribution objective = context
      ∧ keep (e.pulling distribution objective) < 0.0
      ∧ 0.0 < (e.pulling distribution objective).distribution
      ∧ 0.0 < (e.pulling distribution objective).objective
      ∧ 0.9999999999999997 < e.influence.maxBlend) := by
  have hnormal := normalize_blended he.moderate hcontext hd ho
  have hnonneg {w : Weights Float}
      (hw : (e.blended context distribution objective).normalize = .ok w) (m : Moment) :
      ¬(e.blended context distribution objective).get m < 0.0 :=
    Weights.not_lt_of_isUsable (Weights.isUsable_of_normalize hw m)
  refine ⟨⟨?_, fun h => ⟨_, (hnormal h).1⟩⟩, ?_, ?_⟩
  · rintro ⟨w, hw⟩
    exact hnonneg hw
  · intro w hw
    obtain ⟨hscaled, hsum⟩ := hnormal (hnonneg hw)
    cases hscaled.symm.trans hw
    exact ⟨combine_of_normalize hpos hw, hsum⟩
  · rintro ⟨m, hm⟩
    have hkeep := keep_lt_of_negative he.moderate hcontext hd ho hm
    exact ⟨combine_of_negative hm, hkeep, of_keep_lt he.moderate hkeep⟩

/-- Influences that let the signals take everything. -/
def unlimited : Influence Float := ⟨1.0, 1.0, 1.0⟩

/-- All weight on the mean. -/
def meanOnly : Weights Float := ⟨1.0, 0.0, 0.0, 0.0⟩

theorem check_meanOnly : meanOnly.check = .ok meanOnly := by
  obtain ⟨w, hw⟩ := exists_ok_of_toBool (show meanOnly.check.toBool = true by decide +kernel)
  exact (Weights.eq_of_check hw).2

theorem check_even : (Weights.even : Weights Float).check = .ok .even := by
  obtain ⟨w, hw⟩ := exists_ok_of_toBool
    (show (Weights.even : Weights Float).check.toBool = true by decide +kernel)
  exact (Weights.eq_of_check hw).2

/-- Pulls that are cut down to the whole and leave nothing. -/
theorem seventeenths_counted : (ofInfluence unlimited).Made
    ∧ (Weights.even : Weights Float).check = .ok .even ∧ meanOnly.check = .ok meanOnly
    ∧ 0.0 < ((ofInfluence unlimited).pulling (some ⟨meanOnly, 1.0⟩)
      (some ⟨meanOnly, 0.7⟩)).distribution
      + ((ofInfluence unlimited).pulling (some ⟨meanOnly, 1.0⟩) (some ⟨meanOnly, 0.7⟩)).objective
    ∧ ∃ w, ((ofInfluence unlimited).blended .even (some ⟨meanOnly, 1.0⟩)
        (some ⟨meanOnly, 0.7⟩)).normalize = .ok w
      ∧ (ofInfluence unlimited).combine .even (some ⟨meanOnly, 1.0⟩) (some ⟨meanOnly, 0.7⟩) = w
      ∧ w.SumsToOne := by
  have hsignal {x : Float} : ∀ g ∈ some (⟨meanOnly, x⟩ : Signal Float),
      g.weights.check = .ok g.weights := by
    rintro _ ⟨⟩
    exact check_meanOnly
  have hpos : 0.0 < ((ofInfluence unlimited).pulling (some ⟨meanOnly, 1.0⟩)
      (some ⟨meanOnly, 0.7⟩)).distribution
      + ((ofInfluence unlimited).pulling (some ⟨meanOnly, 1.0⟩)
        (some ⟨meanOnly, 0.7⟩)).objective := by decide +kernel
  obtain ⟨haccepted, hcombine, -⟩ := normalize_iff_and_combine (.ofInfluence unlimited) check_even
    hsignal hsignal hpos
  obtain ⟨w, hw⟩ := haccepted.mpr (Moment.forall_iff.mpr (by decide +kernel))
  exact ⟨.ofInfluence unlimited, check_even, check_meanOnly, hpos, w, hw, hcombine w hw⟩

/-- Six and seven parts of thirteen, each of them rounded up, leave less than nothing. -/
theorem thirteenths_lost : (ofInfluence unlimited).Made
    ∧ (Weights.even : Weights Float).check = .ok .even ∧ meanOnly.check = .ok meanOnly
    ∧ 0.0 < ((ofInfluence unlimited).strengths (some 0.6) (some 0.7)).distribution
      + ((ofInfluence unlimited).strengths (some 0.6) (some 0.7)).objective
    ∧ (∃ fault, ((ofInfluence unlimited).blended .even (some ⟨meanOnly, 0.6⟩)
      (some ⟨meanOnly, 0.7⟩)).normalize = .error fault)
    ∧ (ofInfluence unlimited).combine .even (some ⟨meanOnly, 0.6⟩) (some ⟨meanOnly, 0.7⟩)
      = .even := by
  have hnegative : ((ofInfluence unlimited).blended .even (some ⟨meanOnly, 0.6⟩)
      (some ⟨meanOnly, 0.7⟩)).get .variance < 0.0 := by decide +kernel
  refine ⟨.ofInfluence unlimited, check_even, check_meanOnly, by decide +kernel,
    exists_error_of_toBool (by decide +kernel), combine_of_negative hnegative⟩

end WeightEngine

end BinGrade
