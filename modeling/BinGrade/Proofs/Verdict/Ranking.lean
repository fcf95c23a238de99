import BinGrade.Proofs.Binary64.Monotone
import BinGrade.Proofs.Moment.ZeroWeight
import BinGrade.Proofs.Search.Answer

/-!
# Scores in the order of the tiers

A score is computed with rounding, in bands that share their ends. It still never leaves the band of
its tier, so a better tier never scores lower, and within a tier the score never rises with the
error. A search that misses its target chooses by score alone. If that passes over a better tier,
both scores stand at the common end of two bands.
-/

namespace BinGrade

open Binary64

/-! ### The place in a band -/

section Position

variable {d e : Float}

/-- What one is divided by to give the place in a band. -/
def scoreDivisor (totalError : Float) : Float := 1.0 + Scalar.greater totalError 0.0 / scoreScale

theorem scorePosition_of_number (he : e.isNaN = false) :
    scorePosition e = 1.0 / scoreDivisor e := by
  have hnumber : ¬Scalar.isNaN e = true := Bool.eq_false_iff.mp he
  exact if_neg hnumber

theorem value_greater_zero (he : e.isNaN = false) : (Scalar.greater e 0.0).isNaN = false
    ∧ value (Scalar.greater e 0.0) = max (value e) 0 := by
  have hnumber : ¬Scalar.isNaN e = true := Bool.eq_false_iff.mp he
  have hlt : e < 0.0 ↔ value e < 0 := lt_iff he rfl
  unfold Scalar.greater
  rw [if_neg hnumber]
  split
  · next h => exact ⟨rfl, (max_eq_right (hlt.mp h).le).symm⟩
  · next h => exact ⟨he, (max_eq_left (not_lt.mp (mt hlt.mpr h))).symm⟩

theorem scoreScale_pos : 0 < value (scoreScale : Float) := by decide +kernel

theorem excess_nonneg (he : e.isNaN = false) :
    (Scalar.greater e 0.0 / scoreScale).isNaN = false
      ∧ 0 ≤ value (Scalar.greater e 0.0 / scoreScale) := by
  obtain ⟨hnumber, hvalue⟩ := value_greater_zero he
  refine ⟨isNaN_div_right hnumber rfl scoreScale_pos.ne', ?_⟩
  exact value_div_nonneg hnumber (hvalue ▸ le_max_right _ _) rfl scoreScale_pos

theorem scoreDivisor_spec (he : e.isNaN = false) :
    (scoreDivisor e).isNaN = false ∧ 1 ≤ value (scoreDivisor e) := by
  obtain ⟨hnumber, hnonneg⟩ := excess_nonneg he
  have hone : 0 ≤ value (1.0 : Float) := value_one ▸ zero_le_one
  obtain ⟨hsum, hleft, _⟩ := value_le_add rfl hnumber hone hnonneg
  exact ⟨hsum, value_one ▸ hleft⟩

theorem scoreDivisor_mono (hd : d.isNaN = false) (he : e.isNaN = false)
    (h : value d ≤ value e) : value (scoreDivisor d) ≤ value (scoreDivisor e) := by
  obtain ⟨hgd, hvd⟩ := value_greater_zero hd
  obtain ⟨hge, hve⟩ := value_greater_zero he
  obtain ⟨hqd, hd0⟩ := excess_nonneg hd
  obtain ⟨hqe, _⟩ := excess_nonneg he
  have hcut : value (Scalar.greater d 0.0) ≤ value (Scalar.greater e 0.0) := by
    rw [hvd, hve]
    exact max_le_max_right 0 h
  have hquotient := value_div_mono hgd hge (hvd ▸ le_max_right _ _) hcut rfl scoreScale_pos
  exact value_add_mono rfl hqd hqe (value_one ▸ zero_le_one) hd0 hquotient

/-- A larger error, or one that is no number, stands no higher in a band. -/
theorem scorePosition_anti (h : d ≤ e ∨ e.isNaN = true) :
    value (scorePosition e) ≤ value (scorePosition d) := by
  have hone : 0 ≤ value (1.0 : Float) := value_one ▸ zero_le_one
  have hnonneg {x : Float} (hx : x.isNaN = false) : 0 ≤ value (scorePosition x) := by
    obtain ⟨hnumber, hdivisor⟩ := scoreDivisor_spec hx
    rw [scorePosition_of_number hx]
    exact value_div_of_pos rfl hone hnumber (zero_lt_one.trans_le hdivisor)
  have hmissing {x : Float} (hx : x.isNaN = true) : value (scorePosition x) = 0 :=
    congrArg value (if_pos hx)
  rcases h with h | hnan
  · obtain ⟨hd, he⟩ := isNaN_of_le h
    obtain ⟨hnumber, hdivisor⟩ := scoreDivisor_spec hd
    rw [scorePosition_of_number hd, scorePosition_of_number he]
    exact value_div_anti rfl hone hnumber (scoreDivisor_spec he).1 (zero_lt_one.trans_le hdivisor)
      (scoreDivisor_mono hd he ((le_iff hd he).mp h))
  · rw [hmissing hnan]
    cases hd : d.isNaN with
    | false => exact hnonneg hd
    | true => exact (hmissing hd).ge

/-- No error stands at one, and what is no number stands at zero; all others stand between them. -/
theorem scorePosition_unit (e : Float) :
    (scorePosition e).isFinite = true
      ∧ 0 ≤ value (scorePosition e) ∧ value (scorePosition e) ≤ 1 := by
  have hlow : value (scorePosition (0.0 / 0.0)) ≤ value (scorePosition e) :=
    scorePosition_anti (.inr rfl)
  have hzero : value (scorePosition (0.0 / 0.0 : Float)) = 0 := by decide +kernel
  rw [hzero] at hlow
  have hhigh : value (scorePosition e) ≤ value (1.0 : Float) := by
    cases he : e.isNaN with
    | true =>
      have hleast : value (scorePosition e) ≤ value (scorePosition (0.0 : Float)) :=
        scorePosition_anti (.inr he)
      exact hleast.trans (by decide +kernel)
    | false =>
      obtain ⟨hnumber, hdivisor⟩ := scoreDivisor_spec he
      have hquotient : value (1.0 / scoreDivisor e) ≤ value ((1.0 : Float) / 1.0) :=
        value_div_anti rfl (value_one ▸ zero_le_one) rfl hnumber (value_one ▸ zero_lt_one)
          (value_one ▸ hdivisor)
      rw [scorePosition_of_number he]
      exact hquotient.trans (by decide +kernel)
  exact ⟨isFinite_of_value_le (isNaN_scorePosition e) hlow hhigh rfl, hlow, value_one ▸ hhigh⟩

end Position

/-! ### Bands -/

/-- The width of a band leads exactly from its low to its high end, both in the unit interval. -/
structure IsBand (low high : Float) : Prop where
  zero_le : 0.0 ≤ low
  le_one : high ≤ 1.0
  finite : low.isFinite = true
  width_finite : (high - low).isFinite = true
  width_pos : 0 < value (high - low)
  exact : value low + value (high - low) = value high

theorem isBand_scoreBand (t : Tier) : IsBand (scoreBand t).1 (scoreBand t).2 := by
  cases t <;> constructor <;> decide +kernel

theorem scoreBand_of_better {s t : Tier} (h : s.rank < t.rank) :
    (scoreBand t : Float × Float).2 ≤ (scoreBand s).1 := by
  cases s <;> cases t <;> first | exact absurd h (by decide) | decide +kernel

theorem IsBand.value_nonneg {low high : Float} (h : IsBand low high) : 0 ≤ value low :=
  (le_iff rfl (isNaN_of_isFinite h.finite)).mp h.zero_le

/-- A band above another one is above zero. -/
theorem scoreBand_pos_of_better {s t : Tier} (h : s.rank < t.rank) :
    0 < value (scoreBand s : Float × Float).1 := by
  have hband := isBand_scoreBand t
  have hle := scoreBand_of_better h
  have habove : value (scoreBand t).2 ≤ value (scoreBand s).1 :=
    (le_iff (isNaN_of_le hle).1 (isNaN_of_le hle).2).mp hle
  have hnonneg := hband.value_nonneg
  have hpos := hband.width_pos
  have hexact := hband.exact
  linarith

section Score

variable {s t : Tier} {d e : Float}

theorem value_score (t : Tier) (e : Float) : value (score t e) = nearest (value (scoreBand t).1
    + nearest (value ((scoreBand t).2 - (scoreBand t).1) * value (scorePosition e))) := by
  have hband := isBand_scoreBand t
  have hwidth := hband.width_pos.le
  obtain ⟨hposition, hnonneg, hle⟩ := scorePosition_unit e
  obtain ⟨hnumber, hproduct⟩ := value_mul hband.width_finite hposition
  have hpart : value ((scoreBand t).2 - (scoreBand t).1) * value (scorePosition e)
      ≤ value ((scoreBand t).2 - (scoreBand t).1) := mul_le_of_le_one_right hwidth hle
  have hfinite : (((scoreBand t).2 - (scoreBand t).1) * scorePosition e).isFinite = true := by
    refine isFinite_of_value_le hnumber ?_ ?_ hband.width_finite
    · rw [hproduct]
      exact nearest_nonneg (mul_nonneg hwidth hnonneg)
    · rw [hproduct]
      exact nearest_le_value hpart
  rw [← hproduct]
  exact (value_add hband.finite hfinite).2

theorem score_mem_band (t : Tier) (e : Float) :
    (scoreBand t).1 ≤ score t e ∧ score t e ≤ (scoreBand t).2 := by
  have hband := isBand_scoreBand t
  have hexact := hband.exact
  obtain ⟨_, hnonneg, hle⟩ := scorePosition_unit e
  have hnumber := isNaN_score t e
  rw [le_iff (isNaN_of_isFinite hband.finite) hnumber,
    le_iff hnumber (isNaN_of_le hband.le_one).1, value_score]
  constructor
  · have := nearest_nonneg (mul_nonneg hband.width_pos.le hnonneg)
    exact value_le_nearest (by linarith)
  · -- rounding keeps the product below the width, which is a double itself
    have hpart := nearest_le_value (mul_le_of_le_one_right hband.width_pos.le hle)
    exact nearest_le_value (by linarith)

theorem score_anti (t : Tier) (h : d ≤ e ∨ e.isNaN = true) : score t e ≤ score t d := by
  have hwidth := (isBand_scoreBand t).width_pos.le
  have hproduct := nearest_mono (mul_le_mul_of_nonneg_left (scorePosition_anti h) hwidth)
  rw [le_iff (isNaN_score t e) (isNaN_score t d), value_score, value_score]
  exact nearest_mono (by linarith)

theorem score_of_better (h : s.rank < t.rank) (d e : Float) : score t e ≤ score s d :=
  Scalar.Ordered.le_trans (score_mem_band t e).2
    (Scalar.Ordered.le_trans (scoreBand_of_better h) (score_mem_band s d).1)

/-- Away from the lowest band, scores that are no lower than each other are the same double. -/
theorem score_eq_of_better (h : s.rank < t.rank) (hle : score s d ≤ score t e) :
    score s d = score t e := by
  have hnumber := isNaN_score s d
  have hnumber' := isNaN_score t e
  have hpos : 0 < value (score s d) := (scoreBand_pos_of_better h).trans_le
    ((le_iff (isNaN_of_isFinite (isBand_scoreBand s).finite) hnumber).mp (score_mem_band s d).1)
  refine eq_of_value_eq_of_ne_zero hnumber hnumber' hpos.ne' (le_antisymm ?_ ?_)
  · exact (le_iff hnumber hnumber').mp hle
  · exact (le_iff hnumber' hnumber).mp (score_of_better h d e)

end Score

/-! ### Comparisons with the same errors -/

/-- Against zero an estimate counts only by the side of the tolerance that it is on. -/
theorem exists_relativeError_zero_eq (x : Float) :
    ∃ y ∈ [(0.0 : Float), 1.0], relativeError 0.0 x = relativeError 0.0 y := by
  have hzero : ¬zeroTolerance < Scalar.abs (0.0 : Float) := by decide +kernel
  have hone : zeroTolerance < Scalar.abs (1.0 : Float) := by decide +kernel
  unfold relativeError
  rw [if_neg hzero]
  by_cases hx : zeroTolerance < Scalar.abs x
  · exact ⟨1.0, by simp, by rw [if_pos hx, if_neg hzero, if_pos hone]⟩
  · exact ⟨0.0, by simp, by rw [if_neg hx, if_neg hzero, if_neg hzero]⟩

theorem compareMoments_congr {raw estimated estimated' : Moments Float} {weights : List Float}
    (h : ∀ m, relativeError (raw.get m) (estimated.get m)
      = relativeError (raw.get m) (estimated'.get m)) :
    compareMoments raw estimated weights = compareMoments raw estimated' weights := by
  have hcomponents (w : Weights Float) :
      errorComponents raw estimated w = errorComponents raw estimated' w := by
    refine PerMoment.eq_of_get fun m => ?_
    rw [errorComponents, errorComponents, PerMoment.get_of, PerMoment.get_of, h m]
  unfold compareMoments
  simp only [hcomponents]

/-! ### Searches that miss their target -/

theorem Evaluator.score_of_evaluatePrepared {e : Evaluator Float} {p : Prepared Float}
    {h : Histogram Float} {r : Request Float} {v : Verdict Float}
    (hv : e.evaluatePrepared p h r = .ok v) : v.score = score v.overallTier v.totalError := by
  unfold evaluatePrepared at hv
  obtain ⟨c, _, hv⟩ := exists_of_bind_eq_ok hv
  cases hv
  rfl

namespace Search

theorem exists_best_of_conclude {target : Tier} {trace : List (Attempt Float)}
    {res : SearchResult Float} (h : conclude target trace = .ok res)
    (hmissed : res.targetMet = false) :
    ∃ first more, trace = first :: more ∧ res.verdict = (best first more).verdict := by
  unfold conclude at h
  cases trace with
  | nil => cases h
  | cons first more =>
    rw [List.head?_cons] at h
    split at h
    · next head last hhead hlast =>
      cases hhead
      split at h
      · cases h
        cases hmissed
      · cases h
        exact ⟨first, more, rfl, rfl⟩
    · cases h

section Missed

variable {σ : Type} {w : Workshop σ Float} {ev : Evaluator Float} {xs : List Float}
  {r : SearchRequest Float} {st last : σ} {res : SearchResult Float}

theorem score_of_mem_trace (h : run w ev xs r st = (.ok res, last)) {a : Attempt Float}
    (ha : a ∈ res.trace) : a.verdict.score = score a.verdict.overallTier a.verdict.totalError := by
  obtain ⟨p, _, hattempts, _⟩ := run_eq_ok h
  obtain ⟨calls, _, _, hgrades⟩ := attempts_grade_calls hattempts
  obtain ⟨c, _, hgrade⟩ := exists_mem_of_forall₂ hgrades ha
  exact Evaluator.score_of_evaluatePrepared hgrade.2

theorem score_le_of_missed (h : run w ev xs r st = (.ok res, last))
    (hmissed : res.targetMet = false) {a : Attempt Float} (ha : a ∈ res.trace) :
    a.verdict.score ≤ res.verdict.score := by
  obtain ⟨_, _, _, hconclude⟩ := run_eq_ok h
  obtain ⟨first, more, htrace, hverdict⟩ := exists_best_of_conclude hconclude hmissed
  have hscores : ∀ b ∈ first :: more, b.verdict.score.isNaN = false := by
    intro b hb
    rw [score_of_mem_trace h (htrace ▸ hb)]
    exact isNaN_score _ _
  obtain ⟨before, after, hsplit, hbest⟩ := exists_firstBest hscores
  rw [htrace, hsplit] at ha
  rw [hverdict]
  rcases List.mem_append.mp ha with ha | ha
  · exact (Scalar.Ordered.lt_iff.mp (hbest.before_lt a ha)).1
  rcases List.mem_cons.mp ha with rfl | ha
  · exact Scalar.Ordered.le_refl (hscores _ (mem_of_best first more))
  · exact hbest.after_le a ha

end Missed

/-- Every score is a number in the band of its tier, a better tier scores no lower, and a larger
error or one that is no number scores no higher. So a search that misses its target passes over a
better tier only for one of the same score. -/
theorem score_ordered_and_eq_of_missed :
    (∀ (t : Tier) (e : Float), (score t e).isNaN = false
      ∧ ((scoreBand t).1 ≤ score t e ∧ score t e ≤ (scoreBand t).2)
      ∧ 0.0 ≤ score t e ∧ score t e ≤ 1.0)
    ∧ (∀ (s t : Tier) (d e : Float), s.rank < t.rank → score t e ≤ score s d)
    ∧ (∀ (t : Tier) (d e : Float), d ≤ e ∨ e.isNaN = true → score t e ≤ score t d)
    ∧ ∀ (σ : Type) (w : Workshop σ Float) (ev : Evaluator Float) (xs : List Float)
      (r : SearchRequest Float) (st : σ) (res : SearchResult Float),
      (run w ev xs r st).1 = .ok res → res.targetMet = false →
      ∀ a ∈ res.trace, a.verdict.overallTier.rank < res.verdict.overallTier.rank →
        a.verdict.score = res.verdict.score := by
  refine ⟨?_, fun s t d e h => score_of_better h d e, fun t d e => score_anti t, ?_⟩
  · intro t e
    obtain ⟨hlow, hhigh⟩ := score_mem_band t e
    have hband := isBand_scoreBand t
    exact ⟨isNaN_score t e, ⟨hlow, hhigh⟩, Scalar.Ordered.le_trans hband.zero_le hlow,
      Scalar.Ordered.le_trans hhigh hband.le_one⟩
  · intro σ w ev xs r st res hok hmissed a ha hrank
    have h : run w ev xs r st = (.ok res, (run w ev xs r st).2) := Prod.ext hok rfl
    obtain ⟨chosen, hchosen, _, hverdict⟩ := chosen_mem_of_run h
    have hle := score_le_of_missed h hmissed ha
    rw [← hverdict] at hle hrank ⊢
    rw [score_of_mem_trace h ha, score_of_mem_trace h hchosen] at hle ⊢
    exact score_eq_of_better hrank hle

/-! ### A tie across two tiers

The sample is a single one. Bins around it are right about the mean and wrong about a variance that
hardly counts; a bin far away is wrong about the mean, by an amount that still passes for good.
-/

/-- Lets any error pass for good, except that of the variance. -/
def varianceWary : Registry Float :=
  let lax : Ceilings Float := ⟨1.0, 1e300, 1e300, 1e300⟩
  Registry.standard.run [.update (.precision .high)
    (.thresholds ⟨⟨⟨lax, ⟨1e-30, 1e-29, 1.0, 1.0⟩, lax, lax⟩, lax⟩, ⟨1, 1, 1, 1⟩⟩)]

/-- Almost all weight is on the mean. -/
def mostlyMean : SearchRequest Float :=
  ⟨.excellent, [.uniform, .quantile], [1],
    ⟨.general, some .normal, some .high, some [1.0, 1e-25, 0.0, 0.0], none⟩⟩

def uncorrected : Evaluator Float := { Evaluator.standard with estimator := ⟨false⟩ }

def aroundOne : Histogram Float := ⟨[0.0, 1.0, 2.0], [1, 1]⟩

def farFromOne : Histogram Float := ⟨[0.0, 2e20], [1]⟩

def aroundOrFar (b : Binning) (_ : List Float) : Except (Error Float) (Histogram Float) :=
  .ok (if b.strategy = .uniform then aroundOne else farFromOne)

def singleOne : Prepared Float :=
  ⟨1, .ofSample [1.0], .assumed .normal (.ofSample [1.0]), varianceWary.tables⟩

/-- What `singleOne` is graded as for the moments of a histogram. -/
def gradeOfOne (p : Moments Float) (c : Comparison Float) : Verdict Float :=
  Evaluator.grade (singleOne.tables.resolve .normal .general (some .high)) singleOne
    mostlyMean.evaluation p c

theorem prepare_single_one :
    uncorrected.prepare varianceWary.tables [1.0] mostlyMean.evaluation = .ok singleOne := rfl

/-- The skewness is a quotient by a power, of which nothing is known. -/
theorem exists_estimate_aroundOne :
    ∃ skewness, uncorrected.estimator.estimate aroundOne = ⟨1.0, 0.25, skewness, 1.0⟩ := by
  have hmean : (uncorrected.estimator.estimate aroundOne).mean = 1.0 := by decide +kernel
  have hvariance : (uncorrected.estimator.estimate aroundOne).variance = 0.25 := by decide +kernel
  have hkurtosis : (uncorrected.estimator.estimate aroundOne).kurtosis = 1.0 := by decide +kernel
  generalize uncorrected.estimator.estimate aroundOne = p at *
  cases p
  cases hmean
  cases hvariance
  cases hkurtosis
  exact ⟨_, rfl⟩

theorem evaluatePrepared_aroundOne :
    ∃ v, uncorrected.evaluatePrepared singleOne aroundOne mostlyMean.evaluation = .ok v
      ∧ v.overallTier = .acceptable ∧ v.score = 0.75 := by
  have hgrade : ∀ y ∈ [(0.0 : Float), 1.0], (compareMoments singleOne.moments ⟨1.0, 0.25, y, 1.0⟩
      [1.0, 1e-25, 0.0, 0.0]).toOption.map (fun c => ((gradeOfOne .ofNothing c).overallTier,
        (gradeOfOne .ofNothing c).score)) = some (.acceptable, 0.75) := by
    decide +kernel
  obtain ⟨x, hestimate⟩ := exists_estimate_aroundOne
  have hskewness : singleOne.moments.skewness = 0.0 := by decide +kernel
  -- against a skewness of zero there are only two errors
  obtain ⟨y, hy, herror⟩ := exists_relativeError_zero_eq x
  rw [← hskewness] at herror
  have hcompare : compareMoments singleOne.moments ⟨1.0, 0.25, x, 1.0⟩ [1.0, 1e-25, 0.0, 0.0]
      = compareMoments singleOne.moments ⟨1.0, 0.25, y, 1.0⟩ [1.0, 1e-25, 0.0, 0.0] := by
    refine compareMoments_congr fun m => ?_
    cases m with
    | skewness => exact herror
    | _ => rfl
  obtain ⟨c, hc, hverdict⟩ := Option.map_eq_some_iff.mp (hgrade y hy)
  obtain ⟨htier, hscore⟩ := Prod.mk.inj hverdict
  refine ⟨gradeOfOne ⟨1.0, 0.25, x, 1.0⟩ c, ?_, htier, hscore⟩
  have hweights : uncorrected.weightsFor singleOne.label mostlyMean.evaluation
      = [1.0, 1e-25, 0.0, 0.0] := rfl
  unfold Evaluator.evaluatePrepared
  rw [hestimate, hweights]
  dsimp only
  rw [hcompare, eq_ok_of_toOption hc]
  rfl

theorem evaluatePrepared_farFromOne :
    ∃ v, uncorrected.evaluatePrepared singleOne farFromOne mostlyMean.evaluation = .ok v
      ∧ v.overallTier = .good ∧ v.score = 0.75 := by
  have hverdict : (uncorrected.evaluatePrepared singleOne farFromOne
      mostlyMean.evaluation).toOption.map (fun v => (v.overallTier, v.score))
        = some (.good, 0.75) := by
    decide +kernel
  obtain ⟨v, hv, heq⟩ := Option.map_eq_some_iff.mp hverdict
  obtain ⟨htier, hscore⟩ := Prod.mk.inj heq
  exact ⟨v, eq_ok_of_toOption hv, htier, hscore⟩

theorem run_aroundOrFar : ∃ v w,
    (run (.pure aroundOrFar) uncorrected [1.0] mostlyMean varianceWary).1
      = .ok ⟨⟨.uniform, 1⟩, v, [⟨⟨.uniform, 1⟩, v⟩, ⟨⟨.quantile, 1⟩, w⟩], false⟩
      ∧ v.overallTier = .acceptable ∧ w.overallTier = .good := by
  obtain ⟨v, hv, htier, hscore⟩ := evaluatePrepared_aroundOne
  obtain ⟨w, hw, htier', hscore'⟩ := evaluatePrepared_farFromOne
  refine ⟨v, w, ?_, htier, htier'⟩
  have hmissed : v.meets .excellent = false := by
    rw [Verdict.meets, htier]
    rfl
  have hmissed' : w.meets .excellent = false := by
    rw [Verdict.meets, htier']
    rfl
  have hspace : mostlyMean.space = .ok ([.uniform, .quantile], [1]) := by
    simp [SearchRequest.space, mostlyMean, firstSeen, dropRepeats]
  have hstart : start varianceWary.tables uncorrected [1.0] mostlyMean
      = .ok ([⟨.uniform, 1⟩, ⟨.quantile, 1⟩], singleOne) := by
    rw [start, hspace, prepare_single_one]
    rfl
  have hattempts : attempts (.pure aroundOrFar) uncorrected singleOne [1.0] mostlyMean
      [⟨.uniform, 1⟩, ⟨.quantile, 1⟩] varianceWary
        = (.ok [⟨⟨.uniform, 1⟩, v⟩, ⟨⟨.quantile, 1⟩, w⟩], varianceWary) := by
    rw [attempts_cons_ok rfl hv, attempts_cons_ok rfl hw]
    simp [mostlyMean, hmissed, hmissed', attempts]
  have htie : scoresHigher ⟨⟨.quantile, 1⟩, w⟩ ⟨⟨.uniform, 1⟩, v⟩ = false := by
    refine Bool.eq_false_iff.mpr fun hhigher => ?_
    have hlt := (scoresHigher_iff (hscore' ▸ rfl) (hscore ▸ rfl)).mp hhigher
    rw [hscore, hscore'] at hlt
    exact lt_irrefl _ hlt
  have hregistry (reg : Registry Float) : (Workshop.pure aroundOrFar).registry reg = reg := rfl
  rw [run, hregistry, hstart]
  dsimp only
  rw [hattempts]
  simp [mostlyMean, Except.bind, conclude, hmissed', best, htie]

theorem aroundOrFar_tie : ∃ res a,
    (run (.pure aroundOrFar) uncorrected [1.0] mostlyMean varianceWary).1 = .ok res
      ∧ res.targetMet = false ∧ a ∈ res.trace
      ∧ a.verdict.overallTier = .good ∧ res.verdict.overallTier = .acceptable
      ∧ a.verdict.score = res.verdict.score := by
  obtain ⟨v, w, hrun, htier, htier'⟩ := run_aroundOrFar
  have hbetter : w.overallTier.rank < v.overallTier.rank := by
    rw [htier, htier']
    decide
  obtain ⟨-, -, -, hmissed⟩ := score_ordered_and_eq_of_missed
  refine ⟨_, ⟨⟨.quantile, 1⟩, w⟩, hrun, rfl, by simp, htier', htier, ?_⟩
  exact hmissed _ _ _ _ _ _ _ hrun rfl _ (by simp) hbetter

end Search

end BinGrade
