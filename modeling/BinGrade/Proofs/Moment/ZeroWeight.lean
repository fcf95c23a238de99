import BinGrade.Proofs.Binary64.Sign
import BinGrade.Proofs.Verdict.Acceptance
import BinGrade.Proofs.Weight.Usable

/-!
# Moments of no weight

A weighted error is a product, so a weight of zero takes a moment out of a comparison only as long as
there is something to multiply. If the error itself is infinite, or is no number, then neither is its
product with zero a number, and the total is lost with it.
-/

namespace BinGrade

open Binary64

section Errors

theorem abs_relativeError (raw estimated : Float) :
    (relativeError raw estimated).abs = relativeError raw estimated := by
  unfold relativeError
  split
  · exact abs_mul_of_abs (abs_div_of_abs (abs_abs _) (abs_abs _)) (by decide +kernel)
  split
  · decide +kernel
  · decide +kernel

theorem compareMoments_eq_ok_iff {raw estimated : Moments Float} {weights : List Float}
    {c : Comparison Float} : compareMoments raw estimated weights = .ok c ↔
      ∃ w, Weights.ofList weights = .ok w ∧ (∀ m, Weights.isUsable (w.get m) = true)
        ∧ c.components = errorComponents raw estimated (appliedWeights w)
        ∧ c.total = Scalar.total (c.components.map (·.weighted)).toList := by
  constructor
  · intro hc
    obtain ⟨w, hw, hc⟩ := exists_of_bind_eq_ok hc
    obtain ⟨_, hcheck, hc⟩ := exists_of_bind_eq_ok hc
    cases hc
    exact ⟨w, hw, Weights.checkComponents_eq_ok_iff.mp hcheck, rfl, rfl⟩
  · rintro ⟨w, hw, husable, hcomponents, htotal⟩
    unfold compareMoments
    rw [hw]
    simp only [bind, Except.bind, Weights.checkComponents_eq_ok_iff.mpr husable, pure, Except.pure]
    rw [← hcomponents, ← htotal]

end Errors

namespace Weights

variable {w : Weights Float} {m : Moment}

theorem value_of_beq_zero (h : (w.get m == 0.0) = true) : value (w.get m) = 0 :=
  (beq_iff (isNaN_of_beq h).1 rfl).mp h

/-- Scaling leaves a zero as it is, also where the sum of the weights is infinite. -/
theorem get_appliedWeights_of_zero (husable : ∀ m, isUsable (w.get m) = true)
    (hzero : (w.get m == 0.0) = true) : (appliedWeights w).get m = w.get m := by
  unfold appliedWeights
  split
  · next hpos =>
    have hnumber := (value_le_sum husable).1
    rw [PerMoment.get_map]
    exact zero_div_eq_self (isUsable_iff.mp (husable m)).1 (value_of_beq_zero hzero) hnumber
      ((lt_iff rfl hnumber).mp hpos)
  · rfl

end Weights

theorem isFinite_foldl_add_zeros {xs : List Float} {start : Float}
    (hxs : ∀ x ∈ xs, x.isFinite = true ∧ value x = 0)
    (hstart : start.isFinite = true ∧ value start = 0) :
    (xs.foldl (· + ·) start).isFinite = true ∧ value (xs.foldl (· + ·) start) = 0 := by
  induction xs generalizing start with
  | nil => exact hstart
  | cons x xs ih =>
    obtain ⟨hx, hzero⟩ := hxs x (List.mem_cons_self ..)
    obtain ⟨hnumber, hvalue⟩ := value_add hstart.1 hx
    rw [hstart.2, hzero, add_zero, show nearest 0 = 0 from nearest_value (0.0 : Float)] at hvalue
    apply ih (fun y hy => hxs y (List.mem_cons_of_mem x hy))
    refine ⟨(isFinite_iff hnumber).mpr ?_, hvalue⟩
    rw [hvalue, abs_zero]
    exact limit_pos

theorem PerMoment.eq_of_get {β : Type} {p q : PerMoment β} (h : ∀ m, p.get m = q.get m) : p = q := by
  obtain ⟨hmean, hvariance, hskewness, hkurtosis⟩ := Moment.forall_iff.mp h
  cases p
  cases q
  simp only [get] at hmean hvariance hskewness hkurtosis
  rw [hmean, hvariance, hskewness, hkurtosis]

namespace Ceilings

variable {c : Ceilings Float} {x : Float}

theorem tierFor_of_zero (hc : c.Sound) (hx : x.isNaN = false) (hzero : value x = 0) :
    tierFor c x = .excellent := by
  obtain ⟨hfinite, hpos⟩ := hc.positive c.excellent (by simp [PerTier.toList])
  have hle : x ≤ c.excellent := by
    rw [le_iff hx (isNaN_of_isFinite hfinite), hzero]
    exact ((lt_iff rfl (isNaN_of_isFinite hfinite)).mp hpos).le
  simp [tierFor, PerTier.firstTier, hle]

theorem tierFor_of_isNaN (hx : x.isNaN = true) : tierFor c x = .unacceptable := by
  have hnone : ∀ ceiling : Float, ¬x ≤ ceiling := by
    intro ceiling hle
    rw [(isNaN_of_le hle).1] at hx
    cases hx
  simp [tierFor, PerTier.firstTier, hnone]

end Ceilings

namespace Comparison

/-- The comparison takes no notice of a moment: whatever its error is, nothing of it is counted, and
sound thresholds grade it best. -/
structure Ignores (c : Comparison Float) (m : Moment) : Prop where
  weight : ((c.components.get m).weight == 0.0) = true
  weighted : ((c.components.get m).weighted == 0.0) = true
  tier : ∀ (s : ThresholdSet Float) (field : String), s.check field = .ok () →
    s.momentTier m (c.components.get m).weighted = .excellent

/-- The comparison has no result because of a moment, and no thresholds grade it above worst. -/
structure LostAt (c : Comparison Float) (m : Moment) : Prop where
  weighted : (c.components.get m).weighted.isNaN = true
  total : c.total.isNaN = true
  tier : ∀ s : ThresholdSet Float,
    s.momentTier m (c.components.get m).weighted = .unacceptable
      ∧ s.totalTier c.total = .unacceptable

section Weighing

variable {raw estimated raw' estimated' : Moments Float} {weights : List Float} {w : Weights Float}
  {c c' : Comparison Float} {m : Moment}

theorem component_of_zero_weight (hw : Weights.ofList weights = .ok w)
    (hc : compareMoments raw estimated weights = .ok c) (hzero : (w.get m == 0.0) = true) :
    c.components.get m = .of (relativeError (raw.get m) (estimated.get m)) (w.get m)
      ∧ (w.get m).isFinite = true ∧ value (w.get m) = 0 := by
  obtain ⟨w', hw', husable, hcomponents, -⟩ := compareMoments_eq_ok_iff.mp hc
  obtain rfl : w = w' := Except.ok.inj (hw.symm.trans hw')
  refine ⟨?_, (Weights.isUsable_iff.mp (husable m)).1, Weights.value_of_beq_zero hzero⟩
  rw [hcomponents, errorComponents, PerMoment.get_of,
    Weights.get_appliedWeights_of_zero husable hzero]

theorem weighted_of_zero_weight (hw : Weights.ofList weights = .ok w)
    (hc : compareMoments raw estimated weights = .ok c) (hzero : (w.get m == 0.0) = true)
    (hfinite : (c.components.get m).rawPercent.isFinite = true) :
    (c.components.get m).weighted = w.get m := by
  obtain ⟨hcomponent, hweight, hvalue⟩ := component_of_zero_weight hw hc hzero
  rw [hcomponent] at hfinite ⊢
  exact zero_mul_eq_self hweight hvalue hfinite (abs_relativeError ..)

theorem ignores_of_isFinite (hw : Weights.ofList weights = .ok w)
    (hc : compareMoments raw estimated weights = .ok c) (hzero : (w.get m == 0.0) = true)
    (hfinite : (c.components.get m).rawPercent.isFinite = true) : c.Ignores m := by
  obtain ⟨hcomponent, hweight, hvalue⟩ := component_of_zero_weight hw hc hzero
  have hweighted := weighted_of_zero_weight hw hc hzero hfinite
  refine ⟨?_, ?_, ?_⟩
  · rw [hcomponent]
    exact hzero
  · rw [hweighted]
    exact hzero
  · intro s field hs
    rw [hweighted]
    exact Ceilings.tierFor_of_zero ((ThresholdSet.check_eq_ok_iff.mp hs).moments m)
      (isNaN_of_isFinite hweight) hvalue

theorem total_eq (hc : compareMoments raw estimated weights = .ok c) :
    c.total = Scalar.total (c.components.map (·.weighted)).toList := by
  obtain ⟨_, _, _, _, htotal⟩ := compareMoments_eq_ok_iff.mp hc
  exact htotal

theorem lostAt_of_not_isFinite (hw : Weights.ofList weights = .ok w)
    (hc : compareMoments raw estimated weights = .ok c) (hzero : (w.get m == 0.0) = true)
    (hinfinite : (c.components.get m).rawPercent.isFinite = false) : c.LostAt m := by
  obtain ⟨hcomponent, hweight, hvalue⟩ := component_of_zero_weight hw hc hzero
  have hweighted : (c.components.get m).weighted.isNaN = true := by
    rw [hcomponent] at hinfinite ⊢
    exact isNaN_zero_mul_of_not_isFinite hweight hvalue hinfinite
  have htotal : c.total.isNaN = true := by
    rw [total_eq hc]
    refine isNaN_foldl_add ?_ hweighted
    cases m <;> simp [PerMoment.toList, PerMoment.map, PerMoment.get]
  exact ⟨hweighted, htotal, fun s =>
    ⟨Ceilings.tierFor_of_isNaN hweighted, Ceilings.tierFor_of_isNaN htotal⟩⟩

theorem total_congr (hc : compareMoments raw estimated weights = .ok c)
    (hc' : compareMoments raw' estimated' weights = .ok c')
    (h : ∀ m, (c.components.get m).weighted = (c'.components.get m).weighted) :
    c.total = c'.total := by
  rw [total_eq hc, total_eq hc']
  congr 2
  apply PerMoment.eq_of_get
  simpa using h

theorem total_of_all_zero (hw : Weights.ofList weights = .ok w)
    (hc : compareMoments raw estimated weights = .ok c) (hzero : ∀ m, (w.get m == 0.0) = true)
    (hfinite : ∀ m, (c.components.get m).rawPercent.isFinite = true) :
    (c.total == 0.0) = true := by
  have hmembers : ∀ x ∈ (c.components.map (·.weighted)).toList, x.isFinite = true ∧ value x = 0 := by
    rw [PerMoment.forall_mem_toList]
    intro m
    rw [PerMoment.get_map, weighted_of_zero_weight hw hc (hzero m) (hfinite m)]
    exact (component_of_zero_weight hw hc (hzero m)).2
  have hstart : (-0.0 : Float).isFinite = true ∧ value (-0.0) = 0 := ⟨rfl, rfl⟩
  obtain ⟨htotal, hvalue⟩ := isFinite_foldl_add_zeros hmembers hstart
  rw [total_eq hc]
  exact (beq_iff (isNaN_of_isFinite htotal) rfl).mpr hvalue

theorem not_ignores_of_lostAt (h : c.LostAt m) : ¬c.Ignores m := by
  intro hignored
  have hnan := h.weighted
  rw [(isNaN_of_beq hignored.weighted).1] at hnan
  cases hnan

theorem ignores_iff (hw : Weights.ofList weights = .ok w)
    (hc : compareMoments raw estimated weights = .ok c) (hzero : (w.get m == 0.0) = true) :
    (c.Ignores m ↔ (c.components.get m).rawPercent.isFinite = true)
      ∧ (c.LostAt m ↔ (c.components.get m).rawPercent.isFinite = false) := by
  cases hfinite : (c.components.get m).rawPercent.isFinite with
  | true =>
    have hignored := ignores_of_isFinite hw hc hzero hfinite
    have hkept : ¬c.LostAt m := fun hlost => not_ignores_of_lostAt hlost hignored
    simp [hignored, hkept]
  | false =>
    have hlost := lostAt_of_not_isFinite hw hc hzero hfinite
    simp [hlost, not_ignores_of_lostAt hlost]

theorem components_congr (hc : compareMoments raw estimated weights = .ok c)
    (hc' : compareMoments raw' estimated' weights = .ok c') (hraw : raw.get m = raw'.get m)
    (hestimated : estimated.get m = estimated'.get m) :
    c.components.get m = c'.components.get m := by
  obtain ⟨w₁, hw₁, _, hcomponents, _⟩ := compareMoments_eq_ok_iff.mp hc
  obtain ⟨w₂, hw₂, _, hcomponents', _⟩ := compareMoments_eq_ok_iff.mp hc'
  obtain rfl : w₁ = w₂ := Except.ok.inj (hw₁.symm.trans hw₂)
  rw [hcomponents, hcomponents', errorComponents, errorComponents, PerMoment.get_of,
    PerMoment.get_of, hraw, hestimated]

theorem total_eq_of_ignores (hw : Weights.ofList weights = .ok w)
    (hc : compareMoments raw estimated weights = .ok c)
    (hc' : compareMoments raw' estimated' weights = .ok c')
    (h : ∀ m, raw.get m = raw'.get m ∧ estimated.get m = estimated'.get m
      ∨ (w.get m == 0.0) = true ∧ c.Ignores m ∧ c'.Ignores m) : c.total = c'.total := by
  apply total_congr hc hc'
  intro m
  rcases h m with ⟨hraw, hestimated⟩ | ⟨hzero, hleft, hright⟩
  · rw [components_congr hc hc' hraw hestimated]
  · rw [weighted_of_zero_weight hw hc hzero ((ignores_iff hw hc hzero).1.mp hleft),
      weighted_of_zero_weight hw hc' hzero ((ignores_iff hw hc' hzero).1.mp hright)]

theorem total_eq_zero_iff (hw : Weights.ofList weights = .ok w)
    (hc : compareMoments raw estimated weights = .ok c) (hzero : ∀ m, (w.get m == 0.0) = true) :
    (c.total == 0.0) = true ↔ ∀ m, c.Ignores m := by
  constructor
  · intro htotal m
    rw [(ignores_iff hw hc (hzero m)).1]
    by_contra hnot
    have hlost := lostAt_of_not_isFinite hw hc (hzero m) (Bool.eq_false_iff.mpr hnot)
    have hnan := hlost.total
    rw [(isNaN_of_beq htotal).1] at hnan
    cases hnan
  · intro hall
    exact total_of_all_zero hw hc hzero fun m => (ignores_iff hw hc (hzero m)).1.mp (hall m)

/-- A moment of weight zero is ignored if its relative error is finite, and otherwise it costs the
total. The values of an ignored moment do not enter the total. -/
theorem ignores_iff_isFinite_and_total (hw : Weights.ofList weights = .ok w)
    (hc : compareMoments raw estimated weights = .ok c)
    (hc' : compareMoments raw' estimated' weights = .ok c') :
    (∀ m, (w.get m == 0.0) = true →
      (c.Ignores m ↔ (c.components.get m).rawPercent.isFinite = true)
        ∧ (c.LostAt m ↔ (c.components.get m).rawPercent.isFinite = false))
      ∧ ((∀ m, raw.get m = raw'.get m ∧ estimated.get m = estimated'.get m
          ∨ (w.get m == 0.0) = true ∧ c.Ignores m ∧ c'.Ignores m) → c.total = c'.total)
      ∧ ((∀ m, (w.get m == 0.0) = true) →
        (∀ m, ((c.components.get m).weight == 0.0) = true)
          ∧ ((c.total == 0.0) = true ↔ ∀ m, c.Ignores m)) := by
  refine ⟨fun m => ignores_iff hw hc, total_eq_of_ignores hw hc hc', ?_⟩
  intro hzero
  refine ⟨?_, total_eq_zero_iff hw hc hzero⟩
  intro m
  rw [(component_of_zero_weight hw hc (hzero m)).1]
  exact hzero m

end Weighing

/-- Two samples that differ only in a mean of no weight, which the bin misses by different errors. -/
theorem shifted_total_eq :
    ∃ c c', (⟨true⟩ : Estimator).totalError [1.0] ⟨[0.0, 8.0], [1]⟩ [0.0, 1.0, 1.0, 2.0] = .ok c
      ∧ (⟨true⟩ : Estimator).totalError [3.0] ⟨[0.0, 8.0], [1]⟩ [0.0, 1.0, 1.0, 2.0] = .ok c'
      ∧ c.Ignores .mean ∧ c'.Ignores .mean ∧ c.total = c'.total := by
  have hfound : ((⟨true⟩ : Estimator).totalError [1.0] ⟨[0.0, 8.0], [1]⟩
      [0.0, 1.0, 1.0, 2.0]).toOption.map (·.components.mean.rawPercent) = some (300.0 : Float) := by
    decide +kernel
  have hfound' : ((⟨true⟩ : Estimator).totalError [3.0] ⟨[0.0, 8.0], [1]⟩
      [0.0, 1.0, 1.0, 2.0]).toOption.map (·.components.mean.rawPercent.isFinite) = some true := by
    decide +kernel
  obtain ⟨c, hc, hpercent⟩ := Option.map_eq_some_iff.mp hfound
  obtain ⟨c', hc', hpercent'⟩ := Option.map_eq_some_iff.mp hfound'
  have ok := eq_ok_of_toOption hc
  have ok' := eq_ok_of_toOption hc'
  have hfinite : (c.components.get .mean).rawPercent.isFinite = true := by
    change c.components.mean.rawPercent.isFinite = true
    rw [hpercent]
    rfl
  obtain ⟨hzero, htotal, -⟩ := ignores_iff_isFinite_and_total rfl ok ok'
  have hignored := (hzero .mean rfl).1.mpr hfinite
  have hignored' := ((ignores_iff_isFinite_and_total rfl ok' ok').1 .mean rfl).1.mpr hpercent'
  refine ⟨c, c', ok, ok', hignored, hignored', htotal ?_⟩
  rw [Moment.forall_iff]
  exact ⟨.inr ⟨rfl, hignored, hignored'⟩, .inl (by decide +kernel), .inl (by decide +kernel),
    .inl (by decide +kernel)⟩

/-- The mean of a tiny sample has no weight, and its infinite error costs the total all the same. -/
theorem tiny_lostAt_mean :
    ∃ c, (⟨true⟩ : Estimator).totalError [1e-9] ⟨[1e307, 1.5e308], [1]⟩ [0.0, 1.0, 0.0, 0.0] = .ok c
      ∧ Sample.allFinite [(1e-9 : Float)] = true ∧ ¬c.Ignores .mean ∧ c.LostAt .mean := by
  have hfound : ((⟨true⟩ : Estimator).totalError [1e-9] ⟨[1e307, 1.5e308], [1]⟩
      [0.0, 1.0, 0.0, 0.0]).toOption.map (·.components.mean.rawPercent.isFinite) = some false := by
    decide +kernel
  obtain ⟨c, hc, hinfinite⟩ := Option.map_eq_some_iff.mp hfound
  have ok := eq_ok_of_toOption hc
  have hlost : c.LostAt .mean := (ignores_iff rfl ok rfl).2.mpr hinfinite
  exact ⟨c, ok, by decide +kernel, not_ignores_of_lostAt hlost, hlost⟩

end Comparison

end BinGrade
