import BinGrade.Proofs.Binary64.Arithmetic
import BinGrade.Verdict.Evaluate

/-!
# Usable weights

A comparison refuses weights that are negative or not finite. Weights that were scaled to sum to one
are never of this kind, even if their sum was rounded or ran over, so the weights that an engine
blends can always be compared with.
-/

namespace BinGrade

open Binary64

namespace Weights

/-! ### Checks of components -/

theorem checkComponents_eq_ok_iff {α : Type} [Scalar α] {w : Weights α} :
    w.checkComponents = .ok () ↔ ∀ m, isUsable (w.get m) = true := by
  have hmoments : (∀ m, isUsable (w.get m) = true) ↔ isUsable w.mean = true
      ∧ isUsable w.variance = true ∧ isUsable w.skewness = true ∧ isUsable w.kurtosis = true := by
    refine ⟨fun h => ⟨h .mean, h .variance, h .skewness, h .kurtosis⟩, ?_⟩
    rintro ⟨hmean, hvariance, hskewness, hkurtosis⟩ m
    cases m <;> assumption
  rw [hmoments]
  unfold checkComponents checkComponent
  cases isUsable w.mean <;> cases isUsable w.variance <;> cases isUsable w.skewness <;>
    cases isUsable w.kurtosis <;> simp [bind, Except.bind]

theorem isUsable_iff {x : Float} : isUsable x = true ↔ x.isFinite = true ∧ 0 ≤ value x := by
  have hzero : value (0.0 : Float) = 0 := rfl
  have hnegative (h : x.isFinite = true) : x < (0.0 : Float) ↔ value x < 0 := by
    rw [← hzero]
    exact lt_iff (isNaN_of_isFinite h) rfl
  unfold isUsable
  rw [Bool.and_eq_true, Bool.not_eq_true', decide_eq_false_iff_not]
  constructor
  · rintro ⟨hfinite, hlt⟩
    exact ⟨hfinite, not_lt.mp fun h => hlt ((hnegative hfinite).mpr h)⟩
  · rintro ⟨hfinite, hle⟩
    exact ⟨hfinite, fun h => not_lt.mpr hle ((hnegative hfinite).mp h)⟩

/-! ### Scaling -/

theorem value_le_foldl_add {xs : List Float} (hxs : ∀ x ∈ xs, isUsable x = true) {start : Float}
    (hnumber : start.isNaN = false) (hstart : 0 ≤ value start) :
    (xs.foldl (· + ·) start).isNaN = false ∧ value start ≤ value (xs.foldl (· + ·) start)
      ∧ ∀ x ∈ xs, value x ≤ value (xs.foldl (· + ·) start) := by
  induction xs generalizing start with
  | nil => exact ⟨hnumber, le_rfl, by simp⟩
  | cons x xs ih =>
    obtain ⟨hfinite, hx⟩ := isUsable_iff.mp (hxs x (List.mem_cons_self ..))
    obtain ⟨hsum, hleft, hright⟩ := value_le_add hnumber (isNaN_of_isFinite hfinite) hstart hx
    obtain ⟨hlast, hle, hrest⟩ :=
      ih (fun y hy => hxs y (List.mem_cons_of_mem x hy)) hsum (hstart.trans hleft)
    rw [List.foldl_cons]
    refine ⟨hlast, hleft.trans hle, ?_⟩
    intro y hy
    rcases List.mem_cons.mp hy with rfl | hy
    · exact hright.trans hle
    · exact hrest y hy

/-- A part of a total is usable: the quotient is at most one, and zero if the total is infinite. -/
theorem isUsable_div {x total : Float} (hx : isUsable x = true) (hnumber : total.isNaN = false)
    (hpos : 0 < value total) (hle : value x ≤ value total) : isUsable (x / total) = true := by
  obtain ⟨hfinite, hx0⟩ := isUsable_iff.mp hx
  by_cases htotal : total.isFinite = true
  · have hvalue := value_div hfinite htotal hpos.ne'
    have hlow : 0 ≤ value (x / total) := by
      rw [hvalue]
      exact nearest_nonneg (div_nonneg hx0 hpos.le)
    have hhigh : value (x / total) ≤ 1 := by
      rw [hvalue, ← nearest_one]
      exact nearest_mono ((div_le_one hpos).mpr hle)
    have hnan := isNaN_div_right (isNaN_of_isFinite hfinite) htotal hpos.ne'
    refine isUsable_iff.mpr ⟨(isFinite_iff hnan).mpr ?_, hlow⟩
    rw [abs_of_nonneg hlow]
    exact lt_of_le_of_lt hhigh one_lt_limit
  · obtain ⟨hquotient, hzero⟩ := value_div_of_not_isFinite hfinite hnumber htotal
    exact isUsable_iff.mpr ⟨hquotient, hzero.ge⟩

theorem value_le_sum {w : Weights Float} (h : ∀ m, isUsable (w.get m) = true) :
    w.sum.isNaN = false ∧ ∀ m, value (w.get m) ≤ value w.sum := by
  have hlist : ∀ x ∈ w.toList, isUsable x = true := by
    intro x hx
    simp only [PerMoment.toList, List.mem_cons, List.not_mem_nil, or_false] at hx
    rcases hx with rfl | rfl | rfl | rfl
    exacts [h .mean, h .variance, h .skewness, h .kurtosis]
  have hstart : 0 ≤ value (-0.0 : Float) := le_refl (0 : ℚ)
  obtain ⟨hnumber, -, hle⟩ := value_le_foldl_add hlist rfl hstart
  refine ⟨hnumber, fun m => hle _ ?_⟩
  cases m <;> simp [PerMoment.get, PerMoment.toList]

theorem checkComponents_of_normalize {w n : Weights Float} (h : w.normalize = .ok n) :
    n.checkComponents = .ok () := by
  unfold normalize at h
  obtain ⟨_, hcheck, h⟩ := exists_of_bind_eq_ok h
  dsimp only at h
  split at h
  · cases h
  rename_i hsum
  cases h
  have husable := checkComponents_eq_ok_iff.mp hcheck
  obtain ⟨hnumber, hle⟩ := value_le_sum husable
  have hpos : 0 < value w.sum := by
    by_contra hnot
    exact hsum ((le_iff hnumber rfl).mpr (not_lt.mp hnot))
  rw [checkComponents_eq_ok_iff]
  intro m
  rw [PerMoment.get_map]
  exact isUsable_div (husable m) hnumber hpos (hle m)

end Weights

/-! ### Engines -/

namespace WeightTables

variable {α : Type} [Scalar α] {t : WeightTables α}

theorem checkRows_eq_ok_iff {rows : List WeightRow} :
    t.checkRows rows = .ok () ↔ ∀ r ∈ rows, t.checkRow r = .ok () := by
  induction rows with
  | nil => simp [checkRows]
  | cons r rows ih =>
    unfold checkRows
    cases hr : t.checkRow r with
    | ok u => simpa [bind, Except.bind, hr] using ih
    | error fault => simp [bind, Except.bind, hr]

theorem mem_all_rows (r : WeightRow) : r ∈ WeightRow.all := by
  rcases r with k | k | k <;> cases k <;> decide

theorem checkComponents_row (h : t.check = .ok ()) (r : WeightRow) :
    (t.row r).checkComponents = .ok () := by
  have hrow := checkRows_eq_ok_iff.mp h r (mem_all_rows r)
  unfold checkRow Weights.check at hrow
  cases hc : (t.row r).checkComponents with
  | ok u => rfl
  | error fault =>
    rw [hc] at hrow
    cases hrow

theorem check_builtin : (builtin : WeightTables Float).check = .ok () := by
  have h : (builtin : WeightTables Float).check.toBool = true := by decide +kernel
  obtain ⟨_, hcheck⟩ := exists_ok_of_toBool h
  exact hcheck

end WeightTables

namespace WeightEngine

/-- The engines that can be made. -/
inductive Made : WeightEngine Float → Prop
  | standard : Made .standard
  | ofTables {t : WeightTables Float} {i : Influence Float} {e : WeightEngine Float}
      (h : ofTables t i = .ok e) : Made e
  | ofInfluence (i : Influence Float) : Made (.ofInfluence i)

theorem Made.check {e : WeightEngine Float} (h : Made e) : e.tables.check = .ok () := by
  cases h with
  | standard => exact WeightTables.check_builtin
  | ofTables h =>
    unfold WeightEngine.ofTables at h
    obtain ⟨_, hcheck, h⟩ := exists_of_bind_eq_ok h
    cases h
    exact hcheck
  | ofInfluence i => exact WeightTables.check_builtin

theorem checkComponents_combine (e : WeightEngine Float) {context : Weights Float}
    (h : context.checkComponents = .ok ()) (distribution objective : Option (Signal Float)) :
    (e.combine context distribution objective).checkComponents = .ok () := by
  unfold combine
  dsimp only
  split
  · exact h
  split
  · exact Weights.checkComponents_of_normalize ‹_›
  · exact h

theorem Made.checkComponents_resolve {e : WeightEngine Float} (h : Made e) (c : Context)
    (label : Option (ShapeLabel Float)) (objective : Option Objective) :
    (e.resolve c label objective).checkComponents = .ok () :=
  checkComponents_combine e (WeightTables.checkComponents_row h.check (.context c)) _ _

end WeightEngine

/-! ### Prepared samples -/

theorem compareMoments_eq_ok (raw estimated : Moments Float) {xs : List Float}
    {w : Weights Float} (hlist : Weights.ofList xs = .ok w) (hcheck : w.checkComponents = .ok ()) :
    ∃ c, compareMoments raw estimated xs = .ok c := by
  unfold compareMoments
  rw [hlist]
  simp only [bind, Except.bind, hcheck]
  exact ⟨_, rfl⟩

namespace Evaluator

variable {e : Evaluator Float} {r : Request Float} {p : Prepared Float}

/-- The weights of a request that passed its check, or else of a sound engine, can be compared with.
-/
theorem exists_usable_weightsFor (he : e.engine.Made) (hr : r.check = .ok ())
    (label : ShapeLabel Float) :
    ∃ w, Weights.ofList (e.weightsFor label r) = .ok w ∧ w.checkComponents = .ok () := by
  unfold weightsFor
  cases hw : r.weights with
  | none =>
    refine ⟨e.engine.resolve r.context (some label) r.objective, ?_, he.checkComponents_resolve ..⟩
    unfold Weights.ofList
    rw [PerMoment.ofList?_toList]
  | some xs =>
    unfold Request.check at hr
    rw [hw] at hr
    exact exists_of_bind_eq_ok hr

theorem check_of_prepare {tables : Tables Float} {xs : List Float}
    (h : e.prepare tables xs r = .ok p) : r.check = .ok () := by
  unfold prepare at h
  obtain ⟨_, hcheck, _⟩ := exists_of_bind_eq_ok h
  exact eq_ok_of_mapError_eq_ok hcheck

/-- Once a sample is prepared, every histogram of it has a verdict. -/
theorem exists_evaluatePrepared (he : e.engine.Made) {tables : Tables Float} {xs : List Float}
    (hp : e.prepare tables xs r = .ok p) (h : Histogram Float) :
    ∃ v, e.evaluatePrepared p h r = .ok v := by
  obtain ⟨w, hlist, hcheck⟩ := exists_usable_weightsFor he (check_of_prepare hp) p.label
  obtain ⟨c, hc⟩ := compareMoments_eq_ok p.moments (e.estimator.estimate h) hlist hcheck
  unfold evaluatePrepared
  simp only [hc, Except.mapError, bind, Except.bind]
  exact ⟨_, rfl⟩

end Evaluator

end BinGrade
