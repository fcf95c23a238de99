import BinGrade.Form.Histogram
import BinGrade.Proofs.Binary64.Overflow
import BinGrade.Proofs.Json.Form
import BinGrade.Proofs.Moment.ZeroWeight

/-!
# Normalization

Weights that are scaled by their sum sum to one up to rounding: each addition is right up to a share
of its result, so is each quotient, and there are few of them. This holds from the smallest weights on
as long as the sum is finite. If the sum runs over, every scaled weight is zero.

The components of a vector are read from its document one by one, so what comes back depends on how
the reader rounds.
-/

namespace BinGrade

open Binary64 Json Json.Record
open NumberReader (Keeps ReadsAs ReadsBack)

/-! ### Rounded sums -/

section Sums

/-- The sum of doubles without any rounding. -/
def exactSum (xs : List Float) : ℚ := (xs.map value).sum

theorem exactSum_nonneg {xs : List Float} (h : ∀ x ∈ xs, Weights.isUsable x = true) :
    0 ≤ exactSum xs := by
  apply List.sum_nonneg
  intro v hv
  obtain ⟨x, hx, rfl⟩ := List.mem_map.mp hv
  exact (Weights.isUsable_iff.mp (h x hx)).2

theorem isUsable_of_isFinite_foldl {xs : List Float} (hxs : ∀ x ∈ xs, Weights.isUsable x = true)
    {start : Float} (hnumber : start.isNaN = false) (hstart : 0 ≤ value start)
    (h : (xs.foldl (· + ·) start).isFinite = true) : Weights.isUsable start = true := by
  obtain ⟨hlast, hle, _⟩ := Weights.value_le_foldl_add hxs hnumber hstart
  have hlimit := (isFinite_iff hlast).mp h
  refine Weights.isUsable_iff.mpr ⟨(isFinite_iff hnumber).mpr ?_, hstart⟩
  rw [abs_of_nonneg hstart]
  rw [abs_of_nonneg (hstart.trans hle)] at hlimit
  exact hle.trans_lt hlimit

/-- Every addition changes the sum by at most a share of it, and there is no smaller error than that:
doubles are multiples of the smallest step. -/
theorem foldl_add_bounds {xs : List Float} (hxs : ∀ x ∈ xs, Weights.isUsable x = true)
    {start : Float} (hstart : Weights.isUsable start = true)
    (h : (xs.foldl (· + ·) start).isFinite = true) :
    (value start + exactSum xs) * (1 - unitRoundoff) ^ xs.length ≤ value (xs.foldl (· + ·) start)
      ∧ value (xs.foldl (· + ·) start)
        ≤ (value start + exactSum xs) * (1 + unitRoundoff) ^ xs.length := by
  induction xs generalizing start with
  | nil => simp [exactSum]
  | cons x xs ih =>
    have hmembers := fun y hy => hxs y (List.mem_cons_of_mem x hy)
    obtain ⟨hfinite, hstart0⟩ := Weights.isUsable_iff.mp hstart
    obtain ⟨hx, hx0⟩ := Weights.isUsable_iff.mp (hxs x List.mem_cons_self)
    obtain ⟨hnumber, hleft, _⟩ := value_le_add (isNaN_of_isFinite hfinite) (isNaN_of_isFinite hx)
      hstart0 hx0
    rw [List.foldl_cons] at h ⊢
    have hnext := isUsable_of_isFinite_foldl hmembers hnumber (hstart0.trans hleft) h
    obtain ⟨hlow, hhigh⟩ := ih hmembers hnext h
    have hstep := abs_value_add_sub_le hfinite hx (Weights.isUsable_iff.mp hnext).1
    rw [abs_of_nonneg (add_nonneg hstart0 hx0), abs_le] at hstep
    have hrest := exactSum_nonneg hmembers
    have hu := unitRoundoff_pos
    have hshare := mul_nonneg hrest hu.le
    have hsplit : exactSum (x :: xs) = value x + exactSum xs := rfl
    rw [hsplit, List.length_cons, pow_succ', pow_succ', ← mul_assoc, ← mul_assoc]
    constructor
    · refine le_trans (mul_le_mul_of_nonneg_right ?_ ?_) hlow
      · linarith
      · exact pow_nonneg (by linarith [unitRoundoff_le_one]) _
    · refine hhigh.trans (mul_le_mul_of_nonneg_right ?_ ?_)
      · linarith
      · exact pow_nonneg (by linarith) _

/-- Members below a common bound have a finite sum. -/
theorem value_foldl_add_le {xs : List Float} {k : ℕ}
    (hxs : ∀ x ∈ xs, Weights.isUsable x = true ∧ value x ≤ k) {start : Float} {n : ℕ}
    (hstart : Weights.isUsable start = true ∧ value start ≤ n)
    (hn : n + k * xs.length ≤ 2 ^ 53) :
    Weights.isUsable (xs.foldl (· + ·) start) = true := by
  induction xs generalizing start n with
  | nil => exact hstart.1
  | cons x xs ih =>
    obtain ⟨hx, hxk⟩ := hxs x List.mem_cons_self
    obtain ⟨hfinite, hx0⟩ := Weights.isUsable_iff.mp hx
    obtain ⟨hstartfinite, hstart0⟩ := Weights.isUsable_iff.mp hstart.1
    obtain ⟨hnumber, hvalue⟩ := value_add hstartfinite hfinite
    rw [List.length_cons, Nat.mul_succ] at hn
    have hnext : value (start + x) ≤ (n + k : ℕ) := by
      have hgrid : nearest ((n + k : ℕ) : ℚ) = (n + k : ℕ) :=
        nearest_of_onGrid (onGrid_natCast (by omega)) (natCast_lt_limit (by omega)).le
      rw [hvalue, ← hgrid]
      apply nearest_mono
      push_cast
      linarith [hstart.2]
    have hnonneg : 0 ≤ value (start + x) := by
      rw [hvalue]
      exact nearest_nonneg (add_nonneg hstart0 hx0)
    have husable : Weights.isUsable (start + x) = true := by
      refine Weights.isUsable_iff.mpr ⟨(isFinite_iff hnumber).mpr ?_, hnonneg⟩
      rw [abs_of_nonneg hnonneg]
      have := natCast_lt_limit (n := n + k) (by omega)
      rw [abs_of_nonneg (Nat.cast_nonneg _)] at this
      exact hnext.trans_lt this
    rw [List.foldl_cons]
    exact ih (fun y hy => hxs y (List.mem_cons_of_mem x hy)) ⟨husable, hnext⟩ (by omega)

end Sums

namespace Weights

/-! ### Scaled weights -/

/-- Weights divided by their sum. -/
def scaled (w : Weights Float) : Weights Float := w.map fun x => x / w.sum

section Scaling

variable {w : Weights Float} (husable : ∀ m, isUsable (w.get m) = true)

include husable

theorem isUsable_of_mem_toList : ∀ x ∈ w.toList, isUsable x = true :=
  PerMoment.forall_mem_toList.mpr husable

theorem sum_bounds (h : w.sum.isFinite = true) :
    exactSum w.toList * (1 - unitRoundoff) ^ 4 ≤ value w.sum
      ∧ value w.sum ≤ exactSum w.toList * (1 + unitRoundoff) ^ 4 := by
  have hbounds := foldl_add_bounds (isUsable_of_mem_toList husable)
    (show isUsable (-0.0 : Float) = true by decide +kernel) h
  have hzero : value (-0.0 : Float) = 0 := rfl
  rw [hzero, zero_add] at hbounds
  exact hbounds

theorem sum_pos (hsome : ∃ m, (w.get m == 0.0) = false) : 0 < value w.sum := by
  obtain ⟨m, hm⟩ := hsome
  obtain ⟨hfinite, hnonneg⟩ := isUsable_iff.mp (husable m)
  have hne : value (w.get m) ≠ 0 := by
    intro hzero
    have hbeq : (w.get m == 0.0) = true := (beq_iff (isNaN_of_isFinite hfinite) rfl).mpr hzero
    rw [hm] at hbeq
    cases hbeq
  exact (hnonneg.lt_of_ne hne.symm).trans_le ((value_le_sum husable).2 m)

theorem normalize_eq_scaled (hpos : 0 < value w.sum) : w.normalize = .ok w.scaled := by
  have hsum : ¬w.sum ≤ 0.0 := by
    rw [le_iff (value_le_sum husable).1 rfl]
    exact not_le.mpr hpos
  unfold normalize
  rw [checkComponents_eq_ok_iff.mpr husable]
  simp only [bind, Except.bind, if_neg hsum]
  rfl

theorem appliedWeights_eq_scaled (hpos : 0 < value w.sum) : appliedWeights w = w.scaled := by
  have hsum : (0.0 : Float) < w.sum := (lt_iff rfl (value_le_sum husable).1).mpr hpos
  exact if_pos hsum

theorem scaled_bounds (hpos : 0 < value w.sum) (m : Moment) :
    isUsable (w.scaled.get m) = true ∧ value (w.scaled.get m) ≤ 1 := by
  obtain ⟨hnumber, hle⟩ := value_le_sum husable
  have hfinite := (isUsable_iff.mp (husable m)).1
  unfold scaled
  rw [PerMoment.get_map]
  refine ⟨isUsable_div (husable m) hnumber hpos (hle m), ?_⟩
  by_cases hsum : w.sum.isFinite = true
  · rw [value_div hfinite hsum hpos.ne', ← nearest_one]
    exact nearest_mono ((div_le_one hpos).mpr (hle m))
  · rw [(value_div_of_not_isFinite hfinite hnumber hsum).2]
    exact zero_le_one

theorem abs_scaled_sub_le (hpos : 0 < value w.sum) (hsum : w.sum.isFinite = true) (m : Moment) :
    |value (w.scaled.get m) - value (w.get m) / value w.sum|
      ≤ value (w.get m) / value w.sum * unitRoundoff + leastRoundoff := by
  obtain ⟨hfinite, hnonneg⟩ := isUsable_iff.mp (husable m)
  have hshare : 0 ≤ value (w.get m) / value w.sum := div_nonneg hnonneg hpos.le
  have hle : value (w.get m) / value w.sum ≤ 1 := (div_le_one hpos).mpr ((value_le_sum husable).2 m)
  have hvalue : value (w.scaled.get m) = nearest (value (w.get m) / value w.sum) := by
    unfold scaled
    rw [PerMoment.get_map]
    exact value_div hfinite hsum hpos.ne'
  have herror := abs_nearest_sub_le (x := value (w.get m) / value w.sum)
    (by rw [abs_of_nonneg hshare]; exact hle.trans one_lt_limit.le)
  rwa [abs_of_nonneg hshare, ← hvalue] at herror

theorem isFinite_sum_of_le {k : ℕ} (hle : ∀ m, value (w.get m) ≤ k) (hk : 4 * k ≤ 2 ^ 53) :
    w.sum.isFinite = true := by
  have hlist : ∀ x ∈ w.toList, isUsable x = true ∧ value x ≤ k :=
    PerMoment.forall_mem_toList.mpr fun m => ⟨husable m, hle m⟩
  have hstart : isUsable (-0.0 : Float) = true ∧ value (-0.0 : Float) ≤ (0 : ℕ) :=
    ⟨by decide +kernel, le_refl (0 : ℚ)⟩
  have hlength : 0 + k * w.toList.length ≤ 2 ^ 53 := by
    change 0 + k * 4 ≤ 2 ^ 53
    omega
  exact (isUsable_iff.mp (value_foldl_add_le hlist hstart hlength)).1

theorem isFinite_sum_scaled (hpos : 0 < value w.sum) : w.scaled.sum.isFinite = true := by
  have hbounds := scaled_bounds husable hpos
  refine isFinite_sum_of_le (k := 1) (fun m => (hbounds m).1) (fun m => ?_) (by norm_num)
  rw [Nat.cast_one]
  exact (hbounds m).2

omit husable in
theorem exactSum_toList (v : Weights Float) : exactSum v.toList
    = value (v.get .mean) + value (v.get .variance) + value (v.get .skewness)
      + value (v.get .kurtosis) := by
  simp [exactSum, PerMoment.toList, PerMoment.get]
  ring

theorem abs_exactSum_scaled_sub_le (hpos : 0 < value w.sum) (hsum : w.sum.isFinite = true) :
    |exactSum w.scaled.toList - exactSum w.toList / value w.sum|
      ≤ exactSum w.toList / value w.sum * unitRoundoff + 4 * leastRoundoff := by
  have herror := abs_scaled_sub_le husable hpos hsum
  have hmean := abs_le.mp (herror .mean)
  have hvariance := abs_le.mp (herror .variance)
  have hskewness := abs_le.mp (herror .skewness)
  have hkurtosis := abs_le.mp (herror .kurtosis)
  rw [exactSum_toList, exactSum_toList, add_div, add_div, add_div, abs_le]
  constructor <;> linarith

/-- Scaled weights sum to one up to a few roundings. -/
theorem abs_sum_scaled_sub_one_le (hpos : 0 < value w.sum) (hsum : w.sum.isFinite = true) :
    |value w.scaled.sum - 1| ≤ 2 ^ (-30 : ℤ) := by
  have hlow : (1 - 2 ^ (-50 : ℤ) : ℚ) ≤ (1 - unitRoundoff) ^ 4 := by norm_num [unitRoundoff]
  have hhigh : (1 + unitRoundoff) ^ 4 ≤ (1 + 2 ^ (-50 : ℤ) : ℚ) := by norm_num [unitRoundoff]
  have hleast : leastRoundoff ≤ 2 ^ (-53 : ℤ) := two_zpow_le (by norm_num)
  -- the exact sum and the rounded one have a quotient near one
  obtain ⟨hlower, hupper⟩ := sum_bounds husable hsum
  have hquotient := abs_exactSum_scaled_sub_le husable hpos hsum
  have hnonneg : 0 ≤ exactSum w.toList / value w.sum :=
    div_nonneg (exactSum_nonneg (isUsable_of_mem_toList husable)) hpos.le
  have hr1 : exactSum w.toList / value w.sum * (1 - unitRoundoff) ^ 4 ≤ 1 := by
    rw [div_mul_eq_mul_div]
    exact (div_le_one hpos).mpr hlower
  have hr2 : 1 ≤ exactSum w.toList / value w.sum * (1 + unitRoundoff) ^ 4 := by
    rw [div_mul_eq_mul_div]
    exact (one_le_div hpos).mpr hupper
  generalize exactSum w.toList / value w.sum = r at *
  -- and so have the exact sum of the scaled weights and the rounded one
  obtain ⟨hlower', hupper'⟩ := sum_bounds (fun m => (scaled_bounds husable hpos m).1)
    (isFinite_sum_scaled husable hpos)
  have hsum0 : 0 ≤ exactSum w.scaled.toList :=
    exactSum_nonneg (isUsable_of_mem_toList fun m => (scaled_bounds husable hpos m).1)
  generalize exactSum w.scaled.toList = q at *
  generalize value w.scaled.sum = n at *
  have hr1' := (mul_le_mul_of_nonneg_left hlow hnonneg).trans hr1
  have hr2' := hr2.trans (mul_le_mul_of_nonneg_left hhigh hnonneg)
  have hq1 := (mul_le_mul_of_nonneg_left hlow hsum0).trans hlower'
  have hq2 := hupper'.trans (mul_le_mul_of_nonneg_left hhigh hsum0)
  obtain ⟨hleft, hright⟩ := abs_le.mp hquotient
  unfold unitRoundoff at hleft hright
  norm_num at hleft hright hr1' hr2' hq1 hq2 hleast ⊢
  rw [abs_le]
  constructor <;> linarith

/-- Where the sum runs over, nothing is left of the weights. -/
theorem value_scaled_of_not_isFinite (hsum : ¬w.sum.isFinite = true) (m : Moment) :
    (w.scaled.get m).isFinite = true ∧ value (w.scaled.get m) = 0 := by
  unfold scaled
  rw [PerMoment.get_map]
  exact value_div_of_not_isFinite (isUsable_iff.mp (husable m)).1 (value_le_sum husable).1 hsum

theorem value_sum_scaled_of_not_isFinite (hsum : ¬w.sum.isFinite = true) :
    w.scaled.sum.isFinite = true ∧ value w.scaled.sum = 0 :=
  isFinite_foldl_add_zeros
    (PerMoment.forall_mem_toList.mpr (value_scaled_of_not_isFinite husable hsum)) ⟨rfl, rfl⟩

theorem exists_scaled_pos (hpos : 0 < value w.sum) (hsum : w.sum.isFinite = true) :
    ∃ m, 0 < value (w.scaled.get m) := by
  by_contra hnone
  push Not at hnone
  have husable' := fun m => (scaled_bounds husable hpos m).1
  have hupper := (sum_bounds husable' (isFinite_sum_scaled husable hpos)).2
  have hzero : exactSum w.scaled.toList ≤ 0 := by
    rw [exactSum_toList]
    linarith [hnone .mean, hnone .variance, hnone .skewness, hnone .kurtosis]
  have hpower : 0 ≤ (1 + unitRoundoff) ^ 4 := pow_nonneg (by linarith [unitRoundoff_pos]) _
  have hnear := (abs_le.mp (abs_sum_scaled_sub_one_le husable hpos hsum)).1
  norm_num at hnear
  linarith [mul_nonpos_of_nonpos_of_nonneg hzero hpower]

end Scaling

/-! ### Acceptance -/

section Acceptance

variable {v : Weights Float}

theorem value_deviation (h : v.sum.isFinite = true) :
    (v.sum - 1.0).abs.isNaN = false ∧ value (v.sum - 1.0).abs = nearest |value v.sum - 1| := by
  obtain ⟨hnumber, hvalue⟩ := value_sub h (show (1.0 : Float).isFinite = true from rfl)
  rw [value_one] at hvalue
  refine ⟨(isNaN_abs _).trans hnumber, ?_⟩
  rw [value_abs, hvalue, abs_nearest]

theorem deviation_le (h : v.sum.isFinite = true) (hnear : |value v.sum - 1| ≤ 2 ^ (-30 : ℤ)) :
    (v.sum - 1.0).abs ≤ 1e-9 := by
  have htolerance : (2 : ℚ) ^ (-30 : ℤ) ≤ value (1e-9 : Float) := by decide +kernel
  obtain ⟨hnumber, hvalue⟩ := value_deviation h
  rw [le_iff hnumber (by decide +kernel), hvalue]
  exact nearest_le_value (hnear.trans htolerance)

theorem check_eq (husable : ∀ m, isUsable (v.get m) = true) : v.check
    = if (1e-9 : Float) < (v.sum - 1.0).abs then .error (.weightSum v.sum) else .ok v := by
  unfold check
  rw [checkComponents_eq_ok_iff.mpr husable]
  rfl

theorem eq_of_check {w : Weights Float} (h : w.check = .ok v) : v = w ∧ w.check = .ok w := by
  obtain ⟨_, hcheck, hlast⟩ := exists_of_bind_eq_ok h
  split at hlast
  · cases hlast
  · cases hlast
    exact ⟨rfl, h⟩

theorem isUsable_of_check (h : v.check = .ok v) (m : Moment) : isUsable (v.get m) = true := by
  obtain ⟨_, hcheck, _⟩ := exists_of_bind_eq_ok h
  exact checkComponents_eq_ok_iff.mp hcheck m

end Acceptance

/-! ### Documents -/

section Documents

variable [NumberReader] {v u : Weights Float}

/-- Each component is read from its own text. -/
theorem read_rawForm_iff :
    rawForm.read (rawForm.write v) = .ok u ↔ ∀ m, ReadsAs (v.get m) (u.get m) := by
  have hrow : PerMoment.fields.row ((PerMoment.fields.members v.toFields).map (·.2)) .closed
      = .ok (u.toFields, []) ↔ ∀ m, ReadsAs (v.get m) (u.get m) := by
    rw [Moment.forall_iff]
    refine row_field_eq_ok_iff.trans (and_congr Form.read_write_number_iff ?_)
    refine row_field_eq_ok_iff.trans (and_congr Form.read_write_number_iff ?_)
    refine row_field_eq_ok_iff.trans (and_congr Form.read_write_number_iff ?_)
    exact row_field_eq_ok_iff.trans ((and_iff_left rfl).trans Form.read_write_number_iff)
  rw [← hrow, ← read_tuple_eq_ok_iff]
  exact Form.read_via_eq_ok_iff (fun _ => rfl) fun _ => rfl

theorem written_rawForm (v : Weights Float) : (rawForm.write v).Written := by
  have hmembers : ∀ m ∈ PerMoment.fields.members v.toFields, m.2.Written := by
    simp only [PerMoment.fields, PerMoment.toFields, field, cons, nil, List.forall_mem_cons]
    exact ⟨Form.written_number _, Form.written_number _, Form.written_number _,
      Form.written_number _, List.forall_mem_nil _⟩
  exact written_tuple hmembers

/-- What the components are read as is what comes back, if it passes the check. -/
theorem parse_print_iff : form.parse (form.print v) = .ok u
    ↔ (∀ m, ReadsAs (v.get m) (u.get m)) ∧ u.check = .ok u := by
  rw [Form.parse_print (f := form) (written_rawForm v)]
  refine Form.read_checked_eq_ok_iff.trans ?_
  constructor
  · rintro ⟨c, hread, hcheck⟩
    obtain ⟨rfl, hself⟩ := eq_of_check (eq_ok_of_mapError_eq_ok hcheck)
    exact ⟨read_rawForm_iff.mp hread, hself⟩
  · rintro ⟨hreads, hcheck⟩
    refine ⟨u, read_rawForm_iff.mpr hreads, ?_⟩
    rw [hcheck]
    rfl

theorem parse_print_of_check [ReadsBack] (h : v.check = .ok v) : form.parse (form.print v) = .ok v :=
  parse_print_iff.mpr ⟨fun m => ReadsBack.keeps (isUsable_iff.mp (isUsable_of_check h m)).1, h⟩

theorem parse_print_of_check_error [ReadsBack] {reason : ParameterFault Float}
    (hfinite : ∀ m, (v.get m).isFinite = true) (h : v.check = .error reason) :
    form.parse (form.print v) = .error (.shape (.rejected reason.sentence)) := by
  rw [Form.parse_print (f := form) (written_rawForm v)]
  refine (Form.read_checked (read_rawForm_iff.mpr fun m => ReadsBack.keeps (hfinite m))).trans ?_
  rw [h]
  rfl

theorem check_of_read {t : Tree} (h : form.read t = .ok v) : v.check = .ok v := by
  obtain ⟨c, _, hcheck⟩ := Form.read_checked_eq_ok_iff.mp h
  obtain ⟨rfl, hself⟩ := eq_of_check (eq_ok_of_mapError_eq_ok hcheck)
  exact hself

theorem check_of_parse {s : String} (h : form.parse s = .ok v) : v.check = .ok v := by
  obtain ⟨t, hread⟩ := Form.exists_read_of_parse h
  exact check_of_read hread

end Documents

/-! ### Both outcomes -/

/-- Weights that count in full: they are accepted as they are. -/
structure SumsToOne (n : Weights Float) : Prop where
  unit : ∀ m, 0.0 ≤ n.get m ∧ n.get m ≤ 1.0
  positive : ∃ m, 0.0 < n.get m
  near : (n.sum - 1.0).abs ≤ 1e-9
  check : n.check = .ok n

/-- Weights of which nothing is left: they are refused. -/
structure Vanishes (n : Weights Float) : Prop where
  zero : ∀ m, (n.get m == 0.0) = true
  check : n.check = .error (.weightSum n.sum)

section Outcomes

variable {w : Weights Float} (husable : ∀ m, isUsable (w.get m) = true)

include husable

theorem sumsToOne_scaled (hpos : 0 < value w.sum) (hsum : w.sum.isFinite = true) :
    w.scaled.SumsToOne := by
  have hbounds := scaled_bounds husable hpos
  have hnumber (m : Moment) : (w.scaled.get m).isNaN = false :=
    isNaN_of_isFinite (isUsable_iff.mp (hbounds m).1).1
  have hnear := deviation_le (isFinite_sum_scaled husable hpos)
    (abs_sum_scaled_sub_one_le husable hpos hsum)
  have hcheck : w.scaled.check = .ok w.scaled := by
    rw [check_eq fun m => (hbounds m).1, if_neg]
    intro hlt
    exact not_le.mpr ((lt_iff (isNaN_of_lt hlt).1 (isNaN_of_lt hlt).2).mp hlt)
      ((le_iff (isNaN_of_le hnear).1 (isNaN_of_le hnear).2).mp hnear)
  refine ⟨?_, ?_, hnear, hcheck⟩
  · intro m
    rw [le_iff rfl (hnumber m), le_iff (hnumber m) rfl, value_one]
    exact ⟨(isUsable_iff.mp (hbounds m).1).2, (hbounds m).2⟩
  · obtain ⟨m, hm⟩ := exists_scaled_pos husable hpos hsum
    exact ⟨m, (lt_iff rfl (hnumber m)).mpr hm⟩

theorem vanishes_scaled (hsum : ¬w.sum.isFinite = true) : w.scaled.Vanishes := by
  have hzero := value_scaled_of_not_isFinite husable hsum
  obtain ⟨hfinite, hvalue⟩ := value_sum_scaled_of_not_isFinite husable hsum
  have husable' (m : Moment) : isUsable (w.scaled.get m) = true :=
    isUsable_iff.mpr ⟨(hzero m).1, (hzero m).2.ge⟩
  have hcheck : w.scaled.check = .error (.weightSum w.scaled.sum) := by
    obtain ⟨hnumber, hdeviation⟩ := value_deviation hfinite
    have htolerance : value (1e-9 : Float) < 1 := by decide +kernel
    rw [hvalue, zero_sub, abs_neg, abs_one, nearest_one] at hdeviation
    rw [check_eq husable', if_pos]
    rw [lt_iff (by decide +kernel) hnumber, hdeviation]
    exact htolerance
  refine ⟨?_, hcheck⟩
  intro m
  exact (beq_iff (isNaN_of_isFinite (hzero m).1) rfl).mpr (hzero m).2

theorem weights_of_compareMoments (hpos : 0 < value w.sum) {raw estimated : Moments Float}
    {c : Comparison Float} (h : compareMoments raw estimated w.toList = .ok c) :
    c.components.map (·.weight) = w.scaled := by
  obtain ⟨v, hv, _, hcomponents, _⟩ := compareMoments_eq_ok_iff.mp h
  cases hv
  rw [hcomponents, ← appliedWeights_eq_scaled husable hpos]
  exact PerMoment.eq_of_get fun m => by simp [errorComponents, ErrorComponent.of]

theorem weights_of_evaluate (hpos : 0 < value w.sum) {e : Evaluator Float} {g : Registry Float}
    {xs : List Float} {h : Histogram Float} {r : Request Float} {v : Verdict Float}
    (hr : r.weights = some w.toList) (hv : e.evaluate g xs h r = .ok v) :
    v.weights = w.scaled := by
  obtain ⟨p, _, hv⟩ := exists_of_bind_eq_ok hv
  obtain ⟨c, hc, hv⟩ := exists_of_bind_eq_ok hv
  have hc := eq_ok_of_mapError_eq_ok hc
  unfold Evaluator.weightsFor at hc
  rw [hr] at hc
  cases hv
  exact weights_of_compareMoments husable hpos hc

end Outcomes

/-- Normalization succeeds for weights that are not all zero, and a comparison applies the same
scaled weights. They sum to one exactly if the sum of the given weights is finite, and else they are
all zero and refused. From the document of a vector comes what its components are read as, if that is
accepted. If finite doubles come back, so does a vector that was accepted or read from a document, and
one that was refused is refused again. -/
theorem normalize_sumsToOne_or_vanishes [NumberReader] {w : Weights Float}
    (hw : ∀ m, (w.get m).isFinite = true ∧ 0.0 ≤ w.get m)
    (hsome : ∃ m, (w.get m == 0.0) = false) :
    (∃ n, w.normalize = .ok n ∧ (ofList w.toList >>= normalize) = .ok n
      ∧ (∀ raw estimated, ∃ c, compareMoments raw estimated w.toList = .ok c
        ∧ c.components.map (·.weight) = n)
      ∧ (∀ (e : Evaluator Float) g xs h r v, r.weights = some w.toList →
        e.evaluate g xs h r = .ok v → v.weights = n)
      ∧ (w.sum.isFinite = true → n.SumsToOne) ∧ (w.sum.isFinite = false → n.Vanishes))
    ∧ (∀ v u : Weights Float, form.parse (form.print v) = .ok u
      ↔ (∀ m, ReadsAs (v.get m) (u.get m)) ∧ u.check = .ok u)
    ∧ (ReadsBack →
      (∀ v : Weights Float, (v.check = .ok v ∨ ∃ s, form.parse s = .ok v) →
        form.parse (form.print v) = .ok v)
      ∧ ∀ (v : Weights Float) reason, (∀ m, (v.get m).isFinite = true) → v.check = .error reason →
        form.parse (form.print v) = .error (.shape (.rejected reason.sentence))) := by
  have husable (m : Moment) : isUsable (w.get m) = true :=
    isUsable_iff.mpr ⟨(hw m).1, (le_iff rfl (isNaN_of_isFinite (hw m).1)).mp (hw m).2⟩
  have hpos := sum_pos husable hsome
  have hnormalize := normalize_eq_scaled husable hpos
  refine ⟨⟨w.scaled, hnormalize, hnormalize, ?_, ?_, sumsToOne_scaled husable hpos, ?_⟩,
    fun v u => parse_print_iff, ?_⟩
  · intro raw estimated
    obtain ⟨c, hc⟩ := compareMoments_eq_ok raw estimated (show ofList w.toList = .ok w from rfl)
      (checkComponents_eq_ok_iff.mpr husable)
    exact ⟨c, hc, weights_of_compareMoments husable hpos hc⟩
  · intro e g xs h r v hr hv
    exact weights_of_evaluate husable hpos hr hv
  · intro hsum
    exact vanishes_scaled husable (by simp [hsum])
  · intro _
    refine ⟨?_, fun v reason => parse_print_of_check_error⟩
    rintro v (hcheck | ⟨s, hparse⟩)
    · exact parse_print_of_check hcheck
    · exact parse_print_of_check (check_of_parse hparse)

/-- The smallest weights, which have no digits to spare. -/
def smallest : Weights Float := ⟨5e-324, 0.0, 1e-323, 5e-324⟩

theorem smallest_sumsToOne : ∃ n, smallest.normalize = .ok n ∧ n.SumsToOne
    ∧ form.parse (form.print n) = .ok n := by
  obtain ⟨⟨n, hn, -, -, -, hsum, -⟩, -, hback⟩ := normalize_sumsToOne_or_vanishes (w := smallest)
    (Moment.forall_iff.mpr (by decide +kernel)) ⟨.mean, by decide +kernel⟩
  have hone : n.SumsToOne := hsum (by decide +kernel)
  exact ⟨n, hn, hone, (hback inferInstance).1 n (.inl hone.check)⟩

/-- A reader that rounds the digits and then their quotient by a power of ten. -/
@[reducible] def twiceRounded : NumberReader where
  read? literal :=
    let p := Numeral.parts literal
    let digits := Float.ofNat p.significand
    let x := match p.exponent with
      | .ofNat k => digits * Float.ofNat (10 ^ k)
      | .negSucc k => digits / Float.ofNat (10 ^ (k + 1))
    if x.isFinite then some (if p.negative then -x else x) else none

/-- Weights that sum to one with next to nothing to spare. -/
def brim : Weights Float :=
  ⟨0.06568665482463448, 0.0010234008462659816, 0.10473662528133199, 0.8285533200477675⟩

/-- The third of these weights is read as its upper neighbour. -/
def misread : Weights Float := { brim with skewness := 0.104736625281332 }

/-- Weights may be accepted and then refused in their own document, by a reader that does not keep
every double. -/
theorem brim_refused_twiceRounded : brim.check = .ok brim
    ∧ ∀ u, (@form twiceRounded).parse ((@form twiceRounded).print brim) ≠ .ok u := by
  have hreads : ∀ m, (Decimal.document? (brim.get m)).bind (twiceRounded.read? ·.toList)
      = some (misread.get m) := Moment.forall_iff.mpr (by decide +kernel)
  have hrefused : misread.check.toBool = false := by decide +kernel
  have hcheck := check_eq (v := brim) (Moment.forall_iff.mpr (by decide +kernel))
  refine ⟨hcheck.trans (if_neg (by decide +kernel)), ?_⟩
  intro u hu
  obtain ⟨hparts, haccepted⟩ := (@parse_print_iff twiceRounded brim u).mp hu
  obtain rfl : u = misread := by
    refine PerMoment.eq_of_get fun m => Option.some.inj ?_
    rw [← hreads m]
    exact (Option.bind_eq_some_iff.mpr (hparts m)).symm
  rw [haccepted] at hrefused
  cases hrefused

/-- Weights whose sum is beyond the largest number. -/
def largest : Weights Float := .all 1e308

theorem largest_vanishes : (∀ m, (largest.get m).isFinite = true ∧ 0.0 ≤ largest.get m)
    ∧ (∃ m, (largest.get m == 0.0) = false)
    ∧ ∃ n, largest.normalize = .ok n ∧ n.Vanishes ∧ n.check ≠ .ok n := by
  have hlargest : ∀ m, (largest.get m).isFinite = true ∧ 0.0 ≤ largest.get m :=
    Moment.forall_iff.mpr (by decide +kernel)
  have hsome : ∃ m, (largest.get m == 0.0) = false := ⟨.mean, by decide +kernel⟩
  have husable : ∀ m, isUsable (largest.get m) = true := Moment.forall_iff.mpr (by decide +kernel)
  have hvanishes := vanishes_scaled husable (by decide +kernel)
  refine ⟨hlargest, hsome, largest.scaled, normalize_eq_scaled husable (sum_pos husable hsome),
    hvanishes, ?_⟩
  rw [hvanishes.check]
  simp

end Weights

end BinGrade
