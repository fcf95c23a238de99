import BinGrade.Proofs.Binary64.Overflow
import BinGrade.Proofs.Histogram.Conservation

/-!
# Bins of equal width

The edges of bins of equal width are computed from the range of a sample. They are finite, and make a
histogram, exactly if the range is finite: an infinite width is no number of times away from the first
edge, so already that one is lost.
-/

namespace BinGrade.Binning

open Binary64

open Scalar (Ordered)

/-! ### Edges that rise -/

theorem isChain_go {α : Type} (same : α → α → Bool) (kept : α) (ys : List α) :
    (kept :: dropSame.go same kept ys).IsChain fun a b => same b a = false := by
  induction ys generalizing kept with
  | nil => simp [dropSame.go]
  | cons y ys ih =>
    cases h : same y kept with
    | true => simpa [dropSame.go, h] using ih kept
    | false => simpa [dropSame.go, h] using ih y

theorem mem_of_mem_go {α : Type} {same : α → α → Bool} {kept z : α} {ys : List α}
    (h : z ∈ dropSame.go same kept ys) : z ∈ ys := by
  induction ys generalizing kept with
  | nil => cases h
  | cons y ys ih =>
    unfold dropSame.go at h
    split at h
    · exact List.mem_cons_of_mem y (ih h)
    · rcases List.mem_cons.mp h with rfl | h
      · exact List.mem_cons_self
      · exact List.mem_cons_of_mem y (ih h)

variable {xs sorted ys : List Float} {first last edge : Float} {bins : Nat}

theorem ofEdges_sweep_eq_ok {k : Float} {inner : List Float}
    (h : Histogram.checkEdges (edge :: (inner ++ [k])) = .ok ()) :
    ∃ h, Histogram.ofEdges (edge :: (inner ++ [k])) (sweep inner sorted 0) = .ok h := by
  unfold Histogram.ofEdges
  rw [h]
  have hlength : (edge :: (inner ++ [k])).length = (sweep inner sorted 0).length + 1 := by
    simp [length_sweep]
  simp only [bind, Except.bind, hlength, ne_eq, not_true_eq_false, if_false]
  exact ⟨_, rfl⟩

theorem finish_eq_ok (hfinite : ∀ e ∈ edge :: (ys ++ [last]), e.isFinite = true)
    (hspread : ¬last ≤ edge) : ∃ h, finish (edge :: (ys ++ [last])) sorted = .ok h := by
  set same : Float → Float → Bool := fun a b => a ≤ b with hsame
  obtain ⟨k, hk, hdropped⟩ := exists_last_go same edge ys last
  unfold finish
  rw [← hsame, dropSame]
  cases hgo : dropSame.go same edge (ys ++ [last]) with
  | nil =>
    -- the last edge is above the first one, so it cannot be dropped for it
    rw [hgo] at hk
    cases hk
    rcases hdropped with rfl | hle
    · have hnumber := isNaN_of_isFinite (hfinite edge List.mem_cons_self)
      exact absurd (Ordered.le_refl hnumber) hspread
    · exact absurd (of_decide_eq_true hle) hspread
  | cons y rest =>
    obtain ⟨inner, hinner⟩ : ∃ inner, y :: rest = inner ++ [k] := by
      rw [hgo, List.getLast?_cons_cons] at hk
      exact List.getLast?_eq_some_iff.mp hk
    rw [hinner] at hgo ⊢
    have hkept : Sample.allFinite (edge :: (inner ++ [k])) = true := by
      refine List.all_eq_true.mpr ?_
      intro e he
      rcases List.mem_cons.mp he with rfl | he
      · exact hfinite e List.mem_cons_self
      · exact hfinite e (List.mem_cons_of_mem edge (mem_of_mem_go (hgo ▸ he)))
    have hchain : (edge :: (inner ++ [k])).IsChain fun a b => ¬b ≤ a := by
      have h := isChain_go same edge (ys ++ [last])
      rw [hgo] at h
      exact h.imp fun a b hab => of_decide_eq_false hab
    have hcheck : Histogram.checkEdges (edge :: (inner ++ [k])) = .ok () :=
      Histogram.checkEdges_eq_ok_iff.mpr
        ⟨by simp, hkept, (Histogram.isChain_iff_pairwise_lt hkept).mp hchain⟩
    rw [if_neg (by simp), List.tail_cons, List.dropLast_concat]
    exact ofEdges_sweep_eq_ok hcheck

theorem finish_eq_error (hedge : edge.isNaN = true) (hys : ys ≠ []) :
    finish (edge :: ys) sorted = .error (.invalidInput .edgesNotFinite) := by
  obtain ⟨y, ys, rfl⟩ := List.exists_cons_of_ne_nil hys
  have hkept : decide (y ≤ edge) = false := by
    refine decide_eq_false fun hle => ?_
    rw [(isNaN_of_le hle).2] at hedge
    cases hedge
  have hinfinite : Scalar.isFinite edge = false := by
    refine Bool.eq_false_iff.mpr fun h => ?_
    rw [isNaN_of_isFinite h] at hedge
    cases hedge
  simp [finish, dropSame, dropSame.go, hkept, Histogram.ofEdges, Histogram.checkEdges,
    Sample.allFinite, hinfinite, bind, Except.bind]

/-! ### Edges within the range -/

/-- There are fewer steps than bins, so rounding cannot bring an edge beyond the last one by more than
what gets lost below the smallest normal numbers. -/
theorem edge_le {f l range width x b i u t : ℚ} (hu : 0 ≤ u) (ht : 0 ≤ t) (hu1 : u ≤ 1)
    (hsmall : 4 * u * b ≤ 1) (hrange0 : 0 ≤ range) (hwidth0 : 0 ≤ width) (hi0 : 0 ≤ i)
    (hi : i ≤ b - 1) (hspread : 0 ≤ l - f) (hrange : range ≤ (l - f) + (l - f) * u + t)
    (hwidth : width ≤ range / b + range / b * u + t)
    (hx : x ≤ i * width + i * width * u + t) : f + x ≤ l + 4 * (b + 1) * t := by
  have hb : 0 < b := by linarith
  obtain ⟨s, hs⟩ : ∃ s, s = range / b := ⟨_, rfl⟩
  have hs0 : 0 ≤ s := hs ▸ div_nonneg hrange0 hb.le
  have hbs : range = b * s := by
    rw [hs, mul_div_cancel₀ _ hb.ne']
  rw [← hs] at hwidth
  have hsteps : i * width ≤ (b - 1) * (s + s * u + t) :=
    mul_le_mul hi hwidth hwidth0 (by linarith)
  have hstepsu : i * width * u ≤ (b - 1) * (s + s * u + t) * u :=
    mul_le_mul_of_nonneg_right hsteps hu
  have hbelow : b * s - b * s * u ≤ (l - f) + t := by
    have hscaled := mul_le_mul_of_nonneg_right (hbs ▸ hrange) (sub_nonneg.mpr hu1)
    have hsquare : 0 ≤ (l - f) * (u * u) := mul_nonneg hspread (mul_nonneg hu hu)
    have hlost : 0 ≤ t * u := mul_nonneg ht hu
    linarith
  -- what a step gains by rounding is less than the step that the last edge is ahead
  have hgain : s * (4 * u * b) ≤ s := by
    have := mul_le_mul_of_nonneg_left hsmall hs0
    linarith
  have husq : s * b * (u * u) ≤ s * b * u :=
    mul_le_mul_of_nonneg_left (mul_le_of_le_one_right hu hu1) (mul_nonneg hs0 hb.le)
  have htu : (b - 1) * t * u ≤ (b - 1) * t :=
    mul_le_of_le_one_right (mul_nonneg (by linarith) ht) hu1
  have hsu : 0 ≤ s * u := mul_nonneg hs0 hu
  have hsuu : 0 ≤ s * (u * u) := mul_nonneg hs0 (mul_nonneg hu hu)
  have hbt : 0 ≤ b * t := mul_nonneg hb.le ht
  linarith

theorem steps_le {range width b i u t : ℚ} (hu : 0 ≤ u) (ht : 0 ≤ t) (hsmall : 4 * u * b ≤ 1)
    (hrange0 : 0 ≤ range) (hwidth0 : 0 ≤ width) (hi0 : 0 ≤ i) (hi : i ≤ b - 1)
    (hwidth : width ≤ range / b + range / b * u + t) : i * width ≤ range + b * t := by
  have hb : 0 < b := by linarith
  have hs0 : 0 ≤ range / b := div_nonneg hrange0 hb.le
  have hsteps : i * width ≤ (b - 1) * (range / b + range / b * u + t) :=
    mul_le_mul hi hwidth hwidth0 (by linarith)
  have hbs : b * (range / b) = range := mul_div_cancel₀ _ hb.ne'
  have hgain : range / b * (4 * u * b) ≤ range / b := mul_le_of_le_one_right hs0 hsmall
  have hsu : 0 ≤ range / b * u := mul_nonneg hs0 hu
  have hbsu : b * (range / b * u) = range / b * (u * b) := by ring
  have hnonneg : 0 ≤ range / b * (u * b) := mul_nonneg hs0 (mul_nonneg hu hb.le)
  linarith

theorem roundoff_mul_bins {bins : Nat} (hmany : bins ≤ 2 ^ 50) :
    4 * unitRoundoff * bins ≤ 1 ∧ 4 * ((bins : ℚ) + 1) * leastRoundoff ≤ 1 := by
  have hcount : (bins : ℚ) ≤ 2 ^ 50 := by exact_mod_cast hmany
  have hunit : unitRoundoff = 1 / 2 ^ 53 := by
    rw [unitRoundoff, zpow_neg]
    norm_num
  have hleast : leastRoundoff ≤ 1 / 2 ^ 53 := by
    rw [← hunit]
    exact two_zpow_le (by norm_num)
  have hpos := leastRoundoff_pos
  constructor
  · rw [hunit]
    linarith
  · have hsum : (bins : ℚ) + 1 ≤ 2 ^ 50 + 1 := by linarith
    have := mul_le_mul hsum hleast hpos.le (by norm_num)
    linarith

section Range

variable (hfirst : first.isFinite = true) (hlast : last.isFinite = true) (hle : first ≤ last)
  (hrange : (last - first).isFinite = true) (hbins : 1 ≤ bins) (hmany : bins ≤ 2 ^ 50)

include hfirst hlast hle hrange hbins hmany

theorem value_width : ((last - first) / Float.ofNat bins).isFinite = true
    ∧ 0 ≤ value (last - first)
    ∧ value ((last - first) / Float.ofNat bins) = nearest (value (last - first) / bins) := by
  obtain ⟨hcount, hvalue⟩ := value_ofNat (n := bins) (hmany.trans (by norm_num))
  have hone : (1 : ℚ) ≤ bins := by exact_mod_cast hbins
  have hne : value (Float.ofNat bins) ≠ 0 := by
    rw [hvalue]
    linarith
  have hquotient := value_div hrange hcount hne
  have hnonneg : 0 ≤ value (last - first) := by
    rw [(value_sub hlast hfirst).2]
    have := (le_iff (isNaN_of_isFinite hfirst) (isNaN_of_isFinite hlast)).mp hle
    exact nearest_nonneg (by linarith)
  rw [hvalue] at hquotient
  refine ⟨?_, hnonneg, hquotient⟩
  have hnumber := isNaN_div_right (isNaN_of_isFinite hrange) hcount hne
  have hsmaller : value ((last - first) / Float.ofNat bins) ≤ value (last - first) := by
    rw [hquotient]
    exact nearest_le_value (div_le_self hnonneg hone)
  have hquotient0 : 0 ≤ value ((last - first) / Float.ofNat bins) := by
    rw [hquotient]
    exact nearest_nonneg (div_nonneg hnonneg (by linarith))
  rw [isFinite_iff (isNaN_of_isFinite hrange), abs_of_nonneg hnonneg] at hrange
  rw [isFinite_iff hnumber, abs_of_nonneg hquotient0]
  exact hsmaller.trans_lt hrange

theorem isFinite_edge {i : Nat} (hi : i < bins) :
    (first + Float.ofNat i * ((last - first) / Float.ofNat bins)).isFinite = true := by
  obtain ⟨hwidth, hrange0, hquotient⟩ := value_width hfirst hlast hle hrange hbins hmany
  obtain ⟨hcount, hvalue⟩ := value_ofNat (n := i) (hi.le.trans (hmany.trans (by norm_num)))
  obtain ⟨hproduct, hsteps⟩ := value_mul hcount hwidth
  have hspread : 0 ≤ value last - value first :=
    sub_nonneg.mpr ((le_iff (isNaN_of_isFinite hfirst) (isNaN_of_isFinite hlast)).mp hle)
  have hwidth0 : 0 ≤ value ((last - first) / Float.ofNat bins) := by
    rw [hquotient]
    exact nearest_nonneg (div_nonneg hrange0 (Nat.cast_nonneg _))
  have hi0 : (0 : ℚ) ≤ i := Nat.cast_nonneg i
  have hi1 : (i : ℚ) ≤ bins - 1 := by
    rw [le_sub_iff_add_le]
    exact_mod_cast hi
  obtain ⟨hunit, hleast⟩ := roundoff_mul_bins hmany
  have hu := unitRoundoff_pos.le
  have ht := leastRoundoff_pos.le
  have hbound : value ((last - first) / Float.ofNat bins)
      ≤ value (last - first) / bins + value (last - first) / bins * unitRoundoff + leastRoundoff := by
    rw [hquotient]
    exact nearest_le_add (div_nonneg hrange0 (Nat.cast_nonneg _))
  have hsteps0 : 0 ≤ (i : ℚ) * value ((last - first) / Float.ofNat bins) := mul_nonneg hi0 hwidth0
  rw [hvalue] at hsteps
  -- the steps do not overflow, and neither does the edge that they lead to
  have hfinite : (Float.ofNat i * ((last - first) / Float.ofNat bins)).isFinite = true := by
    have hle := steps_le hu ht hunit hrange0 hwidth0 hi0 hi1 hbound
    have hmax := value_le_of_isFinite hrange
    have hlost : 0 ≤ (bins : ℚ) * leastRoundoff := mul_nonneg (Nat.cast_nonneg _) ht
    rw [isFinite_iff hproduct, hsteps, abs_of_nonneg (nearest_nonneg hsteps0)]
    exact nearest_lt_limit (by linarith)
  obtain ⟨hsum, hedge⟩ := value_add hfirst hfinite
  have hhigh : value first + value (Float.ofNat i * ((last - first) / Float.ofNat bins))
      ≤ value last + 4 * (bins + 1) * leastRoundoff := by
    refine edge_le hu ht unitRoundoff_le_one hunit hrange0 hwidth0 hi0 hi1 hspread ?_ hbound ?_
    · rw [(value_sub hlast hfirst).2]
      exact nearest_le_add hspread
    · rw [hsteps]
      exact nearest_le_add hsteps0
  have hlow : value first ≤ value (first + Float.ofNat i * ((last - first) / Float.ofNat bins)) := by
    rw [hedge, hsteps]
    exact value_le_nearest (by linarith [nearest_nonneg hsteps0])
  rw [isFinite_iff hsum, abs_lt]
  constructor
  · rw [isFinite_iff (isNaN_of_isFinite hfirst), abs_lt] at hfirst
    exact hfirst.1.trans_le hlow
  · rw [hedge]
    have hmax := value_le_of_isFinite hlast
    exact nearest_lt_limit (by linarith)

end Range

/-! ### Histograms -/

theorem uniform_eq_finish (hs : Ascends xs sorted first last) (hspread : ¬last ≤ first)
    (bins : Nat) : uniform (bins + 1) sorted
      = finish ((first + Float.ofNat 0 * ((last - first) / Float.ofNat (bins + 1)))
        :: ((List.range bins).map (fun i =>
            first + Float.ofNat (i + 1) * ((last - first) / Float.ofNat (bins + 1))) ++ [last]))
        sorted := by
  unfold uniform ends
  simp only [hs.head, hs.last, bind, Except.bind, hspread, if_false]
  unfold uniformEdges
  dsimp only
  rw [List.range_succ_eq_map, List.map_cons, List.map_map, List.cons_append]
  rfl

theorem uniform_eq_ok (hs : Ascends xs sorted first last) (hspread : ¬last ≤ first)
    (hrange : (last - first).isFinite = true) (hbins : 1 ≤ bins) (hmany : bins ≤ 2 ^ 50) :
    ∃ h, uniform bins sorted = .ok h := by
  obtain ⟨n, rfl⟩ := Nat.exists_eq_add_of_le' hbins
  have hnumber := isNaN_of_isFinite hs.finite_first
  have hle : first ≤ last := Scalar.le_of_not_le hnumber (isNaN_of_isFinite hs.finite_last) hspread
  have hedges {i : Nat} (hi : i < n + 1) :=
    isFinite_edge hs.finite_first hs.finite_last hle hrange hbins hmany hi
  rw [uniform_eq_finish hs hspread]
  refine finish_eq_ok ?_ ?_
  · intro e he
    simp only [List.mem_cons, List.mem_append, List.mem_map, List.mem_range, List.not_mem_nil,
      or_false] at he
    rcases he with rfl | ⟨i, hi, rfl⟩ | rfl
    · exact hedges (Nat.succ_pos n)
    · exact hedges (Nat.succ_lt_succ hi)
    · exact hs.finite_last
  · intro hflat
    have hfirst := add_zero_mul_le hs.finite_first (isNaN_of_isFinite (hedges (Nat.succ_pos n)))
    exact hspread (Ordered.le_trans hflat hfirst)

/-- Zero times an infinite width is no number, and the first edge begins with it. -/
theorem uniform_eq_error (hs : Ascends xs sorted first last) (hspread : ¬last ≤ first)
    (hrange : (last - first).isFinite = false) (hbins : 1 ≤ bins) :
    uniform bins sorted = .error (.invalidInput .edgesNotFinite) := by
  obtain ⟨n, rfl⟩ := Nat.exists_eq_add_of_le' hbins
  rw [uniform_eq_finish hs hspread]
  refine finish_eq_error ?_ (by simp)
  have hzero : (Float.ofNat 0 * ((last - first) / Float.ofNat (n + 1))).isNaN = true :=
    isNaN_zero_mul_of_not_isFinite rfl rfl (not_isFinite_div hrange)
  exact isNaN_pack (isNaN_add_of_right hzero)

end BinGrade.Binning
