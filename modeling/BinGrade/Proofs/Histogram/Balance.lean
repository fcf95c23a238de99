import Mathlib.Algebra.Order.Floor.Div
import BinGrade.Proofs.Histogram.Lookup
import BinGrade.Proofs.Histogram.Validity
import BinGrade.Proofs.Scalar.Field

/-!
# Bins of equal frequency

A quantile stands between two values of a sorted sample as its rank stands between their places, so
it is at most a value exactly if its rank is at most the place of that value. Without rounding, a
bin between two quantiles thus holds the whole numbers from one rank to the next, and all bins hold
as many values as their ranks are apart, rounded down or up. The last bin also has the largest value.
-/

namespace BinGrade

/-! ### Places between ranks -/

theorem countP_range_between (low high n : ℕ) :
    (List.range n).countP (fun j => low ≤ j && j < high) = min high n - low := by
  induction n with
  | zero => simp
  | succ n ih =>
    rw [List.range_succ, List.countP_append, ih, List.countP_singleton]
    simp only [Bool.and_eq_true, decide_eq_true_eq]
    split <;> omega

/-- Two places that are a given distance apart are, after division, apart by that distance divided
and rounded down or up. -/
theorem add_div_sub_div (a m : ℕ) {k : ℕ} (hk : 0 < k) :
    (a + m) / k - a / k = m / k ∨ (a + m) / k - a / k = m ⌈/⌉ k := by
  have hsum := Nat.add_div (b := m) (a := a) hk
  have hdistance := Nat.add_div (b := k - 1) (a := m) hk
  have hceil : m ⌈/⌉ k = (m + (k - 1)) / k := by
    rw [Nat.ceilDiv_eq_add_pred_div]
    congr 1
    omega
  have hless : (k - 1) / k = 0 := Nat.div_eq_of_lt (by omega)
  have hrest : (k - 1) % k = k - 1 := Nat.mod_eq_of_lt (by omega)
  have ha := Nat.mod_lt a hk
  rw [hless, hrest] at hdistance
  by_cases hcarry : k ≤ a % k + m % k
  · -- what is carried leaves a remainder of the distance
    rw [if_pos (by omega)] at hdistance
    rw [if_pos hcarry] at hsum
    right
    rw [hceil, hdistance, hsum]
    omega
  · rw [if_neg hcarry] at hsum
    left
    rw [hsum, Nat.add_zero, Nat.add_sub_cancel_left]

theorem ceilDiv_step (a m : ℕ) {k : ℕ} (hk : 0 < k) :
    (a + m) ⌈/⌉ k - a ⌈/⌉ k = m / k ∨ (a + m) ⌈/⌉ k - a ⌈/⌉ k = m ⌈/⌉ k := by
  have hshift : a + m + k - 1 = a + k - 1 + m := by omega
  rw [Nat.ceilDiv_eq_add_pred_div (a + m), Nat.ceilDiv_eq_add_pred_div a, hshift]
  exact add_div_sub_div (a + k - 1) m hk

theorem mul_ceilDiv_le (m : ℕ) {k i : ℕ} (hk : 0 < k) (hi : i ≤ k) : (m * i) ⌈/⌉ k ≤ m := by
  rw [ceilDiv_le_iff_le_mul hk, Nat.mul_comm]
  exact Nat.mul_le_mul_right m hi

namespace Binning

variable {K : Type} [Field K] [LinearOrder K] [IsStrictOrderedRing K] [FloorSemiring K]

/-! ### Interpolation -/

section Interpolation

/-- The value at a rank between the values at places. -/
def interpolate (v : ℕ → K) (last : ℕ) (rank : K) : K :=
  v ⌊rank⌋₊ + (rank - ⌊rank⌋₊) * (v (min (⌊rank⌋₊ + 1) last) - v ⌊rank⌋₊)

variable {v : ℕ → K} {last j : ℕ} {rank rank' : K}

theorem interpolate_place (v : ℕ → K) (last j : ℕ) : interpolate v last j = v j := by
  unfold interpolate
  rw [Nat.floor_natCast, sub_self, zero_mul, add_zero]

section Monotone

variable (hv : MonotoneOn v (Set.Iic last))

include hv

theorem step_nonneg (hhigh : rank ≤ last) : 0 ≤ v (min (⌊rank⌋₊ + 1) last) - v ⌊rank⌋₊ := by
  have hfloor : ⌊rank⌋₊ ≤ last := Nat.floor_le_of_le hhigh
  have hstep : ⌊rank⌋₊ ≤ min (⌊rank⌋₊ + 1) last := by omega
  exact sub_nonneg.mpr (hv hfloor (min_le_right _ last) hstep)

theorem le_interpolate (hlow : 0 ≤ rank) (hhigh : rank ≤ last) :
    v ⌊rank⌋₊ ≤ interpolate v last rank := by
  have hpart : 0 ≤ rank - ⌊rank⌋₊ := sub_nonneg.mpr (Nat.floor_le hlow)
  exact le_add_of_nonneg_right (mul_nonneg hpart (step_nonneg hv hhigh))

theorem interpolate_le (hhigh : rank ≤ last) :
    interpolate v last rank ≤ v (min (⌊rank⌋₊ + 1) last) := by
  have hpart : rank - ⌊rank⌋₊ ≤ 1 := by
    have := Nat.lt_floor_add_one rank
    linarith
  have hmul := mul_le_of_le_one_left (step_nonneg hv hhigh) hpart
  unfold interpolate
  linarith

theorem interpolate_mono (hlow : 0 ≤ rank') (hle : rank' ≤ rank) (hhigh : rank ≤ last) :
    interpolate v last rank' ≤ interpolate v last rank := by
  have hfloor : ⌊rank'⌋₊ ≤ ⌊rank⌋₊ := Nat.floor_le_floor hle
  rcases hfloor.eq_or_lt with heq | hlt
  · have hmul := mul_le_mul_of_nonneg_right hle (step_nonneg hv hhigh)
    unfold interpolate
    rw [heq]
    linarith
  · have hplace : ⌊rank⌋₊ ≤ last := Nat.floor_le_of_le hhigh
    calc interpolate v last rank' ≤ v (min (⌊rank'⌋₊ + 1) last) :=
          interpolate_le hv (hle.trans hhigh)
      _ ≤ v ⌊rank⌋₊ := hv (min_le_right _ last) hplace (by omega)
      _ ≤ interpolate v last rank := le_interpolate hv (hlow.trans hle) hhigh

end Monotone

/-- An interpolated value is at most the one at a place exactly if its rank is at most the place. -/
theorem interpolate_le_iff (hv : StrictMonoOn v (Set.Iic last)) (hlow : 0 ≤ rank)
    (hhigh : rank ≤ last) (hj : j ≤ last) : interpolate v last rank ≤ v j ↔ rank ≤ j := by
  constructor
  · contrapose!
    intro hlt
    have hplace : j ≤ ⌊rank⌋₊ := Nat.le_floor hlt.le
    have hfloor : ⌊rank⌋₊ ≤ last := Nat.floor_le_of_le hhigh
    rcases hplace.eq_or_lt with heq | hbelow
    · -- the rank lies strictly between this place and the next one
      have hnext : j < last := by exact_mod_cast hlt.trans_le hhigh
      have hstep : v j < v (min (j + 1) last) := hv hj (min_le_right _ last) (by omega)
      have hpart : 0 < (rank - j) * (v (min (j + 1) last) - v j) :=
        mul_pos (sub_pos.mpr hlt) (sub_pos.mpr hstep)
      unfold interpolate
      rw [← heq]
      linarith
    · exact (hv hj hfloor hbelow).trans_le (le_interpolate hv.monotoneOn hlow hhigh)
  · intro hle
    rw [← interpolate_place v last j]
    exact interpolate_mono hv.monotoneOn hlow hle (by exact_mod_cast hj)

end Interpolation

/-! ### Quantiles -/

section Quantiles

variable {f : Transcendental K} {s : List (Unrounded f)} {k i j : ℕ}

/-- The quantile at a number of equal shares. -/
def edgeAt {α : Type} [Scalar α] (sorted : List α) (bins i : ℕ) : α :=
  quantile sorted (Scalar.ofCount i / Scalar.ofCount bins)

/-- The value at a place. -/
def place (s : List (Unrounded f)) (j : ℕ) : Unrounded f := s.getD j 0.0

omit [LinearOrder K] [IsStrictOrderedRing K] [FloorSemiring K] in
theorem place_eq_getElem (hj : j < s.length) : place s j = s[j] := by
  simp [place, hj]

omit [IsStrictOrderedRing K] [FloorSemiring K] in
theorem strictMonoOn_place (hs : s ≠ []) (hrising : s.Pairwise (· < ·)) :
    StrictMonoOn (place s) (Set.Iic (s.length - 1)) := by
  have hlength := List.length_pos_iff.mpr hs
  intro i hi j hj hlt
  rw [Set.mem_Iic] at hi hj
  rw [place_eq_getElem (by omega), place_eq_getElem (by omega)]
  exact List.pairwise_iff_getElem.mp hrising i j (by omega) (by omega) hlt

theorem rank_bounds (m : ℕ) (hk : 0 < k) (hi : i ≤ k) :
    0 ≤ ((m * i : ℕ) : Unrounded f) / k ∧ ((m * i : ℕ) : Unrounded f) / k ≤ m := by
  have hpos : (0 : Unrounded f) < k := Nat.cast_pos.mpr hk
  refine ⟨div_nonneg (Nat.cast_nonneg _) hpos.le, ?_⟩
  rw [div_le_iff₀ hpos]
  exact_mod_cast Nat.mul_le_mul_left m hi

theorem edgeAt_eq_interpolate (hs : s ≠ []) (hk : 0 < k) (hi : i ≤ k) :
    edgeAt s k i = interpolate (place s) (s.length - 1) (((s.length - 1) * i : ℕ) / k) := by
  have hpos : (0 : Unrounded f) < k := Nat.cast_pos.mpr hk
  have hshare : (i : Unrounded f) / k ≤ 1 := by
    rw [div_le_one hpos]
    exact_mod_cast hi
  have hshare0 : 0 ≤ (i : Unrounded f) / k := div_nonneg (Nat.cast_nonneg i) hpos.le
  have hclamp : Scalar.clamp 0.0 1.0 ((i : Unrounded f) / k) = (i : Unrounded f) / k := by
    unfold Scalar.clamp
    rw [if_neg (by norm_num; exact hshare0), if_neg (by norm_num; exact hshare)]
  have hrank : (((s.length - 1) * i : ℕ) : Unrounded f) / k
      = ((s.length - 1 : ℕ) : Unrounded f) * Scalar.clamp 0.0 1.0 ((i : Unrounded f) / k) := by
    rw [hclamp, Nat.cast_mul, mul_div_assoc]
  have hempty : ¬s.isEmpty = true := by simpa using hs
  rw [hrank]
  exact if_neg hempty

theorem edgeAt_mono (hs : s ≠ []) (hrising : s.Pairwise (· < ·)) (hk : 0 < k) {i' : ℕ}
    (hle : i' ≤ i) (hi : i ≤ k) : edgeAt s k i' ≤ edgeAt s k i := by
  have hpos : (0 : Unrounded f) < k := Nat.cast_pos.mpr hk
  have hrank : (((s.length - 1) * i' : ℕ) : Unrounded f) / k ≤ ((s.length - 1) * i : ℕ) / k := by
    rw [div_le_div_iff_of_pos_right hpos]
    exact_mod_cast Nat.mul_le_mul_left _ hle
  rw [edgeAt_eq_interpolate hs hk hi, edgeAt_eq_interpolate hs hk (hle.trans hi)]
  exact interpolate_mono (strictMonoOn_place hs hrising).monotoneOn
    (rank_bounds _ hk (hle.trans hi)).1 hrank (rank_bounds _ hk hi).2

theorem edgeAt_zero (hs : s ≠ []) (hk : 0 < k) : edgeAt s k 0 = place s 0 := by
  have hrank : (((s.length - 1) * 0 : ℕ) : Unrounded f) / k = (0 : ℕ) := by simp
  rw [edgeAt_eq_interpolate hs hk (Nat.zero_le k), hrank, interpolate_place]

theorem edgeAt_self (hs : s ≠ []) (hk : 0 < k) : edgeAt s k k = place s (s.length - 1) := by
  have hpos : (k : Unrounded f) ≠ 0 := Nat.cast_ne_zero.mpr hk.ne'
  have hrank : (((s.length - 1) * k : ℕ) : Unrounded f) / k = (s.length - 1 : ℕ) := by
    rw [Nat.cast_mul, mul_div_cancel_right₀ _ hpos]
  rw [edgeAt_eq_interpolate hs hk le_rfl, hrank, interpolate_place]

/-- A quantile is at most a value from the place on that its rank, rounded up, comes to. -/
theorem edgeAt_le_iff (hrising : s.Pairwise (· < ·)) (hk : 0 < k) (hi : i ≤ k) (hj : j < s.length) :
    edgeAt s k i ≤ place s j ↔ ((s.length - 1) * i) ⌈/⌉ k ≤ j := by
  have hs : s ≠ [] := List.ne_nil_of_length_pos (by omega)
  have hpos : (0 : Unrounded f) < k := Nat.cast_pos.mpr hk
  obtain ⟨hlow, hhigh⟩ := rank_bounds (f := f) (s.length - 1) hk hi
  rw [edgeAt_eq_interpolate hs hk hi,
    interpolate_le_iff (strictMonoOn_place hs hrising) hlow hhigh (by omega), div_le_iff₀ hpos,
    ceilDiv_le_iff_le_mul hk, mul_comm k j]
  exact_mod_cast Iff.rfl

end Quantiles

/-! ### Counts between quantiles -/

section Counts

variable {f : Transcendental K} {s : List (Unrounded f)} {k b j : ℕ}

/-- The edges between the first and the last one. -/
def innerEdges (s : List (Unrounded f)) (k : ℕ) : List (Unrounded f) :=
  (List.range' 1 (k - 1)).map (edgeAt s k)

omit [IsStrictOrderedRing K] in
theorem length_innerEdges : (innerEdges s k).length = k - 1 := by
  simp [innerEdges]

/-- A value has reached as many inner edges as have ranks up to its place. -/
theorem le_reached_iff (hrising : s.Pairwise (· < ·)) (hk : 0 < k) (hb : b < k)
    (hj : j < s.length) :
    b ≤ Histogram.reached (innerEdges s k) (place s j) ↔ ((s.length - 1) * b) ⌈/⌉ k ≤ j := by
  have hs : s ≠ [] := List.ne_nil_of_length_pos (by omega)
  cases b with
  | zero => simp
  | succ b =>
    have hlength : b < (innerEdges s k).length := by
      rw [length_innerEdges]
      omega
    have hedge : (innerEdges s k)[b] = edgeAt s k (b + 1) := by
      simp [innerEdges, Nat.add_comm]
    have hpartition : (innerEdges s k).Pairwise fun c d =>
        decide (d ≤ place s j) = true → decide (c ≤ place s j) = true := by
      rw [innerEdges, List.pairwise_map]
      refine (List.pairwise_lt_range' ..).imp_of_mem ?_
      intro c d hc hd hlt
      rw [List.mem_range'_1] at hc hd
      simp only [decide_eq_true_eq]
      exact (edgeAt_mono hs hrising hk hlt.le (by omega)).trans
    rw [Nat.succ_le_iff, Histogram.reached, lt_length_takeWhile_iff hpartition hlength, hedge,
      decide_eq_true_eq, edgeAt_le_iff hrising hk hb.le hj]

omit [IsStrictOrderedRing K] in
theorem reached_lt (hk : 0 < k) (x : Unrounded f) : Histogram.reached (innerEdges s k) x < k := by
  have hle : Histogram.reached (innerEdges s k) x ≤ (innerEdges s k).length :=
    (List.takeWhile_prefix _).length_le
  rw [length_innerEdges] at hle
  omega

theorem reached_eq_iff (hrising : s.Pairwise (· < ·)) (hk : 0 < k) (hb : b < k)
    (hj : j < s.length) :
    Histogram.reached (innerEdges s k) (place s j) = b
      ↔ ((s.length - 1) * b) ⌈/⌉ k ≤ j
        ∧ j < if b + 1 = k then s.length else ((s.length - 1) * (b + 1)) ⌈/⌉ k := by
  have hfrom := le_reached_iff hrising hk hb hj
  have hlt := reached_lt (s := s) hk (place s j)
  by_cases hlast : b + 1 = k
  · rw [if_pos hlast, ← hfrom]
    omega
  · have hto := le_reached_iff (b := b + 1) hrising hk (by omega) hj
    rw [if_neg hlast, ← hfrom, ← not_le, ← hto]
    omega

omit [LinearOrder K] [IsStrictOrderedRing K] [FloorSemiring K] in
theorem count_map_place (s : List (Unrounded f)) (g : Unrounded f → ℕ) (b : ℕ) :
    (s.map g).count b = (List.range s.length).countP fun j => g (place s j) == b := by
  conv_lhs => rw [← map_getD_range s 0.0, List.map_map, List.count_eq_countP, List.countP_map]
  rfl

/-- A bin holds the places from its own rank up to the next one. -/
theorem count_reached (hrising : s.Pairwise (· < ·)) (hk : 0 < k) (hb : b < k) :
    (s.map (Histogram.reached (innerEdges s k))).count b
      = (if b + 1 = k then s.length else ((s.length - 1) * (b + 1)) ⌈/⌉ k)
        - ((s.length - 1) * b) ⌈/⌉ k := by
  have hrank : ((s.length - 1) * (b + 1)) ⌈/⌉ k ≤ s.length - 1 := mul_ceilDiv_le _ hk hb
  have hplaces : (s.map (Histogram.reached (innerEdges s k))).count b
      = (List.range s.length).countP fun j => ((s.length - 1) * b) ⌈/⌉ k ≤ j
          && j < if b + 1 = k then s.length else ((s.length - 1) * (b + 1)) ⌈/⌉ k := by
    rw [count_map_place]
    apply List.countP_congr
    intro j hj
    rw [beq_iff_eq, Bool.and_eq_true, decide_eq_true_eq, decide_eq_true_eq]
    exact reached_eq_iff hrising hk hb (List.mem_range.mp hj)
  rw [hplaces, countP_range_between]
  congr 1
  split <;> omega

/-- Every bin holds as many values as its ranks are apart, rounded down or up, and the last bin one
more. -/
theorem count_reached_balanced (hs : s ≠ []) (hrising : s.Pairwise (· < ·)) (hk : 0 < k)
    (hb : b < k) :
    ∃ width, (width = (s.length - 1) / k ∨ width = (s.length - 1) ⌈/⌉ k)
      ∧ (s.map (Histogram.reached (innerEdges s k))).count b
        = if b + 1 = k then width + 1 else width := by
  have hlength := List.length_pos_iff.mpr hs
  have hstep := ceilDiv_step ((s.length - 1) * b) (s.length - 1) hk
  rw [← Nat.mul_succ] at hstep
  refine ⟨_, hstep, ?_⟩
  rw [count_reached hrising hk hb]
  split
  · next hlast =>
    -- the last rank is the last place, which the last bin has too
    have htop : ((s.length - 1) * (b + 1)) ⌈/⌉ k = s.length - 1 := by
      rw [hlast, Nat.mul_comm]
      exact smul_ceilDiv hk _
    have hrank := mul_ceilDiv_le (s.length - 1) hk hb.le
    rw [Nat.succ_eq_add_one, htop]
    omega
  · rfl

end Counts

/-! ### Edges that stay -/

section Edges

theorem go_eq_self {α : Type} {same : α → α → Bool} {kept : α} {ys : List α}
    (h : (kept :: ys).IsChain fun a b => same b a = false) : dropSame.go same kept ys = ys := by
  induction ys generalizing kept with
  | nil => rfl
  | cons y ys ih =>
    obtain ⟨hhead, htail⟩ := List.isChain_cons_cons.mp h
    unfold dropSame.go
    rw [hhead, if_neg Bool.false_ne_true, ih htail]

theorem dropSame_eq_self {α : Type} {same : α → α → Bool} {xs : List α}
    (h : xs.IsChain fun a b => same b a = false) : dropSame same xs = xs := by
  cases xs with
  | nil => rfl
  | cons x xs => exact congrArg (x :: ·) (go_eq_self h)

variable {f : Transcendental K} {s : List (Unrounded f)} {k i : ℕ}

omit [IsStrictOrderedRing K] in
theorem isChain_edgeAt {R : Unrounded f → Unrounded f → Prop} :
    ((List.range (k + 1)).map (edgeAt s k)).IsChain R
      ↔ ∀ i < k, R (edgeAt s k i) (edgeAt s k (i + 1)) := by
  rw [List.isChain_map, List.isChain_range_succ]

theorem map_edgeAt_eq (hs : s ≠ []) (hk : 0 < k) : (List.range (k + 1)).map (edgeAt s k)
    = place s 0 :: (innerEdges s k ++ [place s (s.length - 1)]) := by
  obtain ⟨k, rfl⟩ : ∃ n, k = n + 1 := ⟨k - 1, by omega⟩
  rw [← edgeAt_zero hs hk, ← edgeAt_self hs hk, innerEdges, List.range_eq_range',
    List.range'_succ, List.map_cons, List.range'_1_concat, List.map_append]
  rw [Nat.add_comm 1 k]
  rfl

omit [LinearOrder K] [IsStrictOrderedRing K] [FloorSemiring K] in
theorem ends_eq (hs : s ≠ []) : ends s = .ok (place s 0, place s (s.length - 1)) := by
  have hlength := List.length_pos_iff.mpr hs
  unfold ends
  rw [List.head?_eq_getElem?, List.getLast?_eq_getElem?, List.getElem?_eq_getElem hlength,
    List.getElem?_eq_getElem (by omega), place_eq_getElem hlength, place_eq_getElem (by omega)]

theorem tolerance_pos : (0 : Unrounded f) < edgeTolerance := by
  unfold edgeTolerance
  norm_num

/-- Neighbouring quantiles that are apart rise. -/
theorem edgeAt_lt (hs : s ≠ []) (hrising : s.Pairwise (· < ·)) (hk : 0 < k) (hi : i < k)
    (hapart : edgeTolerance ≤ |edgeAt s k (i + 1) - edgeAt s k i|) :
    edgeAt s k i < edgeAt s k (i + 1) := by
  refine (edgeAt_mono hs hrising hk (Nat.le_succ i) hi).lt_of_ne fun heq => ?_
  rw [heq, sub_self, abs_zero] at hapart
  exact absurd tolerance_pos (not_lt.mpr hapart)

theorem byQuantile_eq_ok (htwo : 2 ≤ s.length) (hrising : s.Pairwise (· < ·)) (hk : 0 < k)
    (hlength : k ≤ s.length)
    (hapart : ∀ i < k, edgeTolerance ≤ |edgeAt s k (i + 1) - edgeAt s k i|) :
    byQuantile k s = .ok ⟨(List.range (k + 1)).map (edgeAt s k), sweep (innerEdges s k) s 0⟩ := by
  have hs : s ≠ [] := List.ne_nil_of_length_pos (by omega)
  have hlt : ∀ i < k, edgeAt s k i < edgeAt s k (i + 1) := fun i hi =>
    edgeAt_lt hs hrising hk hi (hapart i hi)
  have hspread : ¬place s (s.length - 1) ≤ place s 0 := by
    rw [not_le]
    exact strictMonoOn_place hs hrising (Nat.zero_le _) (Set.mem_Iic.mpr le_rfl) (by omega)
  have hedges : quantileEdges s (place s 0) (place s (s.length - 1)) k
      = (List.range (k + 1)).map (edgeAt s k) := (map_edgeAt_eq hs hk).symm
  have hmerged : mergeEdges (place s (s.length - 1)) ((List.range (k + 1)).map (edgeAt s k))
      = (List.range (k + 1)).map (edgeAt s k) := by
    unfold mergeEdges
    have hapart : ((List.range (k + 1)).map (edgeAt s k)).IsChain fun a b =>
        decide (Scalar.abs (b - a) < edgeTolerance) = false :=
      isChain_edgeAt.mpr fun i hi => decide_eq_false (not_lt.mpr (hapart i hi))
    rw [dropSame_eq_self hapart, map_edgeAt_eq hs hk, ← List.cons_append, List.dropLast_concat]
  have hkept : dropSame (fun a b => a ≤ b) ((List.range (k + 1)).map (edgeAt s k))
      = (List.range (k + 1)).map (edgeAt s k) :=
    dropSame_eq_self (isChain_edgeAt.mpr fun i hi => decide_eq_false (not_le.mpr (hlt i hi)))
  have htail : ((List.range (k + 1)).map (edgeAt s k)).tail.dropLast = innerEdges s k := by
    rw [map_edgeAt_eq hs hk, List.tail_cons, List.dropLast_concat]
  have hvalid : Histogram.IsValid
      ⟨(List.range (k + 1)).map (edgeAt s k), sweep (innerEdges s k) s 0⟩ := {
    two_le := by
      simp
      omega
    finite := Unrounded.allFinite_eq_true _
    rising := List.isChain_iff_pairwise.mp (isChain_edgeAt.mpr hlt)
    length_edges := by
      simp [length_sweep, length_innerEdges]
      omega }
  unfold byQuantile
  rw [ends_eq hs]
  change (if _ then _ else _) = _
  rw [if_neg hspread, if_neg (by omega), hedges, hmerged]
  unfold finish
  rw [hkept, if_neg (Nat.not_lt.mpr hvalid.two_le), htail]
  exact Histogram.ofEdges_eq_ok_iff.mpr ⟨rfl, hvalid⟩

end Edges

/-! ### Balance -/

section Balance

variable {f : Transcendental K} {s : List (Unrounded f)} {k b : ℕ}

omit [IsStrictOrderedRing K] in
theorem getElem?_sweep (hsorted : s.Pairwise (· ≤ ·)) (hk : 0 < k) (hb : b < k) :
    (sweep (innerEdges s k) s 0)[b]?
      = some ((s.map (Histogram.reached (innerEdges s k))).count b) := by
  have hbins : (innerEdges s k).length + 1 = k := by
    rw [length_innerEdges]
    omega
  rw [Histogram.sweep_eq_tally (innerEdges s k) 0 hsorted, hbins]
  exact Histogram.getElem?_tally hb _

omit [IsStrictOrderedRing K] in
theorem pairwise_lt_sorted {xs : List (Unrounded f)} (h : xs.Nodup) :
    (Sample.sorted xs).Pairwise (· < ·) := by
  have hle := Scalar.pairwise_le_sorted (Unrounded.allFinite_eq_true xs)
  have hne : (Sample.sorted xs).Pairwise (· ≠ ·) := (Sample.perm_sorted xs).nodup_iff.mpr h
  exact hle.imp₂ (fun a b hab hne => lt_of_le_of_ne hab hne) hne

/-- Without rounding, different values whose quantiles are apart get as many bins as are asked for.
Each bin holds its part of all values but one, rounded down or up, and the last bin one more. -/
theorem quantile_bins_balanced (f : Transcendental K) {k : ℕ} (hk : 1 ≤ k) {xs : List (Unrounded f)}
    (hnodup : xs.Nodup) (htwo : 2 ≤ xs.length) (hlength : k ≤ xs.length)
    (hapart : ∀ i < k, edgeTolerance
      ≤ |edgeAt (Sample.sorted xs) k (i + 1) - edgeAt (Sample.sorted xs) k i|) :
    ∃ h, onSorted (Strategy.quantile.histogram k) xs = .ok h ∧ h.size = k
      ∧ ∀ b < k, ∃ width, (width = (xs.length - 1) / k ∨ width = (xs.length - 1) ⌈/⌉ k)
        ∧ h.counts[b]? = some (if b + 1 = k then width + 1 else width) := by
  have hrising := pairwise_lt_sorted hnodup
  rw [← (Sample.perm_sorted xs).length_eq] at htwo hlength ⊢
  have hs : Sample.sorted xs ≠ [] := List.ne_nil_of_length_pos (by omega)
  have hstart : onSorted (Strategy.quantile.histogram k) xs = byQuantile k (Sample.sorted xs) := by
    unfold onSorted Sample.checkFinite
    rw [if_pos (Unrounded.allFinite_eq_true xs)]
    change byQuantile (max k 1) _ = _
    rw [max_eq_left hk]
  refine ⟨_, hstart.trans (byQuantile_eq_ok htwo hrising hk hlength hapart), ?_, ?_⟩
  · change (sweep _ _ _).length = k
    rw [length_sweep, length_innerEdges]
    omega
  · intro b hb
    obtain ⟨width, hwidth, hcount⟩ := count_reached_balanced hs hrising hk hb
    refine ⟨width, hwidth, ?_⟩
    rw [← hcount]
    exact getElem?_sweep (hrising.imp le_of_lt) hk hb

end Balance

def rational : Transcendental ℚ := ⟨id, fun a _ => a, id, id⟩

/-- Squares out of order; none of the inner quantiles of three bins is one of them. -/
def squares : List (Unrounded rational) := [9, 0, 16, 1, 4]

theorem sorted_squares : Sample.sorted squares = [0, 1, 4, 9, 16] := by
  have hperm : squares.Perm [0, 1, 4, 9, 16] := by decide +kernel
  have hsorted := Scalar.pairwise_le_sorted (Unrounded.allFinite_eq_true squares)
  refine ((Sample.perm_sorted squares).trans hperm).eq_of_pairwise ?_ hsorted (by decide +kernel)
  exact fun a b _ _ => le_antisymm

theorem squares_balanced :
    squares.Nodup ∧ (∀ i < 3, edgeTolerance
      ≤ |edgeAt (Sample.sorted squares) 3 (i + 1) - edgeAt (Sample.sorted squares) 3 i|)
    ∧ ∃ h, onSorted (Strategy.quantile.histogram 3) squares = .ok h ∧ h.counts = [2, 1, 2]
      ∧ ∀ b < 3, ∃ width, (width = 1 ∨ width = 2)
        ∧ h.counts[b]? = some (if b + 1 = 3 then width + 1 else width) := by
  have hnodup : squares.Nodup := by decide +kernel
  have hapart : ∀ i < 3, edgeTolerance
      ≤ |edgeAt (Sample.sorted squares) 3 (i + 1) - edgeAt (Sample.sorted squares) 3 i| := by
    rw [sorted_squares]
    decide +kernel
  obtain ⟨h, ok, _, hbalanced⟩ :=
    quantile_bins_balanced rational (by decide) hnodup (by decide) (by decide) hapart
  have hmade : (onSorted (Strategy.quantile.histogram 3) squares).toOption.map Histogram.counts
      = some [2, 1, 2] := by
    unfold onSorted
    rw [sorted_squares]
    decide +kernel
  rw [ok] at hmade
  exact ⟨hnodup, hapart, h, ok, Option.some.inj hmade, hbalanced⟩

end Binning

end BinGrade
