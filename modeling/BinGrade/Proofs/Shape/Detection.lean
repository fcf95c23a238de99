import BinGrade.Proofs.Histogram.Uniform
import BinGrade.Shape.Label

/-!
# Which samples can be labelled

To count modes, a sample is binned at equal widths. This fails for a finite sample only if its range
overflows. Such a sample is never taken for one without spread, since its variance overflows too.
-/

namespace BinGrade

open Binary64

namespace Sample

/-- Two values of the sample lie further apart than finite numbers reach. -/
def Wide (xs : List Float) : Prop := ∃ a ∈ xs, ∃ b ∈ xs, (b - a).isFinite = false

instance (xs : List Float) : Decidable (Wide xs) :=
  inferInstanceAs (Decidable (∃ a ∈ xs, ∃ b ∈ xs, (b - a).isFinite = false))

end Sample

open Sample (Wide)

variable {xs sorted : List Float} {first last : Float} {c : ModeConfig Float}

theorem Binning.Ascends.wide_iff (hs : Binning.Ascends xs sorted first last) :
    Wide xs ↔ (last - first).isFinite = false := by
  constructor
  · rintro ⟨a, ha, b, hb, hfar⟩
    have hsa := hs.perm.mem_iff.mpr ha
    have hsb := hs.perm.mem_iff.mpr hb
    obtain ⟨hfa, hal⟩ := hs.within hsa
    obtain ⟨hfb, hbl⟩ := hs.within hsb
    have hna := isNaN_of_isFinite (hs.finite a hsa)
    have hnb := isNaN_of_isFinite (hs.finite b hsb)
    have hnf := isNaN_of_isFinite hs.finite_first
    have hnl := isNaN_of_isFinite hs.finite_last
    rw [le_iff hnf hna] at hfa
    rw [le_iff hna hnl] at hal
    rw [le_iff hnf hnb] at hfb
    rw [le_iff hnb hnl] at hbl
    obtain ⟨hnumber, hvalue⟩ := value_sub (hs.finite b hsb) (hs.finite a hsa)
    obtain ⟨hnumber', hvalue'⟩ := value_sub hs.finite_last hs.finite_first
    have hbetween : |value b - value a| ≤ value last - value first := by
      rw [abs_le]
      constructor <;> linarith
    rw [← Bool.not_eq_true, isFinite_iff hnumber, hvalue, abs_nearest] at hfar
    rw [← Bool.not_eq_true, isFinite_iff hnumber', hvalue', abs_nearest]
    intro hnear
    refine hfar ((nearest_mono ?_).trans_lt hnear)
    exact hbetween.trans (le_abs_self _)
  · intro hfar
    exact ⟨first, hs.perm.mem_iff.mp (List.mem_of_mem_head? hs.head), last,
      hs.perm.mem_iff.mp (List.mem_of_getLast? hs.last), hfar⟩

/-! ### Spread of wide samples -/

theorem exists_beyond_square (hfinite : Sample.allFinite xs = true) (hwide : Wide xs) (m : Float) :
    ∃ y ∈ xs.map (fun x => (x - m) * (x - m)), Beyond y := by
  obtain ⟨a, ha, b, hb, hfar⟩ := hwide
  have hmem := List.all_eq_true.mp hfinite
  rcases beyond_square_or (hmem a ha) (hmem b hb) hfar m with h | h
  · exact ⟨_, List.mem_map_of_mem ha, h⟩
  · exact ⟨_, List.mem_map_of_mem hb, h⟩

theorem value_ofNat_pos {n : Nat} (h : 1 ≤ n) : 0 < value (Float.ofNat n) := by
  rw [(rounds_ofNat n).value_eq]
  have hone : (1 : ℚ) ≤ n := by exact_mod_cast h
  exact one_pos.trans_le (nearest_one.symm.le.trans (nearest_mono hone))

theorem Sample.Wide.ne_nil (h : Wide xs) : xs ≠ [] := by
  obtain ⟨a, ha, _⟩ := h
  exact List.ne_nil_of_mem ha

theorem Binary64.Beyond.div_length {a : Float} (h : Beyond a) (hxs : xs ≠ []) :
    Beyond (a / Float.ofNat xs.length) :=
  h.div (rounds_ofNat _).isNaN_eq (value_ofNat_pos (List.length_pos_iff.mpr hxs))

theorem Moments.second_foldl (mean : Float) (xs : List Float) (s : PowerSums Float) :
    (xs.foldl (fun (s : PowerSums Float) x =>
      let d := x - mean
      let d2 := d * d
      ⟨s.second + d2, s.third + d2 * d, s.fourth + d2 * d2⟩) s).second
      = (xs.map fun x => (x - mean) * (x - mean)).foldl (· + ·) s.second := by
  induction xs generalizing s with
  | nil => rfl
  | cons x xs ih => exact ih _

theorem beyond_variance (hfinite : Sample.allFinite xs = true) (hwide : Wide xs) :
    Beyond (Moments.ofSample xs).variance := by
  have hne := hwide.ne_nil
  obtain ⟨y, hy, hbeyond⟩ := exists_beyond_square hfinite hwide (Scalar.total xs / Scalar.ofCount xs.length)
  unfold Moments.ofSample
  rw [if_neg (by simpa using hne)]
  dsimp only
  rw [Moments.variance_ofCentral, Moments.second_foldl]
  exact (beyond_foldl_add hy hbeyond).div_length hne

theorem beyond_deviation (hfinite : Sample.allFinite xs = true) (hwide : Wide xs) :
    Beyond (Sample.deviation xs) := by
  have hne := hwide.ne_nil
  obtain ⟨y, hy, hbeyond⟩ := exists_beyond_square hfinite hwide (Sample.mean xs)
  unfold Sample.deviation
  rw [if_neg (by simpa using hne)]
  exact ((beyond_foldl_add hy hbeyond).div_length hne).sqrt

/-! ### Counting modes -/

theorem ascends_of_ne_nil (hfinite : Sample.allFinite xs = true) (hne : xs ≠ []) :
    ∃ first last, Binning.Ascends xs (Sample.sorted xs) first last := by
  have hsorted : Sample.sorted xs ≠ [] := by
    intro h
    have hperm := Sample.perm_sorted xs
    rw [h] at hperm
    exact hne hperm.symm.eq_nil
  have hends : Binning.ends (Sample.sorted xs)
      = .ok ((Sample.sorted xs).head hsorted, (Sample.sorted xs).getLast hsorted) := by
    unfold Binning.ends
    rw [List.head?_eq_some_head hsorted, List.getLast?_eq_some_getLast hsorted]
  exact ⟨_, _, Binning.ascends_sorted hfinite hends⟩

theorem Modes.binCount_le (c : ModeConfig Float) (n : Nat) (deviation range : Float) :
    binCount c n deviation range ≤ c.maxBins := by
  unfold binCount
  exact Nat.min_le_right _ _

theorem detect_of_ascends (hs : Binning.Ascends xs (Sample.sorted xs) first last)
    (hsize : c.minSampleSize ≤ xs.length) :
    Modes.detect c xs =
      if last ≤ first || Sample.deviation xs ≤ 0.0 then .ok (Modes.single (Sample.mean xs))
      else Binning.uniform
          (max (Modes.binCount c xs.length (Sample.deviation xs) (last - first)) 1) (Sample.sorted xs)
        >>= fun h => pure (Modes.ofHistogram c (Sample.mean xs) h) := by
  unfold Modes.detect
  simp only [Nat.not_lt.mpr hsize, if_false, hs.head, hs.last]
  rfl

/-- The number of bins in which the modes of a sample are counted, if they are counted at all. -/
def Modes.binsFor (c : ModeConfig Float) (xs : List Float) : Nat :=
  match (Sample.sorted xs).head?, (Sample.sorted xs).getLast? with
  | some least, some greatest =>
    binCount c xs.length (Sample.deviation xs) (greatest - least)
  | _, _ => 0

theorem Modes.binsFor_le (c : ModeConfig Float) (xs : List Float) : binsFor c xs ≤ c.maxBins := by
  unfold binsFor
  split
  · exact binCount_le ..
  · exact Nat.zero_le _

theorem Modes.binsFor_of_ascends (hs : Binning.Ascends xs (Sample.sorted xs) first last) :
    binsFor c xs = binCount c xs.length (Sample.deviation xs) (last - first) := by
  unfold binsFor
  rw [hs.head, hs.last]

theorem Binning.Ascends.not_le_of_not_isFinite (hs : Binning.Ascends xs sorted first last)
    (hrange : (last - first).isFinite = false) : ¬last ≤ first := by
  intro hflat
  have hnf := isNaN_of_isFinite hs.finite_first
  have hnl := isNaN_of_isFinite hs.finite_last
  have hle := (hs.within (List.mem_of_getLast? hs.last)).1
  obtain ⟨hnumber, hvalue⟩ := value_sub hs.finite_last hs.finite_first
  have hsame : value last = value first :=
    le_antisymm ((le_iff hnl hnf).mp hflat) ((le_iff hnf hnl).mp hle)
  rw [hsame, sub_self, show nearest 0 = 0 from nearest_value (0.0 : Float)] at hvalue
  rw [← Bool.not_eq_true, isFinite_iff hnumber, hvalue, abs_zero] at hrange
  exact hrange limit_pos

theorem detect_eq_error (hfinite : Sample.allFinite xs = true) (hwide : Wide xs)
    (hsize : c.minSampleSize ≤ xs.length) :
    Modes.detect c xs = .error (.invalidInput .edgesNotFinite) := by
  obtain ⟨first, last, hs⟩ := ascends_of_ne_nil hfinite hwide.ne_nil
  have hrange := hs.wide_iff.mp hwide
  have hspread := hs.not_le_of_not_isFinite hrange
  have hdeviation : ¬Sample.deviation xs ≤ (0.0 : Float) :=
    (beyond_deviation hfinite hwide).not_le rfl
  rw [detect_of_ascends hs hsize, if_neg (by simp [hspread, hdeviation]),
    Binning.uniform_eq_error hs hspread hrange (Nat.le_max_right _ _)]
  rfl

theorem detect_eq_ok (hfinite : Sample.allFinite xs = true)
    (h : ¬(c.minSampleSize ≤ xs.length ∧ Wide xs)) (hbins : Modes.binsFor c xs ≤ 2 ^ 50) :
    ∃ s, Modes.detect c xs = .ok s := by
  by_cases hsize : c.minSampleSize ≤ xs.length
  · rcases eq_or_ne xs [] with rfl | hne
    · exact ⟨Modes.single (Sample.mean []), by simp [Modes.detect, Sample.sorted]⟩
    obtain ⟨first, last, hs⟩ := ascends_of_ne_nil hfinite hne
    rw [Modes.binsFor_of_ascends hs] at hbins
    rw [detect_of_ascends hs hsize]
    split
    · exact ⟨_, rfl⟩
    next hspread =>
    have hrange : (last - first).isFinite = true := by
      by_contra hnot
      exact h ⟨hsize, hs.wide_iff.mpr (Bool.eq_false_iff.mpr hnot)⟩
    have hmany : max (Modes.binCount c xs.length (Sample.deviation xs) (last - first)) 1 ≤ 2 ^ 50 :=
      max_le hbins (by norm_num)
    obtain ⟨histogram, hmade⟩ := Binning.uniform_eq_ok hs (by simp_all) hrange
      (Nat.le_max_right _ _) hmany
    rw [hmade]
    exact ⟨_, rfl⟩
  · exact ⟨Modes.single (Sample.mean xs), by simp [Modes.detect, Nat.not_le.mp hsize]⟩

/-! ### Labels -/

theorem Classifier.label_eq_error {c : Classifier Float} (hfinite : Sample.allFinite xs = true)
    (hwide : Wide xs) (hsize : c.modes.minSampleSize ≤ xs.length) :
    c.label xs = .error (.invalidInput .edgesNotFinite) := by
  have hvariance : ¬(Moments.ofSample xs).variance < Moments.leastVariance :=
    (beyond_variance hfinite hwide).not_lt (by decide +kernel)
  have hspread : ¬((xs.isEmpty || (Moments.ofSample xs).variance < Moments.leastVariance) = true) := by
    simp [hwide.ne_nil, hvariance]
  unfold label Sample.checkFinite
  simp only [hfinite, if_true, bind, Except.bind, if_neg hspread,
    detect_eq_error hfinite hwide hsize]

theorem Classifier.label_eq_ok {c : Classifier Float} (hfinite : Sample.allFinite xs = true)
    (h : ¬(c.modes.minSampleSize ≤ xs.length ∧ Wide xs))
    (hbins : Modes.binsFor c.modes xs ≤ 2 ^ 50) :
    ∃ l, c.label xs = .ok l := by
  obtain ⟨s, hs⟩ := detect_eq_ok hfinite h hbins
  unfold label Sample.checkFinite
  simp only [hfinite, if_true, bind, Except.bind, hs]
  split
  · exact ⟨_, rfl⟩
  · exact ⟨_, rfl⟩

end BinGrade
