import BinGrade.Proofs.Histogram.Conservation

/-!
# Valid histograms

However a histogram is made, its edges and counts end in the same check. Counting a sample never
counts a value twice, so no bin holds more than there are values.
-/

namespace BinGrade

open Scalar (Ordered)

theorem le_sumCounts {n : ℕ} {counts : List ℕ} (h : n ∈ counts) : n ≤ sumCounts counts := by
  induction counts with
  | nil => cases h
  | cons m counts ih =>
    rw [sumCounts_cons]
    rcases List.mem_cons.mp h with rfl | htail
    · omega
    · have := ih htail
      omega

theorem sumCounts_sublist {part counts : List ℕ} (h : part.Sublist counts) :
    sumCounts part ≤ sumCounts counts := by
  induction h with
  | slnil => exact Nat.le_refl _
  | cons n h ih =>
    rw [sumCounts_cons]
    omega
  | cons_cons n h ih =>
    rw [sumCounts_cons, sumCounts_cons]
    omega

variable {α : Type} [Scalar α] {edges xs : List α} {counts : List ℕ} {h : Histogram α}

namespace Histogram

/-- Finite rising edges with one count for each gap between them. -/
structure IsValid (h : Histogram α) : Prop where
  two_le : 2 ≤ h.edges.length
  finite : Sample.allFinite h.edges = true
  rising : h.edges.Pairwise (· < ·)
  length_edges : h.edges.length = h.counts.length + 1

theorem IsValid.counts_ne_nil (hv : h.IsValid) : h.counts ≠ [] := by
  have htwo := hv.two_le
  have hlength := hv.length_edges
  exact List.ne_nil_of_length_pos (by omega)

/-- A valid histogram that counts every value of a sample. -/
def Counts (h : Histogram α) (xs : List α) : Prop := h.IsValid ∧ h.totalCount = xs.length

theorem Counts.le_length (hc : h.Counts xs) : ∀ n ∈ h.counts, n ≤ xs.length :=
  fun _ hn => (le_sumCounts hn).trans hc.2.le

variable [Ordered α]

theorem ofEdges_eq_ok_iff : ofEdges edges counts = .ok h ↔ h = ⟨edges, counts⟩ ∧ h.IsValid := by
  constructor
  · intro ok
    have hlength := length_edges_of_ofEdges ok
    obtain ⟨hcheck, rfl⟩ := of_ofEdges_eq_ok ok
    obtain ⟨htwo, hfinite, hrising⟩ := checkEdges_eq_ok_iff.mp hcheck
    exact ⟨rfl, htwo, hfinite, hrising, hlength⟩
  · rintro ⟨rfl, hvalid⟩
    have hcheck := checkEdges_eq_ok_iff.mpr ⟨hvalid.two_le, hvalid.finite, hvalid.rising⟩
    have hlength : ¬edges.length ≠ counts.length + 1 := not_not.mpr hvalid.length_edges
    unfold ofEdges
    rw [hcheck]
    exact if_neg hlength

theorem IsValid.ofEdges_eq (hv : h.IsValid) : ofEdges h.edges h.counts = .ok h :=
  ofEdges_eq_ok_iff.mpr ⟨rfl, hv⟩

theorem isValid_of_ofSample (ok : ofSample edges xs = .ok h) :
    h.IsValid ∧ ∀ n ∈ h.counts, n ≤ xs.length := by
  obtain ⟨_, hcheck, ok⟩ := exists_of_bind_eq_ok ok
  obtain ⟨htwo, hfinite, hrising⟩ := checkEdges_eq_ok_iff.mp hcheck
  cases ok
  refine ⟨⟨htwo, hfinite, hrising, ?_⟩, ?_⟩
  · change edges.length = (tally _ _).length + 1
    rw [length_tally]
    omega
  · intro n hn
    obtain ⟨i, _, rfl⟩ := List.mem_map.mp hn
    exact List.count_le_length.trans (List.length_filterMap_le _ xs)

theorem counts_of_ofEdges (ok : ofEdges edges counts = .ok h) (hsum : sumCounts counts = xs.length) :
    h.Counts xs := by
  obtain ⟨rfl, hvalid⟩ := ofEdges_eq_ok_iff.mp ok
  exact ⟨hvalid, hsum⟩

end Histogram

/-! ### Strategies -/

namespace Binning

variable [Ordered α] {bins : ℕ}

theorem counts_single (ok : single xs = .ok h) : h.Counts xs :=
  Histogram.counts_of_ofEdges ok (by simp)

theorem counts_finish (ok : finish edges xs = .ok h) : h.Counts xs := by
  unfold finish at ok
  dsimp only at ok
  split at ok
  · exact counts_single ok
  · exact Histogram.counts_of_ofEdges ok (by rw [sumCounts_sweep, Nat.zero_add])

theorem counts_uniform (ok : uniform bins xs = .ok h) : h.Counts xs := by
  obtain ⟨⟨first, last⟩, _, ok⟩ := exists_of_bind_eq_ok ok
  dsimp only at ok
  split at ok
  · exact counts_single ok
  · exact counts_finish ok

theorem counts_byQuantile (ok : byQuantile bins xs = .ok h) : h.Counts xs := by
  obtain ⟨⟨first, last⟩, _, ok⟩ := exists_of_bind_eq_ok ok
  dsimp only at ok
  split at ok
  · exact counts_single ok
  split at ok
  · exact counts_uniform ok
  · exact counts_finish ok

theorem counts_logarithmic (ok : logarithmic bins xs = .ok h) : h.Counts xs := by
  obtain ⟨⟨first, last⟩, _, ok⟩ := exists_of_bind_eq_ok ok
  dsimp only at ok
  split at ok
  · cases ok
  split at ok
  · exact counts_single ok
  · exact counts_finish ok

/-- Whatever list is given to a strategy as a sorted sample, the histogram is valid. -/
theorem counts_histogram {s : Strategy} (ok : s.histogram bins xs = .ok h) : h.Counts xs := by
  cases s with
  | uniform => exact counts_uniform ok
  | quantile => exact counts_byQuantile ok
  | logarithmic => exact counts_logarithmic ok

end Binning

end BinGrade
