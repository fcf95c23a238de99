import BinGrade.Proofs.Binary64.Order
import BinGrade.Proofs.Histogram.Counting

/-!
# What binning conserves

Whatever a strategy does to place the edges, the histogram it gives holds every value of the sample
once. Before the count, the edges go through passes that drop some of them. Such a pass keeps the
first edge, and drops the last one only for a kept edge that does as well, so no value falls outside.
-/

namespace BinGrade

open Scalar (Ordered)

namespace Histogram

variable {α : Type} [Scalar α]

/-- The histogram counts every value of the sample once, in at most the given number of bins. -/
structure Conserves (h : Histogram α) (xs : List α) (bins : Nat) : Prop where
  finite : Sample.allFinite h.edges = true
  rising : h.edges.Pairwise (· < ·)
  length_edges : h.edges.length = h.size + 1
  size_pos : 1 ≤ h.size
  size_le : h.size ≤ bins
  within : ∀ x ∈ xs, h.first ≤ x ∧ x ≤ h.last
  totalCount_eq : h.totalCount = xs.length
  recount : ofSample h.edges xs = .ok h

theorem Conserves.mono {h : Histogram α} {xs : List α} {bins bins' : Nat}
    (hc : h.Conserves xs bins) (hbins : bins ≤ bins') : h.Conserves xs bins' :=
  { hc with size_le := hc.size_le.trans hbins }

theorem of_ofEdges_eq_ok {edges : List α} {counts : List Nat} {h : Histogram α}
    (ok : ofEdges edges counts = .ok h) : checkEdges edges = .ok () ∧ h = ⟨edges, counts⟩ := by
  unfold ofEdges at ok
  obtain ⟨_, hcheck, ok⟩ := exists_of_bind_eq_ok ok
  refine ⟨hcheck, ?_⟩
  split at ok
  · cases ok
  · cases ok
    rfl

theorem conserves_of_ofEdges [Ordered α] {first last : α} {inner sorted xs : List α} {bins : Nat}
    {h : Histogram α}
    (ok : ofEdges (first :: (inner ++ [last])) (Binning.sweep inner sorted 0) = .ok h)
    (hsorted : sorted.Pairwise (· ≤ ·)) (hperm : sorted.Perm xs)
    (hwithin : ∀ x ∈ sorted, first ≤ x ∧ x ≤ last) (hbins : inner.length < bins) :
    h.Conserves xs bins := by
  obtain ⟨hcheck, rfl⟩ := of_ofEdges_eq_ok ok
  obtain ⟨_, hfinite, hrising⟩ := checkEdges_eq_ok_iff.mp hcheck
  have hsize : (Binning.sweep inner sorted 0).length = inner.length + 1 :=
    Binning.length_sweep inner sorted 0
  have hlast : (first :: (inner ++ [last])).getLast? = some last :=
    List.getLast?_concat (l := first :: inner)
  exact {
    finite := hfinite
    rising := hrising
    length_edges := by simp [size, hsize]
    size_pos := by simp [size, hsize]
    size_le := by
      rw [size, hsize]
      omega
    within := by
      intro x hx
      rw [Histogram.first, Histogram.last, hlast]
      exact hwithin x (hperm.mem_iff.mpr hx)
    totalCount_eq := by
      rw [totalCount, Binning.sumCounts_sweep, Nat.zero_add, hperm.length_eq]
    recount := ofSample_eq_ok hcheck hsorted hperm hwithin }

end Histogram

namespace Binning

/-! ### Dropping edges -/

section Dropping

variable {α : Type}

theorem length_go_le (same : α → α → Bool) (kept : α) (ys : List α) :
    (dropSame.go same kept ys).length ≤ ys.length := by
  induction ys generalizing kept with
  | nil => exact Nat.le_refl 0
  | cons y ys ih =>
    unfold dropSame.go
    split
    · exact Nat.le_succ_of_le (ih kept)
    · exact Nat.succ_le_succ (ih y)

/-- The last edge is kept, unless it is the same as the last one that is. -/
theorem exists_last_go (same : α → α → Bool) (kept : α) (ys : List α) (last : α) :
    ∃ k, (kept :: dropSame.go same kept (ys ++ [last])).getLast? = some k
      ∧ (k = last ∨ same last k = true) := by
  induction ys generalizing kept with
  | nil =>
    by_cases h : same last kept = true
    · exact ⟨kept, by simp [dropSame.go, h], .inr h⟩
    · exact ⟨last, by simp [dropSame.go, h], .inl rfl⟩
  | cons y ys ih =>
    by_cases h : same y kept = true
    · simpa [dropSame.go, h] using ih kept
    · simpa [dropSame.go, h] using ih y

end Dropping

/-! ### Strategies -/

/-- A sample in ascending order, with its ends. -/
structure Ascends (xs sorted : List Float) (first last : Float) : Prop where
  perm : sorted.Perm xs
  finite : ∀ x ∈ sorted, Scalar.isFinite x = true
  pairwise : sorted.Pairwise (· ≤ ·)
  head : sorted.head? = some first
  last : sorted.getLast? = some last

theorem halfWidth_nonneg : 0 ≤ Binary64.value halfWidth := by decide +kernel

variable {xs sorted ys : List Float} {first last edge : Float} {bins : Nat} {h : Histogram Float}

namespace Ascends

variable (hs : Ascends xs sorted first last)

include hs

theorem finite_first : first.isFinite = true := hs.finite first (List.mem_of_mem_head? hs.head)

theorem finite_last : last.isFinite = true := hs.finite last (List.mem_of_getLast? hs.last)

theorem within {x : Float} (hx : x ∈ sorted) : first ≤ x ∧ x ≤ last := by
  have hrefl : x ≤ x := Ordered.le_refl (Ordered.isNaN_of_isFinite (hs.finite x hx))
  constructor
  · obtain ⟨rest, rfl⟩ := List.head?_eq_some_iff.mp hs.head
    rcases List.mem_cons.mp hx with rfl | hrest
    · exact hrefl
    · exact (List.pairwise_cons.mp hs.pairwise).1 x hrest
  · obtain ⟨rest, rfl⟩ := List.getLast?_eq_some_iff.mp hs.last
    rcases List.mem_append.mp hx with hrest | hlast
    · exact (List.pairwise_append.mp hs.pairwise).2.2 x hrest last (List.mem_singleton.mpr rfl)
    · rw [List.mem_singleton.mp hlast] at hrefl ⊢
      exact hrefl

theorem conserves_single (hlast : last ≤ first + halfWidth) (hbins : 1 ≤ bins)
    (ok : single sorted = .ok h) : h.Conserves xs bins := by
  unfold single at ok
  rw [hs.head] at ok
  have hsweep : [sorted.length] = sweep [] sorted 0 := by simp [sweep]
  rw [hsweep] at ok
  change Histogram.ofEdges (_ :: ([] ++ [_])) _ = _ at ok
  refine Histogram.conserves_of_ofEdges ok hs.pairwise hs.perm ?_ hbins
  intro x hx
  obtain ⟨hleft, hright⟩ := hs.within hx
  have hbelow : first - halfWidth ≤ first :=
    Binary64.sub_le_left hs.finite_first rfl halfWidth_nonneg
  exact ⟨Ordered.le_trans hbelow hleft, Ordered.le_trans hright hlast⟩

theorem le_add_halfWidth (hflat : last ≤ first) : last ≤ first + halfWidth :=
  Ordered.le_trans hflat (Binary64.left_le_add hs.finite_first rfl halfWidth_nonneg)

theorem conserves_finish (hfirst : edge.isNaN = false → edge ≤ first) (hspread : ¬last ≤ first)
    (hbins : ys.length < bins) (ok : finish (edge :: (ys ++ [last])) sorted = .ok h) :
    h.Conserves xs bins := by
  set same : Float → Float → Bool := fun a b => a ≤ b with hsame
  obtain ⟨k, hk, hdropped⟩ := exists_last_go same edge ys last
  -- the last edge that is kept is not below the end of the sample
  have hlast : last ≤ k := by
    rcases hdropped with rfl | hle
    · exact Ordered.le_refl (Ordered.isNaN_of_isFinite hs.finite_last)
    · exact of_decide_eq_true hle
  have hlength := length_go_le same edge (ys ++ [last])
  unfold finish at ok
  rw [← hsame, dropSame] at ok
  cases hgo : dropSame.go same edge (ys ++ [last]) with
  | nil =>
    rw [hgo] at hk
    cases hk
    exact absurd (Ordered.le_trans hlast (hfirst (Ordered.isNaN_of_le hlast).2)) hspread
  | cons y rest =>
    obtain ⟨inner, hinner⟩ : ∃ inner, y :: rest = inner ++ [k] := by
      rw [hgo, List.getLast?_cons_cons] at hk
      exact List.getLast?_eq_some_iff.mp hk
    rw [hgo, hinner] at ok hlength
    rw [if_neg (by simp), List.tail_cons, List.dropLast_concat] at ok
    obtain ⟨hcheck, _⟩ := Histogram.of_ofEdges_eq_ok ok
    obtain ⟨_, hfinite, _⟩ := Histogram.checkEdges_eq_ok_iff.mp hcheck
    have hedge : edge ≤ first := hfirst (Ordered.isNaN_of_isFinite
      (List.all_eq_true.mp hfinite edge List.mem_cons_self))
    refine Histogram.conserves_of_ofEdges ok hs.pairwise hs.perm ?_ ?_
    · intro x hx
      obtain ⟨hleft, hright⟩ := hs.within hx
      exact ⟨Ordered.le_trans hedge hleft, Ordered.le_trans hright hlast⟩
    · simp only [List.length_append, List.length_singleton] at hlength
      omega

/-- Nearly the same edges are merged. If all are, the sample fits into one bin around its value. -/
theorem conserves_merged (hspread : ¬last ≤ first) (hbins : ys.length < bins)
    (ok : finish (mergeEdges last (first :: (ys ++ [last]))) sorted = .ok h) :
    h.Conserves xs bins := by
  set same : Float → Float → Bool := fun a b => Scalar.abs (a - b) < edgeTolerance with hsame
  obtain ⟨k, hk, hdropped⟩ := exists_last_go same first ys last
  have hlength := length_go_le same first (ys ++ [last])
  have hrefl : first ≤ first := Ordered.le_refl (Ordered.isNaN_of_isFinite hs.finite_first)
  unfold mergeEdges at ok
  rw [← hsame, dropSame] at ok
  cases hgo : dropSame.go same first (ys ++ [last]) with
  | nil =>
    rw [hgo] at hk ok
    cases hk
    have hnear : same last first = true := hdropped.resolve_left fun h => hspread (h ▸ hrefl)
    have htolerance : (edgeTolerance : Float) < halfWidth := by decide +kernel
    have hwithin : (last - first).abs < halfWidth :=
      Scalar.lt_trans (of_decide_eq_true hnear) htolerance
    have hlast : last ≤ first + halfWidth :=
      Binary64.le_add_of_abs_sub_lt hs.finite_first hs.finite_last rfl hwithin
    exact hs.conserves_single hlast (Nat.zero_lt_of_lt hbins) ok
  | cons y rest =>
    rw [hgo] at ok hlength
    rw [List.dropLast_cons_of_ne_nil (List.cons_ne_nil y rest), List.cons_append] at ok
    refine hs.conserves_finish (fun _ => hrefl) hspread ?_ ok
    simp only [List.length_append, List.length_cons, List.length_nil] at hlength
    simp only [List.length_dropLast, List.length_cons]
    omega

theorem conserves_uniform (hbins : 1 ≤ bins) (ok : uniform bins sorted = .ok h) :
    h.Conserves xs bins := by
  unfold uniform ends at ok
  simp only [hs.head, hs.last, bind, Except.bind] at ok
  split at ok
  · next hflat => exact hs.conserves_single (hs.le_add_halfWidth hflat) hbins ok
  · next hspread =>
    obtain ⟨n, rfl⟩ := Nat.exists_eq_add_of_le' hbins
    unfold uniformEdges at ok
    dsimp only at ok
    rw [List.range_succ_eq_map, List.map_cons, List.cons_append] at ok
    -- the first edge is computed too, and is the least value wherever it is a number
    exact hs.conserves_finish (Binary64.add_zero_mul_le hs.finite_first) hspread (by simp) ok

theorem conserves_byQuantile (hbins : 1 ≤ bins) (ok : byQuantile bins sorted = .ok h) :
    h.Conserves xs bins := by
  unfold byQuantile ends at ok
  simp only [hs.head, hs.last, bind, Except.bind] at ok
  split at ok
  · next hflat => exact hs.conserves_single (hs.le_add_halfWidth hflat) hbins ok
  next hspread =>
  split at ok
  · next hfew =>
    have hpos : 1 ≤ sorted.length := List.length_pos_of_mem (List.mem_of_mem_head? hs.head)
    exact (hs.conserves_uniform hpos ok).mono hfew.le
  · exact hs.conserves_merged hspread (by simp; omega) ok

theorem conserves_logarithmic (hbins : 1 ≤ bins) (ok : logarithmic bins sorted = .ok h) :
    h.Conserves xs bins := by
  unfold logarithmic ends at ok
  simp only [hs.head, hs.last, bind, Except.bind] at ok
  split at ok
  · cases ok
  split at ok
  · next hflat => exact hs.conserves_single (hs.le_add_halfWidth hflat) hbins ok
  · next hspread =>
    have hrefl : first ≤ first :=
      Ordered.le_refl (Ordered.isNaN_of_isFinite hs.finite_first)
    exact hs.conserves_finish (fun _ => hrefl) hspread (by simp; omega) ok

end Ascends

theorem ascends_sorted (hfinite : Sample.allFinite xs = true)
    (hends : ends (Sample.sorted xs) = .ok (first, last)) :
    Ascends xs (Sample.sorted xs) first last := by
  have hmem : ∀ x ∈ Sample.sorted xs, Scalar.isFinite x = true := by
    intro x hx
    exact List.all_eq_true.mp hfinite x ((Sample.perm_sorted xs).mem_iff.mp hx)
  unfold ends at hends
  split at hends
  · next hhead hlast =>
    cases hends
    exact ⟨Sample.perm_sorted xs, hmem, Scalar.pairwise_le_sorted hfinite, hhead, hlast⟩
  · cases hends

/-- A strategy needs the ends of the sample first. -/
theorem exists_ends_of_histogram {s : Strategy} (ok : s.histogram bins sorted = .ok h) :
    ∃ first last, ends sorted = .ok (first, last) := by
  cases s with
  | uniform | quantile | logarithmic =>
    obtain ⟨⟨first, last⟩, hends, _⟩ := exists_of_bind_eq_ok ok
    exact ⟨first, last, hends⟩

theorem conserves_onSorted {s : Strategy} (hbins : 1 ≤ bins)
    (ok : onSorted (s.histogram bins) xs = .ok h) : h.Conserves xs bins := by
  obtain ⟨_, hcheck, hmade⟩ := exists_of_bind_eq_ok ok
  have hfinite : Sample.allFinite xs = true := by
    by_contra hnot
    rw [Sample.checkFinite, if_neg hnot] at hcheck
    cases hcheck
  obtain ⟨first, last, hends⟩ := exists_ends_of_histogram hmade
  have hs := ascends_sorted hfinite hends
  unfold Strategy.histogram at hmade
  rw [Nat.max_eq_left hbins] at hmade
  cases s with
  | uniform => exact hs.conserves_uniform hbins hmade
  | quantile => exact hs.conserves_byQuantile hbins hmade
  | logarithmic => exact hs.conserves_logarithmic hbins hmade

theorem build_eq_onSorted {s : Strategy} (hbins : 1 ≤ bins) (xs : List Float) :
    (⟨s, bins⟩ : Binning).build xs = onSorted (s.histogram bins) xs := by
  have hcheck : (⟨s, bins⟩ : Binning).check = (.ok () : Except (Error Float) Unit) :=
    if_neg (Nat.pos_iff_ne_zero.mp hbins)
  unfold build onSorted buildSorted
  rw [hcheck]
  rfl

/-- Every histogram that a strategy makes of a sample, by itself or as a binning, has finite rising
edges around all the values, counts each value once, and has the counts that looking the values up
between its edges gives. -/
theorem build_conserves (s : Strategy) {bins : Nat} (hbins : 1 ≤ bins) (xs : List Float) :
    (⟨s, bins⟩ : Binning).build xs = onSorted (s.histogram bins) xs
      ∧ ∀ h, (⟨s, bins⟩ : Binning).build xs = .ok h → h.Conserves xs bins := by
  refine ⟨build_eq_onSorted hbins xs, ?_⟩
  intro h ok
  rw [build_eq_onSorted hbins] at ok
  exact conserves_onSorted hbins ok

/-- A sample out of order, with so many ties that two of its quantiles fall together. -/
def tied : List Float := [3.0, 1.0, 1.0, 2.0, 1.0]

theorem sorted_tied : Sample.sorted tied = [1.0, 1.0, 1.0, 2.0, 3.0] := by
  have h11 : Scalar.sortsBefore (1.0 : Float) 1.0 = true := by decide +kernel
  have h21 : Scalar.sortsBefore (2.0 : Float) 1.0 = false := by decide +kernel
  have h31 : Scalar.sortsBefore (3.0 : Float) 1.0 = false := by decide +kernel
  have h32 : Scalar.sortsBefore (3.0 : Float) 2.0 = false := by decide +kernel
  simp [Sample.sorted, tied, List.mergeSort, h11, h21, h31, h32]

theorem tied_conserved :
    ∃ h, (⟨.quantile, 3⟩ : Binning).build tied = .ok h ∧ h.counts = [3, 2] ∧ h.Conserves tied 3 := by
  have hmade : ((⟨.quantile, 3⟩ : Binning).build tied).toOption.map Histogram.counts
      = some [3, 2] := by
    unfold build onSorted
    rw [sorted_tied]
    decide +kernel
  obtain ⟨h, hsome, hcounts⟩ := Option.map_eq_some_iff.mp hmade
  have ok := eq_ok_of_toOption hsome
  exact ⟨h, ok, hcounts, (build_conserves .quantile (by decide) tied).2 h ok⟩

end Binning
end BinGrade
