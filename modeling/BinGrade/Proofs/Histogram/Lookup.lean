import BinGrade.Proofs.Histogram.Validity
import BinGrade.Proofs.Scalar.Extremes

/-!
# Looking values up

A value is looked up by halving the edges until one is left. The search reads no edge beyond the
list and stops where the edges that are not above the value end, since the edges rise. The bin found
is the only one that holds the value, so counting a sample counts each of its values in its own bin.
-/

namespace BinGrade

open Scalar (Ordered)

/-- The difference of two counts; none if it would be negative. -/
def minus? (a b : ℕ) : Option ℕ := if b ≤ a then some (a - b) else none

theorem minus?_eq {a b : ℕ} (h : b ≤ a) : minus? a b = some (a - b) := if_pos h

/-! ### Halving -/

section Halving

variable {β : Type} {p : β → Bool} {xs : List β}

/-- Halves the stretch of a list in which the last member with a property is sought, until one member
is left; none if a member is read outside the list. -/
def narrow (p : β → Bool) (xs : List β) (base size : ℕ) : Option ℕ :=
  if size ≤ 1 then some base
  else do
    let middle ← xs[base + size / 2]?
    narrow p xs (if p middle then base + size / 2 else base) (size - size / 2)
termination_by size

/-- How many members have a property, if those that have it come first. -/
def partitionPoint? (p : β → Bool) (xs : List β) : Option ℕ :=
  if xs.isEmpty then some 0
  else do
    let base ← narrow p xs 0 xs.length
    let x ← xs[base]?
    some (if p x then base + 1 else base)

theorem lt_length_takeWhile_iff (hp : xs.Pairwise fun a b => p b = true → p a = true) {i : ℕ}
    (hi : i < xs.length) : i < (xs.takeWhile p).length ↔ p xs[i] = true := by
  induction xs generalizing i with
  | nil => cases hi
  | cons x xs ih =>
    obtain ⟨hhead, htail⟩ := List.pairwise_cons.mp hp
    by_cases hx : p x = true
    · rw [List.takeWhile_cons_of_pos hx, List.length_cons]
      cases i with
      | zero => simp [hx]
      | succ i =>
        rw [List.length_cons] at hi
        rw [List.getElem_cons_succ, ← ih htail (by omega)]
        omega
    · have hnot : ¬p (x :: xs)[i] = true := by
        intro h
        rcases List.mem_cons.mp (List.getElem_mem hi) with heq | hmem
        · exact hx (heq ▸ h)
        · exact hx (hhead _ hmem h)
      simp [List.takeWhile_cons_of_neg hx, hnot]

/-- The stretch stays in the list and around the place that is sought. -/
theorem exists_narrow (hp : xs.Pairwise fun a b => p b = true → p a = true) (base size : ℕ)
    (hsize : 1 ≤ size) (hfit : base + size ≤ xs.length)
    (hbelow : base = 0 ∨ base < (xs.takeWhile p).length)
    (habove : (xs.takeWhile p).length ≤ base + size) :
    ∃ found, narrow p xs base size = some found ∧ found < xs.length
      ∧ (found = 0 ∨ found < (xs.takeWhile p).length)
      ∧ (xs.takeWhile p).length ≤ found + 1 := by
  fun_induction narrow p xs base size with
  | case1 base size hone => exact ⟨base, rfl, by omega, hbelow, by omega⟩
  | case2 base size hmore ih =>
    have hmiddle : base + size / 2 < xs.length := by omega
    have hread : xs[base + size / 2]? = some xs[base + size / 2] := List.getElem?_eq_getElem hmiddle
    have hreached := lt_length_takeWhile_iff hp hmiddle
    rw [hread]
    refine ih _ (by omega) ?_ ?_ ?_
    · split <;> omega
    · split
      · next h => exact .inr (hreached.mpr h)
      · exact hbelow
    · split
      · omega
      · next h =>
        have := mt hreached.mp h
        omega

theorem partitionPoint?_eq (hp : xs.Pairwise fun a b => p b = true → p a = true) :
    partitionPoint? p xs = some (xs.takeWhile p).length := by
  unfold partitionPoint?
  cases xs with
  | nil => rfl
  | cons x xs =>
    have hreach : ((x :: xs).takeWhile p).length ≤ 0 + (x :: xs).length := by
      rw [Nat.zero_add]
      exact (List.takeWhile_sublist p).length_le
    obtain ⟨found, hfound, hlt, hbelow, habove⟩ :=
      exists_narrow hp 0 (x :: xs).length (by simp) (by simp) (.inl rfl) hreach
    have hreached := lt_length_takeWhile_iff hp hlt
    simp only [List.isEmpty_cons, Bool.false_eq_true, if_false, hfound, Option.bind_eq_bind,
      Option.bind_some, List.getElem?_eq_getElem hlt]
    congr 1
    split
    · next h =>
      have := hreached.mpr h
      omega
    · next h =>
      have := mt hreached.mp h
      omega

end Halving

/-! ### Bins by their edges -/

theorem map_getD_range {β : Type} (xs : List β) (d : β) :
    (List.range xs.length).map (fun i => xs.getD i d) = xs := by
  apply List.ext_getElem (by simp)
  intro i _ hi
  simp [hi]

theorem getElem?_neighbours {β : Type} (xs : List β) (i : ℕ) :
    (neighbours xs)[i]? = (xs[i]?).bind fun a => (xs[i + 1]?).map fun b => (a, b) := by
  fun_induction neighbours xs generalizing i with
  | case1 a b more ih =>
    cases i with
    | zero => rfl
    | succ i => simpa using ih i
  | case2 xs hshort =>
    rcases xs with _ | ⟨a, _ | ⟨b, more⟩⟩
    · simp
    · cases i <;> simp
    · exact absurd rfl (hshort a b more)

variable {α : Type} [Scalar α]

namespace Histogram

/-- The look-up of a value with every index checked: none if one lies outside the edges. -/
def locate? (edges : List α) (x : α) : Option (Option ℕ) := do
  let top ← minus? edges.length 1
  let first ← edges[0]?
  let last ← edges[top]?
  if first ≤ x && x ≤ last then
    if x == last then (minus? top 1).map some
    else do
      let above ← partitionPoint? (fun e => decide (e ≤ x)) edges
      (minus? above 1).map some
  else some none

/-- Whether a bin holds a value: it lies in the half-open bin, or the bin is the last one and the value
is its right edge. -/
def holds (h : Histogram α) (i : ℕ) (x : α) : Bool :=
  h.bins[i]?.any fun b => b.contains x || (i + 1 == h.size && x == h.last)

variable {h : Histogram α} {edges xs : List α} {x : α} {i j : ℕ}

theorem getElem?_bins (h : Histogram α) (i : ℕ) : h.bins[i]?
    = ((neighbours h.edges)[i]?).bind fun e =>
      (h.counts[i]?).map fun c => Bin.of e.1 e.2 c h.totalCount := by
  unfold bins
  rw [List.getElem?_zipWith]
  cases (neighbours h.edges)[i]? <;> cases h.counts[i]? <;> rfl

namespace IsValid

variable (hv : h.IsValid)

include hv

theorem edges_ne_nil : h.edges ≠ [] := by
  have := hv.two_le
  exact List.ne_nil_of_length_pos (by omega)

theorem head?_edges : h.edges.head? = some h.first := by
  rw [first, List.head?_eq_some_head hv.edges_ne_nil]
  rfl

theorem getLast?_edges : h.edges.getLast? = some h.last := by
  rw [last, List.getLast?_eq_some_getLast hv.edges_ne_nil]
  rfl

theorem holds_iff : h.holds i x = true ↔ ∃ (hi : i + 1 < h.edges.length),
    h.edges[i] ≤ x ∧ x < h.edges[i + 1] ∨ i + 2 = h.edges.length ∧ (x == h.last) = true := by
  have hlength := hv.length_edges
  unfold holds
  rw [getElem?_bins, getElem?_neighbours]
  by_cases hi : i + 1 < h.edges.length
  · have hcount : i < h.counts.length := by omega
    rw [List.getElem?_eq_getElem (by omega : i < h.edges.length), List.getElem?_eq_getElem hi,
      List.getElem?_eq_getElem hcount]
    have hlast : i + 1 = h.size ↔ i + 2 = h.edges.length := by
      unfold size
      omega
    simp [Bin.of, Bin.contains, hi, hlast]
  · rw [List.getElem?_eq_none (by omega : h.edges.length ≤ i + 1)]
    simp [hi]

theorem getElem_zero (h0 : 0 < h.edges.length) : h.edges[0] = h.first := by
  have hhead := hv.head?_edges
  rw [List.head?_eq_getElem?, List.getElem?_eq_getElem h0] at hhead
  exact Option.some.inj hhead

theorem getElem_last (hi : i + 1 = h.edges.length) : h.edges[i] = h.last := by
  have hlast := hv.getLast?_edges
  rw [List.getLast?_eq_getElem?, ← hi, Nat.add_sub_cancel, List.getElem?_eq_getElem (by omega)] at hlast
  exact Option.some.inj hlast

theorem find?_eq (x : α) : h.find? x =
    if h.first ≤ x && x ≤ h.last then
      if x == h.last then some (h.edges.length - 2)
      else some ((h.edges.takeWhile (· ≤ x)).length - 1)
    else none := by
  unfold find? locate
  rw [hv.head?_edges, hv.getLast?_edges]

variable [Ordered α]

theorem getElem_le (hij : i ≤ j) (hj : j < h.edges.length) : h.edges[i] ≤ h.edges[j] := by
  rcases Nat.lt_or_eq_of_le hij with hlt | rfl
  · exact (Ordered.lt_iff.mp (List.pairwise_iff_getElem.mp hv.rising i j (by omega) hj hlt)).1
  · exact Ordered.le_refl (Ordered.isNaN_of_isFinite
      (List.all_eq_true.mp hv.finite _ (List.getElem_mem hj)))

theorem first_le (hi : i < h.edges.length) : h.first ≤ h.edges[i] := by
  rw [← hv.getElem_zero (by omega)]
  exact hv.getElem_le (Nat.zero_le i) hi

theorem le_last (hi : i < h.edges.length) : h.edges[i] ≤ h.last := by
  rw [← hv.getElem_last (i := h.edges.length - 1) (by omega)]
  exact hv.getElem_le (by omega) (by omega)

theorem partitioned (x : α) :
    h.edges.Pairwise fun a b => decide (b ≤ x) = true → decide (a ≤ x) = true := by
  refine hv.rising.imp ?_
  intro a b hab hb
  exact decide_eq_true (Ordered.le_trans (Ordered.lt_iff.mp hab).1 (of_decide_eq_true hb))

theorem lt_reached_iff (hi : i < h.edges.length) :
    i < (h.edges.takeWhile (· ≤ x)).length ↔ h.edges[i] ≤ x := by
  rw [lt_length_takeWhile_iff (hv.partitioned x) hi, decide_eq_true_eq]

/-! ### The bin of a value -/

theorem find?_of_mem (hi : i + 1 < h.edges.length) (hleft : h.edges[i] ≤ x)
    (hright : x < h.edges[i + 1]) : h.find? x = some i := by
  have hreached := (hv.lt_reached_iff (by omega)).mpr hleft
  have hnot := mt (hv.lt_reached_iff hi).mp (Ordered.lt_iff.mp hright).2
  have hfirst := Ordered.le_trans (hv.first_le (i := i) (by omega)) hleft
  obtain ⟨hlast, hbelow⟩ := Ordered.lt_iff.mp (Scalar.lt_of_lt_of_le hright (hv.le_last hi))
  have hend : ¬(x == h.last) = true := fun heq => hbelow (Ordered.beq_iff.mp heq).2
  rw [hv.find?_eq, if_pos (by simp [hfirst, hlast]), if_neg hend]
  congr 1
  omega

theorem find?_of_last (hend : (x == h.last) = true) : h.find? x = some (h.edges.length - 2) := by
  have htwo := hv.two_le
  obtain ⟨hle, hge⟩ := Ordered.beq_iff.mp hend
  have hfirst := Ordered.le_trans (Ordered.le_trans (hv.first_le (i := 0) (by omega))
    (hv.le_last (i := 0) (by omega))) hge
  rw [hv.find?_eq, if_pos (by simp [hfirst, hle]), if_pos hend]

/-- Between the first edge and the last one, a value has an edge at or below it and the next above. -/
theorem exists_between (hfirst : h.first ≤ x) (hlast : x < h.last) :
    ∃ (i : ℕ) (hi : i + 1 < h.edges.length), h.edges[i] ≤ x ∧ x < h.edges[i + 1] := by
  have htwo := hv.two_le
  have hreached {j : ℕ} (hj : j < h.edges.length) := hv.lt_reached_iff (x := x) hj
  have hsome := (hreached (j := 0) (by omega)).mpr (by rwa [hv.getElem_zero])
  have hnotall := mt (hreached (j := h.edges.length - 1) (by omega)).mp
    (by rw [hv.getElem_last (by omega)]; exact (Ordered.lt_iff.mp hlast).2)
  generalize (h.edges.takeWhile (· ≤ x)).length = n at hreached hsome hnotall
  have hi : n - 1 + 1 < h.edges.length := by omega
  have habove : ¬h.edges[n - 1 + 1] ≤ x := mt (hreached hi).mpr (by omega)
  have hbelow : x ≤ h.edges[n - 1 + 1] := Scalar.le_of_not_le (Ordered.isNaN_of_le hfirst).2
    (Ordered.isNaN_of_le (hv.le_last hi)).1 habove
  exact ⟨n - 1, hi, (hreached (by omega)).mp (by omega), Ordered.lt_iff.mpr ⟨hbelow, habove⟩⟩

omit [Ordered α] in
theorem find?_eq_none_iff_not : h.find? x = none ↔ ¬(h.first ≤ x ∧ x ≤ h.last) := by
  rw [hv.find?_eq]
  by_cases hwithin : h.first ≤ x ∧ x ≤ h.last
  · rw [if_pos (by simp [hwithin])]
    split <;> simp [hwithin]
  · rw [if_neg (by simpa using hwithin)]
    simp [hwithin]

theorem find?_eq_none_iff :
    h.find? x = none ↔ Scalar.isNaN x = true ∨ x < h.first ∨ h.last < x := by
  have htwo := hv.two_le
  have hfirst := (Ordered.isNaN_of_le (hv.first_le (i := 0) (by omega))).1
  have hlast := (Ordered.isNaN_of_le (hv.le_last (i := 0) (by omega))).2
  rw [hv.find?_eq_none_iff_not]
  constructor
  · intro hnot
    by_cases hx : Scalar.isNaN x = true
    · exact .inl hx
    rw [Bool.not_eq_true] at hx
    by_contra hwithin
    rw [not_or, not_or] at hwithin
    exact hnot ⟨Scalar.le_of_not_lt hx hfirst hwithin.2.1, Scalar.le_of_not_lt hlast hx hwithin.2.2⟩
  · rintro (hnan | hlt | hgt) ⟨hleft, hright⟩
    · rw [(Ordered.isNaN_of_le hleft).2] at hnan
      cases hnan
    · exact Scalar.not_lt_of_le hleft hlt
    · exact Scalar.not_lt_of_le hright hgt

theorem find?_eq_some_iff : h.find? x = some i ↔ h.holds i x = true := by
  rw [hv.holds_iff]
  constructor
  · intro hfound
    have hwithin : h.first ≤ x ∧ x ≤ h.last := by
      by_contra hnot
      rw [hv.find?_eq, if_neg (by simpa using hnot)] at hfound
      cases hfound
    by_cases hend : (x == h.last) = true
    · have htwo := hv.two_le
      rw [hv.find?_of_last hend] at hfound
      cases hfound
      exact ⟨by omega, .inr ⟨by omega, hend⟩⟩
    · have hlt : x < h.last := Ordered.lt_iff.mpr
        ⟨hwithin.2, fun hle => hend (Ordered.beq_iff.mpr ⟨hwithin.2, hle⟩)⟩
      obtain ⟨j, hj, hmem⟩ := hv.exists_between hwithin.1 hlt
      rw [hv.find?_of_mem hj hmem.1 hmem.2] at hfound
      cases hfound
      exact ⟨hj, .inl hmem⟩
  · rintro ⟨hi, ⟨hleft, hright⟩ | ⟨hsize, hend⟩⟩
    · exact hv.find?_of_mem hi hleft hright
    · rw [hv.find?_of_last hend, ← hsize, Nat.add_sub_cancel]

/-- No index of the look-up lies outside the edges. -/
theorem locate?_eq (x : α) : locate? h.edges x = some (h.find? x) := by
  have htwo := hv.two_le
  have hfirst : h.edges[0]? = some h.first := by
    rw [← List.head?_eq_getElem?, hv.head?_edges]
  have hlast : h.edges[h.edges.length - 1]? = some h.last := by
    rw [← List.getLast?_eq_getElem?, hv.getLast?_edges]
  have hsearch := partitionPoint?_eq (hv.partitioned x)
  unfold locate?
  rw [hv.find?_eq, minus?_eq (by omega), hfirst]
  simp only [hlast, hsearch, Option.bind_eq_bind, Option.bind_some]
  split
  · next hwithin =>
    split
    · rw [minus?_eq (by omega), Nat.sub_sub]
      rfl
    · -- the first edge is not above the value, so the search does not stop before it
      rw [Bool.and_eq_true, decide_eq_true_eq] at hwithin
      have hsome := (hv.lt_reached_iff (x := x) (i := 0) (by omega)).mpr
        (by rw [hv.getElem_zero]; exact hwithin.1)
      rw [minus?_eq hsome]
      rfl
  · rfl

end IsValid

/-! ### Counts of a sample -/

section Tally

variable {bins : ℕ} {located : List ℕ}

theorem tally_bins_succ (bins : ℕ) (located : List ℕ) :
    tally (bins + 1) located = tally bins located ++ [located.count bins] := by
  unfold tally
  rw [List.range_succ, List.map_append, List.map_singleton]

theorem sumCounts_append (ns ms : List ℕ) :
    sumCounts (ns ++ ms) = sumCounts ns + sumCounts ms := by
  induction ns with
  | nil => simp
  | cons n ns ih =>
    rw [List.cons_append, sumCounts_cons, sumCounts_cons, ih]
    omega

theorem sumCounts_tally_cons (bins i : ℕ) (located : List ℕ) :
    sumCounts (tally bins (i :: located))
      = sumCounts (tally bins located) + if i < bins then 1 else 0 := by
  induction bins with
  | zero => rfl
  | succ bins ih =>
    rw [tally_bins_succ, tally_bins_succ, sumCounts_append, sumCounts_append, ih, List.count_cons]
    simp only [sumCounts_cons, sumCounts_nil, beq_iff_eq]
    split <;> split <;> split <;> omega

theorem sumCounts_tally_nil (bins : ℕ) : sumCounts (tally bins []) = 0 := by
  induction bins with
  | zero => rfl
  | succ bins ih =>
    rw [tally_bins_succ, sumCounts_append, ih]
    rfl

theorem sumCounts_tally (hlocated : ∀ i ∈ located, i < bins) :
    sumCounts (tally bins located) = located.length := by
  induction located with
  | nil => exact sumCounts_tally_nil bins
  | cons i located ih =>
    obtain ⟨hi, hrest⟩ := List.forall_mem_cons.mp hlocated
    rw [sumCounts_tally_cons, ih hrest, if_pos hi, List.length_cons]

theorem getElem?_tally (hi : i < bins) (located : List ℕ) :
    (tally bins located)[i]? = some (located.count i) := by
  unfold tally
  rw [List.getElem?_map, List.getElem?_range hi]
  rfl

end Tally

variable [Ordered α]

theorem ofSample_counts (hcheck : checkEdges edges = .ok ()) (xs : List α) :
    ∃ h, ofSample edges xs = .ok h ∧ h.edges = edges
      ∧ (∀ i < h.size, h.counts[i]? = some (xs.countP (h.holds i)))
      ∧ h.totalCount = xs.countP fun x => h.first ≤ x && x ≤ h.last := by
  set h : Histogram α := ⟨edges, tally (edges.length - 1) (xs.filterMap (locate edges))⟩ with hdef
  have ok : ofSample edges xs = .ok h := by
    unfold ofSample
    rw [hcheck]
    rfl
  have hv := (isValid_of_ofSample ok).1
  refine ⟨h, ok, rfl, ?_, ?_⟩
  · intro i hi
    rw [hdef, getElem?_tally (by simpa [size, hdef] using hi), List.count_filterMap]
    congr 1
    apply List.countP_congr
    intro x _
    rw [beq_iff_eq]
    exact hv.find?_eq_some_iff
  · have hlocated : ∀ i ∈ xs.filterMap (locate edges), i < edges.length - 1 := by
      intro i hi
      obtain ⟨x, _, hx⟩ := List.mem_filterMap.mp hi
      obtain ⟨hlt, _⟩ := hv.holds_iff.mp (hv.find?_eq_some_iff.mp hx)
      exact Nat.lt_sub_of_add_lt hlt
    rw [totalCount, hdef, sumCounts_tally hlocated, List.length_filterMap_eq_countP]
    apply List.countP_congr
    intro x _
    rw [Bool.and_eq_true, decide_eq_true_eq, decide_eq_true_eq, ← Option.ne_none_iff_isSome]
    exact not_iff_comm.mp hv.find?_eq_none_iff_not.symm

/-! ### Exactness -/

/-- The look-up of a value reads no index outside the edges, it gives the one bin that holds the
value, and it gives none exactly for what is no number or lies outside. -/
structure Finds (h : Histogram α) (x : α) : Prop where
  checked : locate? h.edges x = some (h.find? x)
  some_iff : ∀ i, h.find? x = some i ↔ h.holds i x = true
  unique : ∀ i j, h.holds i x = true → h.holds j x = true → i = j
  none_iff : h.find? x = none ↔ Scalar.isNaN x = true ∨ x < h.first ∨ h.last < x

theorem IsValid.finds (hv : h.IsValid) (x : α) : h.Finds x where
  checked := hv.locate?_eq x
  some_iff _ := hv.find?_eq_some_iff
  unique i j hi hj := by
    rw [← hv.find?_eq_some_iff] at hi hj
    exact Option.some.inj (hi.symm.trans hj)
  none_iff := hv.find?_eq_none_iff

/-- Wherever comparisons are a total preorder of the numbers, each value is found in the one bin that
holds it, and a histogram of a sample counts in each bin the values that it holds, and in all bins the
values between the first edge and the last. -/
theorem finds_and_ofSample_counts {α : Type} [Scalar α] [Ordered α] :
    (∀ h : Histogram α, h.IsValid → ∀ x, h.Finds x)
      ∧ ∀ edges : List α, checkEdges edges = .ok () → ∀ xs, ∃ h, ofSample edges xs = .ok h
        ∧ h.edges = edges ∧ (∀ i < h.size, h.counts[i]? = some (xs.countP (h.holds i)))
        ∧ h.totalCount = xs.countP fun x => h.first ≤ x && x ≤ h.last :=
  ⟨fun _ hv x => hv.finds x, fun _ hcheck xs => ofSample_counts hcheck xs⟩

/-- Edges around zero. -/
def aroundZero : List Float := [-1.0, 0.0, 2.0]

/-- Both zeros, both ends, a value outside and what is no number. -/
def awkward : List Float := [-0.0, 2.0, 0.0 / 0.0, 5.0, -1.0, 0.0]

/-- The two zeros are equal, so negative zero lies in the bin that begins at zero. -/
theorem awkward_found :
    ∃ h, ofSample aroundZero awkward = .ok h ∧ h.counts = [1, 3]
      ∧ h.counts[1]? = some (awkward.countP (h.holds 1)) ∧ h.totalCount = 4
      ∧ h.Finds (-0.0) ∧ h.find? (-0.0) = some 1 ∧ h.Finds (0.0 / 0.0) := by
  obtain ⟨hfinds, hcounts⟩ := finds_and_ofSample_counts (α := Float)
  have hcheck : checkEdges aroundZero = .ok () :=
    checkEdges_eq_ok_iff.mpr ⟨by decide, by decide +kernel, by decide +kernel⟩
  have hmade : (ofSample aroundZero awkward).toOption.map Histogram.counts = some [1, 3] := by
    decide +kernel
  obtain ⟨h, ok, hedges, hbins, -⟩ := hcounts aroundZero hcheck awkward
  rw [ok] at hmade
  have hcount : h.counts = [1, 3] := Option.some.inj hmade
  have hv := (isValid_of_ofSample ok).1
  refine ⟨h, ok, hcount, hbins 1 (by simp [size, hcount]), by simp [totalCount, hcount],
    hfinds h hv _, ?_, hfinds h hv _⟩
  rw [find?, hedges]
  decide +kernel

end Histogram

end BinGrade
