import BinGrade.Search
import Mathlib.Data.Finset.Sort

/-!
# The order of a search

The candidates of a request, said without the steps that bring them into order: the numbers of bins
as a set listed upwards, and at each of them the strategies at the places where they first occur.
-/

namespace BinGrade

variable {α : Type}

section Lists

variable {β : Type} [DecidableEq β]

theorem filter_firstSeen (p : β → Bool) (bs : List β) :
    (firstSeen bs).filter p = firstSeen (bs.filter p) := by
  induction bs with
  | nil => rfl
  | cons b bs ih =>
    have hcomm : ((firstSeen bs).filter (· ≠ b)).filter p
        = (firstSeen (bs.filter p)).filter (· ≠ b) := by
      rw [← ih, List.filter_filter, List.filter_filter]
      congr 1
      funext c
      exact Bool.and_comm _ _
    cases hb : p b with
    | true =>
      rw [List.filter_cons_of_pos hb]
      simp only [firstSeen]
      rw [List.filter_cons_of_pos hb, hcomm]
    | false =>
      have hb' : ¬ p b = true := by simp [hb]
      rw [List.filter_cons_of_neg hb', ← ih]
      simp only [firstSeen]
      rw [List.filter_cons_of_neg hb', List.filter_filter]
      apply List.filter_congr
      intro c hc
      -- a member that passes the test is not the one that fails it
      by_cases hcb : c = b
      · simp [hcb, hb]
      · simp [hcb]

theorem firstSeen_eq_eraseDups (bs : List β) : firstSeen bs = bs.eraseDups := by
  generalize hn : bs.length = n
  induction n using Nat.strongRecOn generalizing bs with
  | _ n ih =>
    cases bs with
    | nil => rfl
    | cons b bs =>
      have hlen : (bs.filter (· ≠ b)).length < n := by
        have := List.length_filter_le (· ≠ b) bs
        simp only [List.length_cons] at hn
        omega
      rw [firstSeen, filter_firstSeen, ih _ hlen _ rfl, List.eraseDups_cons]
      congr 2
      apply List.filter_congr
      intro c _
      by_cases hcb : c = b <;> simp [hcb]

theorem pairwise_idxOf_firstSeen (bs : List β) :
    (firstSeen bs).Pairwise fun a b => bs.idxOf a < bs.idxOf b := by
  induction bs with
  | nil => exact List.Pairwise.nil
  | cons c bs ih =>
    have hshift : ∀ a, a ≠ c → (c :: bs).idxOf a = bs.idxOf a + 1 := by
      intro a ha
      exact List.idxOf_cons_ne _ (Ne.symm ha)
    simp only [firstSeen, List.pairwise_cons]
    refine ⟨?_, ?_⟩
    · intro b hb
      have hbc : b ≠ c := of_decide_eq_true (List.mem_filter.mp hb).2
      rw [List.idxOf_cons_self, hshift b hbc]
      omega
    · refine (ih.filter _).imp_of_mem ?_
      intro a b ha hb hab
      rw [hshift a (of_decide_eq_true (List.mem_filter.mp ha).2),
        hshift b (of_decide_eq_true (List.mem_filter.mp hb).2)]
      omega

end Lists

theorem pairwise_lt_dropRepeats {ns : List Nat} (h : ns.Pairwise (· ≤ ·)) :
    (dropRepeats ns).Pairwise (· < ·) := by
  fun_induction dropRepeats ns with
  | case1 b more ih => exact ih (List.pairwise_cons.mp h).2
  | case2 a b more hab ih =>
    obtain ⟨hhead, htail⟩ := List.pairwise_cons.mp h
    refine List.pairwise_cons.mpr ⟨?_, ih htail⟩
    intro c hc
    have hb : b ≤ c := by
      rcases List.mem_cons.mp (mem_dropRepeats.mp hc) with rfl | hc
      · exact Nat.le_refl c
      · exact (List.pairwise_cons.mp htail).1 c hc
    have ha : a ≤ b := hhead b (List.mem_cons_self ..)
    omega
  | case3 ns hshort =>
    cases ns with
    | nil => exact List.Pairwise.nil
    | cons a rest =>
      cases rest with
      | nil => exact List.pairwise_singleton _ a
      | cons b more => exact absurd rfl (hshort a b more)

theorem dropRepeats_mergeSort (ns : List Nat) :
    dropRepeats (ns.mergeSort (· ≤ ·)) = ns.toFinset.sort (· ≤ ·) := by
  have hsorted : (ns.mergeSort (· ≤ ·)).Pairwise (· ≤ ·) := by
    have h : (ns.mergeSort (· ≤ ·)).Pairwise fun a b => decide (a ≤ b) = true :=
      List.pairwise_mergeSort
        (fun a b c hab hbc => by simp only [decide_eq_true_eq] at *; omega)
        (fun a b => by simp only [Bool.or_eq_true, decide_eq_true_eq]; omega) ns
    exact h.imp of_decide_eq_true
  have hlt := pairwise_lt_dropRepeats hsorted
  have hmem : ∀ n, n ∈ dropRepeats (ns.mergeSort (· ≤ ·)) ↔ n ∈ ns.toFinset := by
    intro n
    rw [mem_dropRepeats, (List.mergeSort_perm ns _).mem_iff, List.mem_toFinset]
  have hset : (dropRepeats (ns.mergeSort (· ≤ ·))).toFinset = ns.toFinset := by
    ext n
    rw [List.mem_toFinset]
    exact hmem n
  have hnodup : (dropRepeats (ns.mergeSort (· ≤ ·))).Nodup := hlt.imp (fun h => Nat.ne_of_lt h)
  rw [← hset]
  exact ((List.toFinset_sort (· ≤ ·) hnodup).mpr (hlt.imp Nat.le_of_lt)).symm

namespace SearchRequest

/-- The candidates of a request as a search goes through them. -/
def order (r : SearchRequest α) : List Binning :=
  (r.binCounts.toFinset.sort (· ≤ ·)).flatMap fun n =>
    r.strategies.eraseDups.map fun s => ⟨s, n⟩

theorem candidates_of_space_eq_ok {r : SearchRequest α} {strategies : List Strategy}
    {binCounts : List Nat} (h : r.space = .ok (strategies, binCounts)) :
    candidates strategies binCounts = r.order := by
  unfold space at h
  split at h
  · cases h
  split at h
  · cases h
  split at h
  · cases h
  cases h
  rw [dropRepeats_mergeSort, firstSeen_eq_eraseDups]
  rfl

theorem mem_order {r : SearchRequest α} {b : Binning} :
    b ∈ r.order ↔ b.strategy ∈ r.strategies ∧ b.bins ∈ r.binCounts := by
  unfold order
  rw [← firstSeen_eq_eraseDups]
  simp only [List.mem_flatMap, List.mem_map, Finset.mem_sort, List.mem_toFinset, mem_firstSeen]
  constructor
  · rintro ⟨n, hn, s, hs, rfl⟩
    exact ⟨hs, hn⟩
  · rintro ⟨hs, hn⟩
    exact ⟨b.bins, hn, b.strategy, hs, rfl⟩

/-- A candidate comes before another: it has fewer bins, or as many and an earlier strategy. -/
def Precedes (r : SearchRequest α) (b c : Binning) : Prop :=
  b.bins < c.bins
    ∨ b.bins = c.bins ∧ r.strategies.idxOf b.strategy < r.strategies.idxOf c.strategy

theorem Precedes.asymm {r : SearchRequest α} {b c : Binning} (h : r.Precedes b c) :
    ¬r.Precedes c b := by
  unfold Precedes at h ⊢
  omega

theorem pairwise_precedes_order (r : SearchRequest α) : r.order.Pairwise r.Precedes := by
  unfold order
  rw [List.pairwise_flatMap]
  refine ⟨?_, ?_⟩
  · intro n _
    rw [List.pairwise_map, ← firstSeen_eq_eraseDups]
    exact (pairwise_idxOf_firstSeen r.strategies).imp fun h => .inr ⟨rfl, h⟩
  · refine (Finset.sortedLT_sort r.binCounts.toFinset).pairwise.imp ?_
    intro n k hnk b hb c hc
    obtain ⟨s, _, rfl⟩ := List.mem_map.mp hb
    obtain ⟨t, _, rfl⟩ := List.mem_map.mp hc
    exact .inl hnk

end SearchRequest

end BinGrade
