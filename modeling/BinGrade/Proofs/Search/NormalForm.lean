import BinGrade.Proofs.Search.Snapshot

/-!
# The normal form of a search

The space of a request lists its numbers of bins upwards and its strategies in the order in which
they first occur, each of them once. Requests that agree on the numbers of bins and on that order have
the same space, however their lists are written, so they ask for the same search, and a search tries
no candidate twice.
-/

namespace BinGrade

variable {σ α : Type}

/-- Lists with the same members in the same order of first occurrence list them alike. -/
theorem firstSeen_congr {β : Type} [DecidableEq β] {bs cs : List β} (hmem : ∀ b, b ∈ bs ↔ b ∈ cs)
    (horder : ∀ a ∈ bs, ∀ b ∈ bs, bs.idxOf a < bs.idxOf b ↔ cs.idxOf a < cs.idxOf b) :
    firstSeen bs = firstSeen cs := by
  have hsame : ∀ b, b ∈ firstSeen bs ↔ b ∈ firstSeen cs := by
    intro b
    rw [mem_firstSeen, mem_firstSeen]
    exact hmem b
  have hperm : (firstSeen bs).Perm (firstSeen cs) :=
    (List.perm_ext_iff_of_nodup (nodup_firstSeen bs) (nodup_firstSeen cs)).mpr hsame
  -- both are ascending in the places that their members have in the second list
  have hleft : (firstSeen bs).Pairwise fun a b => cs.idxOf a < cs.idxOf b := by
    refine (pairwise_idxOf_firstSeen bs).imp_of_mem ?_
    intro a b ha hb hab
    exact (horder a (mem_firstSeen.mp ha) b (mem_firstSeen.mp hb)).mp hab
  refine hperm.eq_of_pairwise ?_ hleft (pairwise_idxOf_firstSeen cs)
  intro a b _ _ hab hba
  exact absurd hab (Nat.lt_asymm hba)

theorem isEmpty_congr {β : Type} {bs cs : List β} (hmem : ∀ b, b ∈ bs ↔ b ∈ cs) :
    bs.isEmpty = cs.isEmpty := by
  rw [Bool.eq_iff_iff, List.isEmpty_iff, List.isEmpty_iff, List.eq_nil_iff_forall_not_mem,
    List.eq_nil_iff_forall_not_mem]
  exact forall_congr' fun b => not_congr (hmem b)

namespace SearchRequest

/-- Lists of strategies and numbers of bins that hold what a request asks for, each once and in
order. -/
structure NormalForm (q : SearchRequest α) (strategies : List Strategy) (binCounts : List Nat) :
    Prop where
  ascending : binCounts.Pairwise (· < ·)
  mem_binCounts : ∀ n, n ∈ binCounts ↔ n ∈ q.binCounts
  nodup : strategies.Nodup
  mem_strategies : ∀ s, s ∈ strategies ↔ s ∈ q.strategies
  firstOccurrence : strategies.Pairwise fun s t => q.strategies.idxOf s < q.strategies.idxOf t

/-- Requests that differ at most in how their lists are written: numbers of bins in another order or
repeated, strategies repeated after their first occurrence. -/
structure Alike (q q' : SearchRequest α) : Prop where
  target : q.target = q'.target
  evaluation : q.evaluation = q'.evaluation
  binCounts : ∀ n, n ∈ q.binCounts ↔ n ∈ q'.binCounts
  strategies : ∀ s, s ∈ q.strategies ↔ s ∈ q'.strategies
  firstOccurrence : ∀ s ∈ q.strategies, ∀ t ∈ q.strategies,
    q.strategies.idxOf s < q.strategies.idxOf t ↔ q'.strategies.idxOf s < q'.strategies.idxOf t

theorem exists_normalForm {q : SearchRequest α} (hstrategies : q.strategies ≠ [])
    (hbinCounts : q.binCounts ≠ []) (hzero : 0 ∉ q.binCounts) :
    ∃ strategies binCounts, q.space = .ok (strategies, binCounts)
      ∧ q.NormalForm strategies binCounts := by
  refine ⟨firstSeen q.strategies, dropRepeats (q.binCounts.mergeSort (· ≤ ·)), ?_, ?_⟩
  · unfold space
    rw [if_neg (by simpa using hstrategies), if_neg (by simpa using hbinCounts),
      if_neg (by simpa using hzero)]
  · refine ⟨?_, ?_, nodup_firstSeen _, fun s => mem_firstSeen, pairwise_idxOf_firstSeen _⟩
    · rw [dropRepeats_mergeSort]
      exact (Finset.sortedLT_sort _).pairwise
    · intro n
      rw [mem_dropRepeats, (List.mergeSort_perm q.binCounts _).mem_iff]

theorem Alike.space_eq {q q' : SearchRequest α} (h : q.Alike q') : q.space = q'.space := by
  have hcontains : q.binCounts.contains 0 = q'.binCounts.contains 0 := by
    rw [Bool.eq_iff_iff, List.contains_iff_mem, List.contains_iff_mem]
    exact h.binCounts 0
  have hset : q.binCounts.toFinset = q'.binCounts.toFinset := by
    ext n
    rw [List.mem_toFinset, List.mem_toFinset]
    exact h.binCounts n
  unfold space
  rw [isEmpty_congr h.strategies, isEmpty_congr h.binCounts, hcontains, dropRepeats_mergeSort,
    dropRepeats_mergeSort, hset, firstSeen_congr h.strategies h.firstOccurrence]

end SearchRequest

namespace Search

variable [Scalar α] {w : Workshop σ α} {e : Evaluator α} {xs : List α} {q q' : SearchRequest α}

theorem start_congr (h : q.Alike q') (tables : Tables α) :
    start tables e xs q = start tables e xs q' := by
  unfold start
  rw [h.space_eq, h.evaluation]

theorem attempts_congr (h : q.Alike q') (p : Prepared α) (bs : List Binning) (s : σ) :
    attempts w e p xs q bs s = attempts w e p xs q' bs s := by
  induction bs generalizing s with
  | nil => rfl
  | cons b bs ih => simp only [attempts, h.target, h.evaluation, ih]

theorem run_congr (h : q.Alike q') (s : σ) : run w e xs q s = run w e xs q' s := by
  unfold run
  rw [start_congr h, h.target]
  simp only [attempts_congr h]

/-- A trace goes through the order of the search and leaves candidates out, but takes none twice. -/
theorem nodup_trace {s : σ} {res : SearchResult α} (h : (run w e xs q s).1 = .ok res) :
    (res.trace.map (·.binning)).Nodup := by
  obtain ⟨calls, _, hcalls, hgrades⟩ := grades_calls_of_run (Prod.ext h rfl)
  have hsub : (res.trace.map (·.binning)).Sublist q.order := by
    rw [map_binning_of_grades (hgrades _ rfl)]
    exact (map_fst_built_sublist calls).trans hcalls.sublist
  refine (q.pairwise_precedes_order.sublist hsub).imp ?_
  rintro b c hbc rfl
  exact hbc.asymm hbc

/-- A request that is not refused has its space in normal form. Requests that are alike give the same
result, whatever makes the histograms, and no candidate is tried twice. -/
theorem space_normalForm_and_run_eq (q : SearchRequest α) (e : Evaluator α) (xs : List α) :
    (q.strategies ≠ [] → q.binCounts ≠ [] → 0 ∉ q.binCounts →
      ∃ strategies binCounts, q.space = .ok (strategies, binCounts)
        ∧ q.NormalForm strategies binCounts)
    ∧ ∀ (σ : Type) (w : Workshop σ α) (s : σ),
      (∀ q', q.Alike q' → run w e xs q s = run w e xs q' s)
        ∧ ∀ res, (run w e xs q s).1 = .ok res → (res.trace.map (·.binning)).Nodup := by
  refine ⟨SearchRequest.exists_normalForm, ?_⟩
  intro σ w s
  exact ⟨fun q' h => run_congr h s, fun res h => nodup_trace h⟩

def repeatedStrategy : SearchRequest Float :=
  ⟨.good, [.quantile, .uniform, .quantile], [1], .plain⟩

def repeatedCount : SearchRequest Float := ⟨.good, [.quantile, .uniform], [1, 1], .plain⟩

theorem repeatedStrategy_alike_repeatedCount : repeatedStrategy.Alike repeatedCount where
  target := rfl
  evaluation := rfl
  binCounts n := by simp [repeatedStrategy, repeatedCount]
  strategies s := by cases s <;> decide
  firstOccurrence s _ t _ := by cases s <;> cases t <;> decide

theorem repeatedStrategy_run_eq : ∃ strategies binCounts res,
    repeatedStrategy.space = .ok (strategies, binCounts)
      ∧ repeatedStrategy.NormalForm strategies binCounts
      ∧ (run .standard .standard [5.0] repeatedStrategy .standard).1 = .ok res
      ∧ (run .standard .standard [5.0] repeatedCount .standard).1 = .ok res
      ∧ res.trace.length = 2 ∧ (res.trace.map (·.binning)).Nodup := by
  obtain ⟨hspace, hruns⟩ := space_normalForm_and_run_eq repeatedStrategy .standard [5.0]
  obtain ⟨hsame, hnodup⟩ := hruns _ .standard .standard
  obtain ⟨strategies, binCounts, hspace, hnormal⟩ := hspace (by decide) (by decide) (by decide)
  have hrun : (run .standard .standard [5.0] repeatedStrategy .standard).1.toOption.map
      (fun res => res.trace.length) = some 2 := by
    decide +kernel
  obtain ⟨res, hres, hlength⟩ := Option.map_eq_some_iff.mp hrun
  have ok := eq_ok_of_toOption hres
  refine ⟨strategies, binCounts, res, hspace, hnormal, ok, ?_, hlength, hnodup res ok⟩
  rw [← hsame repeatedCount repeatedStrategy_alike_repeatedCount]
  exact ok

end Search

end BinGrade
