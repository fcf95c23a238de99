import BinGrade.Proofs.Search.Answer
import BinGrade.Proofs.Verdict.Acceptance

/-!
# A looser target

Two searches that differ in nothing but their targets go along the same graded candidates. What
reaches the stricter target reaches the looser one, so the search for the looser one stops at the
same candidate or before it, and fails only where the other one fails.
-/

namespace BinGrade

namespace Search

variable {strict loose : Tier} {graded trace trace' : List (Attempt Float)}

theorem meets_of_isAtLeast (hle : strict.isAtLeast loose = true) {v : Verdict Float}
    (h : v.meets strict = true) : v.meets loose = true :=
  Tier.isAtLeast_trans h hle

/-- Candidate by candidate, the trace for the looser target goes along with the other one until it
ends. -/
theorem UpToTarget.isPrefix (hle : strict.isAtLeast loose = true)
    (h : UpToTarget strict graded trace) (h' : UpToTarget loose graded trace') :
    trace' <+: trace := by
  induction h generalizing trace' with
  | nil =>
    cases h'
    exact List.prefix_refl []
  | @hit a rest ha =>
    cases h' with
    | hit _ => exact List.prefix_refl [a]
    | pass hmiss _ =>
      rw [meets_of_isAtLeast hle ha] at hmiss
      cases hmiss
  | @pass a rest trace hmiss more ih =>
    cases h' with
    | hit _ => exact (List.prefix_cons_inj a).mpr List.nil_prefix
    | pass _ more' => exact (List.prefix_cons_inj a).mpr (ih more')

/-- The result for a looser target beside that for a stricter one. -/
structure NoLater (q : SearchRequest Float) (loose strict : SearchResult Float) : Prop where
  trace : loose.trace <+: strict.trace
  met : strict.targetMet = true → loose.targetMet = true
  chosen : strict.targetMet = true →
    loose.chosen = strict.chosen ∨ q.Precedes loose.chosen strict.chosen
  bins : strict.targetMet = true → loose.chosen.bins ≤ strict.chosen.bins

theorem Answer.eq_error_iff {target : Tier}
    {outcome : Except (Error Float) (SearchResult Float)} (h : Answer target graded outcome)
    (fault : Error Float) :
    outcome = .error fault ↔ graded = [] ∧ fault = .invalidInput .nothingBuilt := by
  cases h with
  | nothing h => simp [h, eq_comm]
  | met h _ _ => simp [h]
  | missed h _ _ => simp [h]

/-- The chosen candidate of a search that reached its target is the last of its trace. -/
theorem Answer.exists_last_of_met {target : Tier} {res : SearchResult Float}
    (h : Answer target graded (.ok res)) (hmet : res.targetMet = true) :
    ∃ before a, res.trace = before ++ [a] ∧ res.chosen = a.binning
      ∧ a.verdict.meets target = true ∧ res.trace <+: graded := by
  generalize houtcome : (Except.ok res : Except (Error Float) (SearchResult Float)) = outcome at h
  cases h with
  | nothing h => cases houtcome
  | missed h _ _ =>
    cases houtcome
    cases hmet
  | @met before after a h hbefore ha =>
    cases houtcome
    refine ⟨before, a, rfl, rfl, ha, after, ?_⟩
    rw [h, List.append_assoc]
    rfl

/-- A search reaches its target if some graded candidate does. -/
theorem Answer.targetMet_of_mem {target : Tier} {res : SearchResult Float} {a : Attempt Float}
    (h : Answer target graded (.ok res)) (ha : a ∈ graded)
    (hmeets : a.verdict.meets target = true) : res.targetMet = true := by
  generalize houtcome : (Except.ok res : Except (Error Float) (SearchResult Float)) = outcome at h
  cases h with
  | nothing h => cases houtcome
  | met h _ _ =>
    cases houtcome
    rfl
  | missed _ hnone _ =>
    rw [hnone a ha] at hmeets
    cases hmeets

theorem Answer.noLater {q : SearchRequest Float} {res res' : SearchResult Float}
    (hle : strict.isAtLeast loose = true)
    (hpairs : graded.Pairwise fun a b => q.Precedes a.binning b.binning)
    (h : Answer strict graded (.ok res)) (h' : Answer loose graded (.ok res'))
    (hinitial : res'.trace <+: res.trace) : NoLater q res' res := by
  have hmet : res.targetMet = true → res'.targetMet = true := by
    intro hmet
    obtain ⟨before, a, htrace, _, ha, hgraded⟩ := h.exists_last_of_met hmet
    refine h'.targetMet_of_mem (hgraded.subset ?_) (meets_of_isAtLeast hle ha)
    simp [htrace]
  have hchosen : res.targetMet = true →
      res'.chosen = res.chosen ∨ q.Precedes res'.chosen res.chosen := by
    intro hres
    obtain ⟨before, a, htrace, hlast, _, hgraded⟩ := h.exists_last_of_met hres
    obtain ⟨before', a', htrace', hlast', _, _⟩ := h'.exists_last_of_met (hmet hres)
    have hmem : a' ∈ before ++ [a] := by
      rw [← htrace]
      refine hinitial.subset ?_
      simp [htrace']
    -- in the trace for the stricter target, its choice comes last
    have hbefore := (List.pairwise_append.mp (htrace ▸ hpairs.sublist hgraded.sublist)).2.2
    rw [hlast, hlast']
    rcases List.mem_append.mp hmem with hmem | hmem
    · exact .inr (hbefore a' hmem a (List.mem_singleton_self a))
    · exact .inl (congrArg Attempt.binning (List.mem_singleton.mp hmem))
  refine ⟨hinitial, hmet, hchosen, ?_⟩
  intro hres
  rcases hchosen hres with heq | hprecedes
  · rw [heq]
  · unfold SearchRequest.Precedes at hprecedes
    omega

/-- A search for a looser target fails where that for a stricter one does, and in the same way.
Otherwise its trace is an initial part of the other one, it reaches its target if the other one does,
and then its choice is the same or an earlier candidate, with no more bins. -/
theorem run_looser_noLater (e : Evaluator Float) (he : e.engine.Made)
    (make : Binning → List Float → Except (Error Float) (Histogram Float)) (xs : List Float)
    (q : SearchRequest Float) (reg : Registry Float) (strict loose : Tier)
    (hle : strict.isAtLeast loose = true) :
    (∀ fault, (run (.pure make) e xs { q with target := strict } reg).1 = .error fault
      ↔ (run (.pure make) e xs { q with target := loose } reg).1 = .error fault)
    ∧ ∀ res res', (run (.pure make) e xs { q with target := strict } reg).1 = .ok res →
      (run (.pure make) e xs { q with target := loose } reg).1 = .ok res' → NoLater q res' res := by
  cases hstart : start reg.tables e xs q with
  | error fault =>
    have hrun (t : Tier) : run (.pure make) e xs { q with target := t } reg = (.error fault, reg) :=
      run_of_start_error hstart
    rw [hrun strict, hrun loose]
    exact ⟨fun _ => Iff.rfl, fun res res' h => by cases h⟩
  | ok started =>
    obtain ⟨space, p, hspace, hp⟩ := exists_of_start_ok hstart
    obtain ⟨graded, hgraded⟩ := exists_buildable_graded make he hp
    obtain ⟨trace, hup, hrun⟩ := exists_upToTarget (r := { q with target := strict }) hspace hp hgraded
    obtain ⟨trace', hup', hrun'⟩ := exists_upToTarget (r := { q with target := loose }) hspace hp hgraded
    have hanswer := run_answer (r := { q with target := strict }) hspace hp hgraded
    have hanswer' := run_answer (r := { q with target := loose }) hspace hp hgraded
    refine ⟨?_, ?_⟩
    · intro fault
      rw [hanswer.eq_error_iff, hanswer'.eq_error_iff]
    · intro res res' hres hres'
      rw [hres] at hanswer hrun
      rw [hres'] at hanswer' hrun'
      refine hanswer.noLater hle (pairwise_precedes_graded hgraded) hanswer' ?_
      rw [(chosen_mem_of_conclude hrun.symm).1, (chosen_mem_of_conclude hrun'.symm).1]
      exact hup.isPrefix hle hup'

/-- A bin that misses the mean by four percent, or with another strategy one that hits it. -/
def skewedIfUniform (b : Binning) (_ : List Float) : Except (Error Float) (Histogram Float) :=
  if b.strategy = .uniform then .ok ⟨[4.5, 5.9], [1]⟩ else .ok ⟨[4.5, 5.5], [1]⟩

/-- One bin of two strategies for a sample that is taken for a normal one. -/
def twoWays : SearchRequest Float :=
  ⟨.good, [.uniform, .quantile], [1], { Request.plain with distribution := some .normal }⟩

theorem skewedIfUniform_noLater : ∃ res res',
    (run (.pure skewedIfUniform) .standard [5.0] { twoWays with target := .excellent }
        Evaluator.percents).1 = .ok res
      ∧ (run (.pure skewedIfUniform) .standard [5.0] { twoWays with target := .good }
        Evaluator.percents).1 = .ok res'
      ∧ res.targetMet = true ∧ res.trace.length = 2 ∧ res'.trace.length = 1
      ∧ NoLater twoWays res' res := by
  have hstrict : (run (.pure skewedIfUniform) .standard [5.0] { twoWays with target := .excellent }
      Evaluator.percents).1.toOption.map (fun res => (res.targetMet, res.trace.length))
        = some (true, 2) := by
    decide +kernel
  have hloose : (run (.pure skewedIfUniform) .standard [5.0] { twoWays with target := .good }
      Evaluator.percents).1.toOption.map (fun res => res.trace.length) = some 1 := by
    decide +kernel
  obtain ⟨res, hres, heq⟩ := Option.map_eq_some_iff.mp hstrict
  obtain ⟨res', hres', hlength'⟩ := Option.map_eq_some_iff.mp hloose
  obtain ⟨hmet, hlength⟩ := Prod.mk.inj heq
  have ok := eq_ok_of_toOption hres
  have ok' := eq_ok_of_toOption hres'
  refine ⟨res, res', ok, ok', hmet, hlength, hlength', ?_⟩
  exact (run_looser_noLater .standard .standard skewedIfUniform [5.0] twoWays Evaluator.percents
    .excellent .good rfl).2 res res' ok ok'

end Search

end BinGrade
