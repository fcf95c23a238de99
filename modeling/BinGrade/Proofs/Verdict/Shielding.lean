import BinGrade.Proofs.Verdict.Acceptance

/-!
# What explicit options shield a verdict from

The label of a sample, the use, the objective and the weight engine enter an evaluation in two
places: where the weights are blended and where the thresholds are scaled. A request that states
weights and strictness passes both by. What is left of the label and of the use in its verdict is
only that they are reported.
-/

namespace BinGrade

namespace Evaluator

variable {e e' : Evaluator Float} {r r' : Registry Float} {xs : List Float} {h : Histogram Float}
  {q q' : Request Float} {v v' : Verdict Float} {weights : List Float} {level : Precision}

theorem exists_eq_of_prepare {t : Tables Float} {p : Prepared Float}
    (hp : e.prepare t xs q = .ok p) : ∃ label, p = ⟨xs.length, .ofSample xs, label, t⟩ := by
  obtain ⟨_, _, hp⟩ := exists_of_bind_eq_ok hp
  obtain ⟨_, _, hp⟩ := exists_of_bind_eq_ok hp
  obtain ⟨label, _, hp⟩ := exists_of_bind_eq_ok hp
  exact ⟨label, (Except.ok.inj hp).symm⟩

/-- With explicit weights and strictness, the label enters a verdict only where it is reported. -/
theorem exists_eq_grade_of_explicit (hweights : q.weights = some weights)
    (hlevel : q.precision = some level) (hv : e.evaluate r xs h q = .ok v) :
    ∃ c label, compareMoments (.ofSample xs) (e.estimator.estimate h) weights = .ok c
      ∧ v = grade (r.tables.precisions level) ⟨xs.length, .ofSample xs, label, r.tables⟩ q
        (e.estimator.estimate h) c := by
  obtain ⟨p, c, hp, hc, rfl⟩ := evaluate_eq_ok_iff.mp hv
  obtain ⟨label, rfl⟩ := exists_eq_of_prepare hp
  have hgiven : e.weightsFor label q = weights := by
    unfold weightsFor
    rw [hweights]
  rw [hgiven] at hc
  refine ⟨c, label, hc, ?_⟩
  rw [hlevel]
  rfl

/-- Two evaluations of a histogram against the same tables and with the same estimator, whose requests
state the same weights and the same strictness, differ at most in the label and in the use that they
report. -/
theorem evaluate_eq_of_explicit (hestimator : e.estimator = e'.estimator)
    (htables : r.tables = r'.tables) (hweights : q.weights = some weights)
    (hweights' : q'.weights = some weights) (hlevel : q.precision = some level)
    (hlevel' : q'.precision = some level) (hv : e.evaluate r xs h q = .ok v)
    (hv' : e'.evaluate r' xs h q' = .ok v') :
    v' = { v with label := v'.label, context := v'.context } := by
  obtain ⟨c, label, hc, rfl⟩ := exists_eq_grade_of_explicit hweights hlevel hv
  obtain ⟨c', label', hc', rfl⟩ := exists_eq_grade_of_explicit hweights' hlevel' hv'
  obtain rfl : c = c' := by
    rw [hestimator, hc'] at hc
    exact (Except.ok.inj hc).symm
  rw [← htables, ← hestimator]
  simp only [grade, hlevel, hlevel']

/-- An evaluator that finds modes in the smallest samples and weighs by its own tables only. -/
def opinionated : Evaluator Float :=
  ⟨⟨.standard, ModeConfig.sanitized ⟨0.0, 1.0, 0, 0, 0, 0⟩⟩, .ofInfluence .contextOnly, ⟨true⟩⟩

theorem opinionated_shielded :
    ∃ v v', standard.evaluate .standard [4.0, 6.0] ⟨[3.5, 5.5], [2]⟩
        ⟨.general, none, some .low, some [1.0, 1.0, 0.0, 2.0], none⟩ = .ok v
      ∧ opinionated.evaluate .standard [4.0, 6.0] ⟨[3.5, 5.5], [2]⟩
        ⟨.stability, some .multimodal, some .low, some [1.0, 1.0, 0.0, 2.0], some .tailRisk⟩
          = .ok v'
      ∧ v.context ≠ v'.context ∧ v.label.modeCount ≠ v'.label.modeCount
      ∧ v' = { v with label := v'.label, context := v'.context } := by
  have hfound : (standard.evaluate .standard [4.0, 6.0] ⟨[3.5, 5.5], [2]⟩
      ⟨.general, none, some .low, some [1.0, 1.0, 0.0, 2.0], none⟩).toOption.map
        (fun v => (v.context, v.label.modeCount)) = some (.general, some 1) := by
    decide +kernel
  have hassumed : (opinionated.evaluate .standard [4.0, 6.0] ⟨[3.5, 5.5], [2]⟩
      ⟨.stability, some .multimodal, some .low, some [1.0, 1.0, 0.0, 2.0], some .tailRisk⟩).toOption.map
        (fun v => (v.context, v.label.modeCount)) = some (.stability, none) := by
    decide +kernel
  obtain ⟨v, hv, heq⟩ := Option.map_eq_some_iff.mp hfound
  obtain ⟨v', hv', heq'⟩ := Option.map_eq_some_iff.mp hassumed
  obtain ⟨hcontext, hmodes⟩ := Prod.mk.inj heq
  obtain ⟨hcontext', hmodes'⟩ := Prod.mk.inj heq'
  have ok := eq_ok_of_toOption hv
  have ok' := eq_ok_of_toOption hv'
  refine ⟨v, v', ok, ok', by simp [hcontext, hcontext'], by simp [hmodes, hmodes'], ?_⟩
  exact evaluate_eq_of_explicit rfl rfl rfl rfl rfl rfl ok ok'

end Evaluator

end BinGrade
