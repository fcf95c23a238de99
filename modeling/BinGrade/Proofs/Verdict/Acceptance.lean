import BinGrade.Proofs.Threshold.Resolved
import BinGrade.Verdict.Evaluate

/-!
# When a verdict meets a tier

A verdict gives each metric the best tier that it reaches and all metrics together the worst of
these. Since thresholds that a registry gives are in order, that amounts to one bound for each
metric: a verdict meets a tier if and only if no metric is beyond the bound of just that tier.
-/

namespace BinGrade

open Binary64

open Scalar (Ordered)

theorem Ceilings.isAtLeast_tierFor_iff {c : Ceilings Float} (hc : c.Steps (· ≤ ·)) (x : Float)
    {t : Tier} (ht : t ∈ Tier.bounded) :
    (tierFor c x).isAtLeast t = true ↔ ∃ ceiling, c.get? t = some ceiling ∧ x ≤ ceiling := by
  have hkept : c.Steps fun a b => decide (x ≤ a) = true → decide (x ≤ b) = true := by
    refine hc.imp ?_
    intro a b hab hxa
    exact decide_eq_true (Ordered.le_trans (of_decide_eq_true hxa) hab)
  obtain ⟨ceiling, hceiling⟩ := c.exists_get?_of_mem_bounded ht
  rw [tierFor, hkept.isAtLeast_firstTier_iff hceiling, decide_eq_true_eq, hceiling]
  simp

theorem SizeMinima.isAtLeast_tierFor_iff {s : SizeMinima} (hs : s.Steps fun a b => b ≤ a) (n : Nat)
    {t : Tier} (ht : t ∈ Tier.bounded) :
    (tierFor s n).isAtLeast t = true ↔ ∃ least, s.get? t = some least ∧ least ≤ n := by
  have hkept : s.Steps fun a b => decide (a ≤ n) = true → decide (b ≤ n) = true := by
    refine hs.imp ?_
    intro a b hba han
    exact decide_eq_true (hba.trans (of_decide_eq_true han))
  obtain ⟨least, hleast⟩ := s.exists_get?_of_mem_bounded ht
  rw [tierFor, hkept.isAtLeast_firstTier_iff hleast, decide_eq_true_eq, hleast]
  simp

/-- Every metric of a verdict keeps to the bound of a tier. -/
structure Verdict.Within (v : Verdict Float) (s : ThresholdSet Float) (n : Nat) (t : Tier) :
    Prop where
  moments : ∀ m, ∃ component ceiling, v.components m = some component
    ∧ (s.ceilings.moments.get m).get? t = some ceiling ∧ component.weighted ≤ ceiling
  total : ∃ ceiling, s.ceilings.total.get? t = some ceiling ∧ v.totalError ≤ ceiling
  size : ∃ least, s.sizes.get? t = some least ∧ least ≤ n

theorem Verdict.Within.isNaN_eq_false {v : Verdict Float} {s : ThresholdSet Float} {n : Nat}
    {t : Tier} (hv : v.Within s n t) : v.totalError.isNaN = false
      ∧ ∀ m component, v.components m = some component → component.weighted.isNaN = false := by
  obtain ⟨ceiling, _, hle⟩ := hv.total
  refine ⟨(isNaN_of_le hle).1, ?_⟩
  intro m component hcomponent
  obtain ⟨component', ceiling', hcomponent', _, hle'⟩ := hv.moments m
  rw [hcomponent] at hcomponent'
  cases hcomponent'
  exact (isNaN_of_le hle').1

namespace Evaluator

variable {e : Evaluator Float} {r : Registry Float} {xs : List Float} {h : Histogram Float}
  {q : Request Float} {v : Verdict Float}

/-- All that an evaluation does: the sample is prepared, its moments are compared with those of the
histogram, and the comparison is graded. -/
theorem evaluate_eq_ok_iff : e.evaluate r xs h q = .ok v ↔ ∃ p c, e.prepare r.tables xs q = .ok p
    ∧ compareMoments p.moments (e.estimator.estimate h) (e.weightsFor p.label q) = .ok c
    ∧ v = grade (p.tables.resolve p.label.distribution q.context q.precision) p q
      (e.estimator.estimate h) c := by
  constructor
  · intro hv
    obtain ⟨p, hp, hv⟩ := exists_of_bind_eq_ok hv
    obtain ⟨c, hc, hv⟩ := exists_of_bind_eq_ok hv
    exact ⟨p, c, hp, eq_ok_of_mapError_eq_ok hc, (Except.ok.inj hv).symm⟩
  · rintro ⟨p, c, hp, hc, rfl⟩
    unfold evaluate evaluatePrepared
    rw [hp]
    dsimp only [bind, Except.bind]
    rw [hc]
    rfl

theorem tables_and_sampleSize_of_prepare {t : Tables Float} {p : Prepared Float}
    (hp : e.prepare t xs q = .ok p) : p.tables = t ∧ p.sampleSize = xs.length := by
  obtain ⟨_, _, hp⟩ := exists_of_bind_eq_ok hp
  obtain ⟨_, _, hp⟩ := exists_of_bind_eq_ok hp
  obtain ⟨label, _, hp⟩ := exists_of_bind_eq_ok hp
  cases hp
  exact ⟨rfl, rfl⟩

theorem meets_grade_iff {s : ThresholdSet Float} (hs : s.Rising) (p : Prepared Float)
    (m : Moments Float) (c : Comparison Float) {t : Tier} (ht : t ∈ Tier.bounded) :
    (grade s p q m c).meets t = true ↔ (grade s p q m c).Within s p.sampleSize t := by
  have hmoment (k : Moment) : (s.momentTier k (c.components.get k).weighted).isAtLeast t = true
      ↔ ∃ ceiling, (s.ceilings.moments.get k).get? t = some ceiling
        ∧ (c.components.get k).weighted ≤ ceiling :=
    Ceilings.isAtLeast_tierFor_iff (hs.moments k).steps _ ht
  have htotal : (s.totalTier c.total).isAtLeast t = true
      ↔ ∃ ceiling, s.ceilings.total.get? t = some ceiling ∧ c.total ≤ ceiling :=
    Ceilings.isAtLeast_tierFor_iff hs.total.steps _ ht
  have hsize : (s.sizeTier p.sampleSize).isAtLeast t = true
      ↔ ∃ least, s.sizes.get? t = some least ∧ least ≤ p.sampleSize :=
    SizeMinima.isAtLeast_tierFor_iff hs.sizes _ ht
  have hworst : (grade s p q m c).meets t = true
      ↔ (∀ k, (s.momentTier k (c.components.get k).weighted).isAtLeast t = true)
        ∧ (s.totalTier c.total).isAtLeast t = true
        ∧ (s.sizeTier p.sampleSize).isAtLeast t = true := by
    unfold Verdict.meets grade
    rw [Tier.isAtLeast_worstOf, Moment.forall_iff]
    simp [PerMoment.of, PerMoment.toList, and_assoc]
  rw [hworst, htotal, hsize]
  constructor
  · rintro ⟨hmoments, htotal, hsize⟩
    refine ⟨?_, htotal, hsize⟩
    intro k
    obtain ⟨ceiling, hceiling, hle⟩ := (hmoment k).mp (hmoments k)
    exact ⟨_, ceiling, rfl, hceiling, hle⟩
  · rintro ⟨hmoments, htotal, hsize⟩
    refine ⟨?_, htotal, hsize⟩
    intro k
    obtain ⟨component, ceiling, hcomponent, hceiling, hle⟩ := hmoments k
    cases hcomponent
    exact (hmoment k).mpr ⟨ceiling, hceiling, hle⟩

/-- Under a registry to which anything may have been done, a verdict meets a bounded tier if and only
if each weighted error and the total are at most the ceiling of that tier and the sample is as large
as its minimum. With an error that is no number it meets none. -/
theorem meets_iff_within [Json.NumberReader] (hr : r.Initial) (ops : List Registry.Operation)
    (hv : e.evaluate (r.run ops) xs h q = .ok v) {t : Tier} (ht : t ∈ Tier.bounded) :
    (v.meets t = true ↔ v.Within
        ((r.run ops).tables.resolve v.label.distribution v.context v.precision) xs.length t)
      ∧ (v.totalError.isNaN = true ∨ (∃ m component, v.components m = some component
        ∧ component.weighted.isNaN = true) → v.meets t = false) := by
  obtain ⟨p, c, hp, _, rfl⟩ := evaluate_eq_ok_iff.mp hv
  obtain ⟨htables, hsize⟩ := tables_and_sampleSize_of_prepare hp
  have hrising := Tables.rising_resolve (Registry.check_run hr.check ops) p.label.distribution
    q.context q.precision
  rw [htables] at hv ⊢
  have hmeets := meets_grade_iff (q := q) hrising p (e.estimator.estimate h) c ht
  rw [hsize] at hmeets
  refine ⟨hmeets, ?_⟩
  intro hnan
  rw [← Bool.not_eq_true, hmeets]
  intro hwithin
  obtain ⟨htotal, hmoments⟩ := hwithin.isNaN_eq_false
  rcases hnan with hnan | ⟨m, component, hcomponent, hnan⟩
  · rw [htotal] at hnan
    cases hnan
  · rw [hmoments m component hcomponent] at hnan
    cases hnan

/-- A registry that grades normal samples of any size by ceilings of one to four percent. -/
def percents : Registry Float :=
  Registry.standard.run [.update (.distribution .normal)
    (.thresholds ⟨⟨.all ⟨1.0, 2.0, 3.0, 4.0⟩, ⟨1.0, 2.0, 3.0, 4.0⟩⟩, ⟨1, 1, 1, 1⟩⟩)]

theorem percents_meets_good :
    ∃ v, standard.evaluate percents [5.0] ⟨[4.5, 5.9], [1]⟩ { Request.plain with
        distribution := some .normal } = .ok v
      ∧ v.meets .excellent = false ∧ v.meets .good = true
      ∧ v.Within (percents.tables.resolve v.label.distribution v.context v.precision) 1 .good := by
  have hgraded : (standard.evaluate percents [5.0] ⟨[4.5, 5.9], [1]⟩ { Request.plain with
      distribution := some .normal }).toOption.map (fun v => (v.meets .excellent, v.meets .good))
        = some (false, true) := by
    decide +kernel
  obtain ⟨v, hv, htiers⟩ := Option.map_eq_some_iff.mp hgraded
  obtain ⟨hexcellent, hgood⟩ := Prod.mk.inj htiers
  have ok := eq_ok_of_toOption hv
  exact ⟨v, ok, hexcellent, hgood, (meets_iff_within .standard _ ok (by decide)).1.mp hgood⟩

end Evaluator

end BinGrade
