import BinGrade.Proofs.Shape.Detection
import BinGrade.Proofs.Weight.Usable

/-!
# When an evaluation is refused

The weights of a request are looked at first, then the sample. What is left to fail after that is the
label: where the request does not assume one, a sample that is large enough for its modes to be
counted must not be wider than finite numbers reach.
-/

namespace BinGrade

open Binary64

open Sample (Wide)

/-! ### Requests -/

/-- The weights that the request states, if any, are four finite numbers from zero on. -/
def Request.WellWeighted (q : Request Float) : Prop :=
  ∀ weights, q.weights = some weights →
    weights.length = 4 ∧ ∀ x ∈ weights, x.isFinite = true ∧ (0.0 : Float) ≤ x

theorem Weights.isUsable_iff_le {x : Float} :
    Weights.isUsable x = true ↔ x.isFinite = true ∧ (0.0 : Float) ≤ x := by
  rw [Weights.isUsable_iff]
  refine and_congr_right fun hfinite => ?_
  rw [le_iff rfl (isNaN_of_isFinite hfinite)]
  rfl

theorem Weights.exists_ofList_iff {xs : List Float} :
    (∃ w, Weights.ofList xs = .ok w ∧ w.checkComponents = .ok ())
      ↔ xs.length = 4 ∧ ∀ x ∈ xs, x.isFinite = true ∧ (0.0 : Float) ≤ x := by
  constructor
  · rintro ⟨w, hlist, hcheck⟩
    have husable := Weights.checkComponents_eq_ok_iff.mp hcheck
    match xs, hlist with
    | [a, b, c, d], hlist =>
      cases hlist
      refine ⟨rfl, ?_⟩
      intro x hx
      rw [← Weights.isUsable_iff_le]
      simp only [List.mem_cons, List.not_mem_nil, or_false] at hx
      rcases hx with rfl | rfl | rfl | rfl
      exacts [husable .mean, husable .variance, husable .skewness, husable .kurtosis]
  · rintro ⟨hlength, hmem⟩
    match xs, hlength with
    | [a, b, c, d], _ =>
      refine ⟨⟨a, b, c, d⟩, rfl, Weights.checkComponents_eq_ok_iff.mpr ?_⟩
      intro m
      rw [Weights.isUsable_iff_le]
      apply hmem
      cases m <;> simp [PerMoment.get]

theorem Request.check_eq_ok_iff {q : Request Float} : q.check = .ok () ↔ q.WellWeighted := by
  unfold check WellWeighted
  cases q.weights with
  | none => simp
  | some weights =>
    have hbind : (Weights.ofList weights >>= fun w => w.checkComponents) = .ok ()
        ↔ ∃ w, Weights.ofList weights = .ok w ∧ w.checkComponents = .ok () := by
      constructor
      · exact exists_of_bind_eq_ok
      · rintro ⟨w, hlist, hcheck⟩
        rw [hlist]
        exact hcheck
    simp only [hbind, Weights.exists_ofList_iff, Option.some.injEq, forall_eq']

/-! ### Evaluations -/

namespace Evaluator

variable {e : Evaluator Float} {r : Registry Float} {xs : List Float} {h : Histogram Float}
  {q : Request Float}

/-- The label has to be found, and the range of a sample large enough to count modes in overflows. -/
def Overflows (e : Evaluator Float) (xs : List Float) (q : Request Float) : Prop :=
  q.distribution = none ∧ e.classifier.modes.minSampleSize ≤ xs.length ∧ Wide xs

theorem evaluate_of_check_error {fault : ParameterFault Float} (hq : q.check = .error fault) :
    e.evaluate r xs h q = .error (.invalidParameter fault) := by
  unfold evaluate prepare
  simp only [hq, Except.mapError, bind, Except.bind]

theorem evaluate_of_not_finite (hq : q.check = .ok ()) (hfinite : Sample.allFinite xs = false) :
    e.evaluate r xs h q = .error (.computation (.notFinite "sample")) := by
  unfold evaluate prepare Sample.checkFinite
  simp only [hq, hfinite, Except.mapError, bind, Except.bind, Bool.false_eq_true, if_false]
  rfl

theorem evaluate_of_overflows (hq : q.check = .ok ()) (hfinite : Sample.allFinite xs = true)
    (hover : e.Overflows xs q) :
    e.evaluate r xs h q = .error (.invalidInput .edgesNotFinite) := by
  obtain ⟨hnone, hsize, hwide⟩ := hover
  unfold evaluate prepare labelOf Sample.checkFinite
  simp only [hq, hfinite, hnone, Except.mapError, bind, Except.bind, if_true,
    Classifier.label_eq_error hfinite hwide hsize]

theorem exists_evaluate (hengine : e.engine.Made) (hq : q.check = .ok ())
    (hfinite : Sample.allFinite xs = true) (hover : ¬e.Overflows xs q)
    (hbins : q.distribution = none → Modes.binsFor e.classifier.modes xs ≤ 2 ^ 50) :
    ∃ v, e.evaluate r xs h q = .ok v := by
  have hlabel : ∃ label, e.labelOf xs (.ofSample xs) q = .ok label := by
    unfold labelOf
    cases hd : q.distribution with
    | some d => exact ⟨_, rfl⟩
    | none =>
      refine Classifier.label_eq_ok hfinite ?_ (hbins hd)
      rintro ⟨hsize, hwide⟩
      exact hover ⟨hd, hsize, hwide⟩
  obtain ⟨label, hlabel⟩ := hlabel
  have hprepared : e.prepare r.tables xs q = .ok ⟨xs.length, .ofSample xs, label, r.tables⟩ := by
    unfold prepare Sample.checkFinite
    simp only [hq, hfinite, hlabel, Except.mapError, bind, Except.bind, if_true]
    rfl
  obtain ⟨v, hv⟩ := exists_evaluatePrepared hengine hprepared h
  unfold evaluate
  rw [hprepared]
  exact ⟨v, hv⟩

/-- An evaluation is refused for weights that are not four finite numbers from zero on, or else for a
sample that is not finite, or else for the range of a sample without an assumed label; and otherwise
it gives a verdict, unless modes are counted in more bins than any memory holds. -/
theorem evaluate_refuses_iff (hengine : e.engine.Made) (r : Registry Float) (xs : List Float)
    (h : Histogram Float) (q : Request Float)
    (hbins : q.distribution = none → Modes.binsFor e.classifier.modes xs ≤ 2 ^ 50) :
    ((∃ v, e.evaluate r xs h q = .ok v)
        ↔ q.WellWeighted ∧ Sample.allFinite xs = true ∧ ¬e.Overflows xs q)
      ∧ (¬q.WellWeighted → ∃ fault, e.evaluate r xs h q = .error (.invalidParameter fault))
      ∧ (q.WellWeighted → Sample.allFinite xs = false →
        e.evaluate r xs h q = .error (.computation (.notFinite "sample")))
      ∧ (q.WellWeighted → Sample.allFinite xs = true → e.Overflows xs q →
        e.evaluate r xs h q = .error (.invalidInput .edgesNotFinite)) := by
  have hweights : ¬q.WellWeighted → ∃ fault, e.evaluate r xs h q = .error (.invalidParameter fault) := by
    intro hq
    rw [← Request.check_eq_ok_iff] at hq
    cases hcheck : q.check with
    | ok u => exact absurd hcheck hq
    | error fault => exact ⟨fault, evaluate_of_check_error hcheck⟩
  simp only [← Request.check_eq_ok_iff] at hweights ⊢
  refine ⟨⟨?_, ?_⟩, hweights, evaluate_of_not_finite, evaluate_of_overflows⟩
  · rintro ⟨v, hv⟩
    have hq : q.check = .ok () := by
      by_contra hnot
      obtain ⟨fault, herror⟩ := hweights hnot
      rw [herror] at hv
      cases hv
    have hfinite : Sample.allFinite xs = true := by
      by_contra hnot
      rw [evaluate_of_not_finite hq (Bool.eq_false_iff.mpr hnot)] at hv
      cases hv
    refine ⟨hq, hfinite, ?_⟩
    intro hover
    rw [evaluate_of_overflows hq hfinite hover] at hv
    cases hv
  · rintro ⟨hq, hfinite, hover⟩
    exact exists_evaluate hengine hq hfinite hover hbins

/-- Thirty finite values at both ends of the range. -/
def extremes : List Float := List.replicate 15 (-1e308) ++ List.replicate 15 1e308

/-- With an assumed label the extremes have a verdict; with weights that are not usable no sample has
one, not even one that is not finite. -/
theorem extremes_assumed_graded :
    (∃ v, standard.evaluate .standard extremes ⟨[-1e308, 0.0, 1e308], [15, 15]⟩
        ⟨.general, some .multimodal, none, none, none⟩ = .ok v)
      ∧ ∃ fault, standard.evaluate .standard [1.0 / 0.0] ⟨[0.0, 1.0], [1]⟩
        ⟨.general, none, none, some [1.0, -1.0, 0.0, 0.0], none⟩
          = .error (.invalidParameter (α := Float) fault) := by
  have hbins (xs : List Float) : Modes.binsFor standard.classifier.modes xs ≤ 2 ^ 50 :=
    (Modes.binsFor_le _ xs).trans (by decide)
  have hrefuses := evaluate_refuses_iff (e := standard) .standard .standard
  obtain ⟨hassumed, _⟩ := hrefuses extremes ⟨[-1e308, 0.0, 1e308], [15, 15]⟩
    ⟨.general, some .multimodal, none, none, none⟩ fun _ => hbins _
  obtain ⟨_, hunusable, _⟩ := hrefuses [1.0 / 0.0] ⟨[0.0, 1.0], [1]⟩
    ⟨.general, none, none, some [1.0, -1.0, 0.0, 0.0], none⟩ fun _ => hbins _
  refine ⟨hassumed.mpr ⟨?_, by decide +kernel, ?_⟩, hunusable ?_⟩
  · intro weights hnone
    cases hnone
  · rintro ⟨hnone, _⟩
    cases hnone
  · intro hweighted
    obtain ⟨_, hmem⟩ := hweighted _ rfl
    exact absurd (hmem (-1.0) (by simp)).2 (by decide +kernel)

/-- The extremes are finite, and so large a sample that its modes are counted; its range overflows. -/
theorem extremes_refused :
    Sample.allFinite extremes = true
      ∧ standard.evaluate .standard extremes ⟨[-1e308, 0.0, 1e308], [15, 15]⟩ .plain
        = .error (.invalidInput .edgesNotFinite) := by
  have hfinite : Sample.allFinite extremes = true := by decide +kernel
  have hwide : Wide extremes := by decide +kernel
  exact ⟨hfinite, evaluate_of_overflows rfl hfinite ⟨rfl, by decide, hwide⟩⟩

end Evaluator

end BinGrade
