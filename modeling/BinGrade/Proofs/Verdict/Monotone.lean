import BinGrade.Proofs.Verdict.Acceptance

/-!
# Grading is monotone

Smaller errors, a larger sample and laxer thresholds give no worse tier, metric by metric and over
all. Nothing is asked of the thresholds themselves: they may be out of order, infinite or no numbers.
An error that is no number is the worst there is, and a ceiling that is no number the strictest.
-/

namespace BinGrade

open Scalar (Ordered)

/-! ### Comparing what a verdict is made of -/

namespace PerTier

variable {β γ : Type}

/-- The values of every tier are related. -/
structure Tierwise (R : β → γ → Prop) (p : PerTier β) (q : PerTier γ) : Prop where
  excellent : R p.excellent q.excellent
  good : R p.good q.good
  acceptable : R p.acceptable q.acceptable
  poor : R p.poor q.poor

theorem Tierwise.exists_get? {R : β → γ → Prop} {p : PerTier β} {q : PerTier γ}
    (h : p.Tierwise R q) {t : Tier} {b : β} (hb : p.get? t = some b) :
    ∃ c, q.get? t = some c ∧ R b c := by
  cases t with
  | excellent =>
    cases hb
    exact ⟨_, rfl, h.excellent⟩
  | good =>
    cases hb
    exact ⟨_, rfl, h.good⟩
  | acceptable =>
    cases hb
    exact ⟨_, rfl, h.acceptable⟩
  | poor =>
    cases hb
    exact ⟨_, rfl, h.poor⟩
  | unacceptable => cases hb

instance (R : β → γ → Prop) [∀ b c, Decidable (R b c)] (p : PerTier β) (q : PerTier γ) :
    Decidable (p.Tierwise R q) :=
  decidable_of_iff (R p.excellent q.excellent ∧ R p.good q.good ∧ R p.acceptable q.acceptable
      ∧ R p.poor q.poor)
    ⟨fun h => ⟨h.1, h.2.1, h.2.2.1, h.2.2.2⟩, fun h => ⟨h.1, h.2, h.3, h.4⟩⟩

end PerTier

section Relations

variable {α : Type} [Scalar α]

/-- A set is no laxer than another one: each ceiling is at most that of the other, or no number, and
each minimum at least that of the other. -/
structure ThresholdSet.Within (strict loose : ThresholdSet α) : Prop where
  moments : ∀ m, (strict.ceilings.moments.get m).Tierwise
    (fun a b => a ≤ b ∨ Scalar.isNaN a = true) (loose.ceilings.moments.get m)
  total : strict.ceilings.total.Tierwise
    (fun a b => a ≤ b ∨ Scalar.isNaN a = true) loose.ceilings.total
  sizes : strict.sizes.Tierwise (fun a b => b ≤ a) loose.sizes

/-- Each error of a comparison is at most that of another one, or the other one is no number. -/
structure Comparison.NoWorse (c c' : Comparison α) : Prop where
  moments : ∀ m, (c.components.get m).weighted ≤ (c'.components.get m).weighted
    ∨ Scalar.isNaN (c'.components.get m).weighted = true
  total : c.total ≤ c'.total ∨ Scalar.isNaN c'.total = true

theorem Comparison.NoWorse.refl [Ordered α] (c : Comparison α) : c.NoWorse c := by
  have hrefl (x : α) : x ≤ x ∨ Scalar.isNaN x = true := by
    cases hx : Scalar.isNaN x with
    | false => exact .inl (Ordered.le_refl hx)
    | true => exact .inr rfl
  exact ⟨fun m => hrefl _, hrefl _⟩

/-- Each tier of a verdict is as good as that of another one, or better. -/
structure Verdict.NoWorse (v w : Verdict α) : Prop where
  moments : ∀ m, ∃ s t, v.momentTiers m = some s ∧ w.momentTiers m = some t ∧ s.isAtLeast t = true
  total : v.totalTier.isAtLeast w.totalTier = true
  size : v.sizeTier.isAtLeast w.sizeTier = true
  overall : v.overallTier.isAtLeast w.overallTier = true

end Relations

/-! ### Tiers -/

namespace Ceilings

variable {α : Type} [Scalar α] [Ordered α]

theorem isAtLeast_tierFor {strict loose : Ceilings α} {x x' : α}
    (hset : strict.Tierwise (fun a b => a ≤ b ∨ Scalar.isNaN a = true) loose)
    (herror : x ≤ x' ∨ Scalar.isNaN x' = true) :
    (tierFor loose x).isAtLeast (tierFor strict x') = true := by
  apply PerTier.isAtLeast_firstTier_firstTier
  intro t ceiling hceiling hpass
  have hle : x' ≤ ceiling := of_decide_eq_true hpass
  -- both sides of a comparison that holds are numbers
  obtain ⟨hx', hnumber⟩ := Ordered.isNaN_of_le hle
  obtain ⟨ceiling', hceiling', hrelated⟩ := hset.exists_get? hceiling
  have hx : x ≤ x' := herror.resolve_right (by simp [hx'])
  have hmore : ceiling ≤ ceiling' := hrelated.resolve_right (by simp [hnumber])
  exact ⟨ceiling', hceiling', decide_eq_true (Ordered.le_trans hx (Ordered.le_trans hle hmore))⟩

end Ceilings

theorem SizeMinima.isAtLeast_tierFor {strict loose : SizeMinima} {n n' : Nat}
    (hset : strict.Tierwise (fun a b => b ≤ a) loose) (hsize : n' ≤ n) :
    (tierFor loose n).isAtLeast (tierFor strict n') = true := by
  apply PerTier.isAtLeast_firstTier_firstTier
  intro t least hleast hpass
  have hle : least ≤ n' := of_decide_eq_true hpass
  obtain ⟨least', hleast', hrelated⟩ := hset.exists_get? hleast
  exact ⟨least', hleast', decide_eq_true (hrelated.trans (hle.trans hsize))⟩

theorem Tier.isAtLeast_worstOf_worstOf {ss ts : List Tier}
    (h : List.Forall₂ (fun s t => s.isAtLeast t = true) ss ts) :
    (worstOf ss).isAtLeast (worstOf ts) = true := by
  have hself : ts.all (·.isAtLeast (worstOf ts)) = true := by
    rw [← isAtLeast_worstOf]
    exact isAtLeast_refl _
  rw [isAtLeast_worstOf]
  generalize worstOf ts = target at hself
  induction h with
  | nil => rfl
  | cons hst _ ih =>
    rw [List.all_cons, Bool.and_eq_true] at hself ⊢
    exact ⟨isAtLeast_trans hst hself.1, ih hself.2⟩

namespace Evaluator

theorem noWorse_grade {α : Type} [Scalar α] [Ordered α] {strict loose : ThresholdSet α}
    {c c' : Comparison α} {p p' : Prepared α} (hset : strict.Within loose) (herrors : c.NoWorse c')
    (hsize : p'.sampleSize ≤ p.sampleSize) (r r' : Request α) (m m' : Moments α) :
    (grade loose p r m c).NoWorse (grade strict p' r' m' c') := by
  have hmoment : ∀ k, (loose.momentTier k (c.components.get k).weighted).isAtLeast
      (strict.momentTier k (c'.components.get k).weighted) = true := fun k =>
    Ceilings.isAtLeast_tierFor (hset.moments k) (herrors.moments k)
  have htotal := Ceilings.isAtLeast_tierFor hset.total herrors.total
  have hsizes := SizeMinima.isAtLeast_tierFor hset.sizes hsize
  refine ⟨?_, htotal, hsizes, ?_⟩
  · intro k
    exact ⟨_, _, rfl, rfl, by simpa using hmoment k⟩
  · apply Tier.isAtLeast_worstOf_worstOf
    exact .cons (hmoment .mean) (.cons (hmoment .variance) (.cons (hmoment .skewness)
      (.cons (hmoment .kurtosis) (.cons htotal (.cons hsizes .nil)))))

end Evaluator

/-! ### Strictness -/

/-- How lax a strictness is, from the strictest on. -/
def Precision.laxity : Precision → Nat
  | .high => 0
  | .medium => 1
  | .low => 2
  | .minimal => 3

theorem ThresholdSet.within_builtinPrecision {strict loose : Precision}
    (h : strict.laxity ≤ loose.laxity) :
    (Tables.builtinPrecision strict : ThresholdSet Float).Within
      (Tables.builtinPrecision loose) := by
  cases strict <;> cases loose <;> first
    | exact absurd h (by decide)
    | exact ⟨fun m => by cases m <;> decide +kernel, by decide +kernel, by decide +kernel⟩

namespace Evaluator

variable {e : Evaluator Float} {xs : List Float} {h : Histogram Float}
  {q : Request Float} {v : Verdict Float}

/-- With the built-in tables, asking for less strictness is never refused where asking for more is
not, and gives no worse tier. -/
theorem exists_noWorse_of_laxity {strict loose : Precision} (hlax : strict.laxity ≤ loose.laxity)
    (hv : e.evaluate .standard xs h { q with precision := some strict } = .ok v) :
    ∃ w, e.evaluate .standard xs h { q with precision := some loose } = .ok w ∧ w.NoWorse v := by
  obtain ⟨p, c, hp, hc, rfl⟩ := evaluate_eq_ok_iff.mp hv
  obtain ⟨htables, _⟩ := tables_and_sampleSize_of_prepare hp
  -- strictness is looked at only when the thresholds are chosen
  refine ⟨_, evaluate_eq_ok_iff.mpr ⟨p, c, hp, hc, rfl⟩, ?_⟩
  rw [htables]
  exact noWorse_grade (ThresholdSet.within_builtinPrecision hlax) (.refl c) le_rfl _ _ _ _

/-- Laxer thresholds, smaller errors and a larger sample give no worse tiers. In particular, under
the built-in tables asking for less strictness never makes a verdict worse. -/
theorem noWorse_grade_and_precision :
    (∀ {strict loose : ThresholdSet Float} {c c' : Comparison Float} {p p' : Prepared Float},
      strict.Within loose → c.NoWorse c' → p'.sampleSize ≤ p.sampleSize →
        ∀ (r r' : Request Float) (m m' : Moments Float),
          (grade loose p r m c).NoWorse (grade strict p' r' m' c'))
      ∧ ∀ (e : Evaluator Float) (xs : List Float) (h : Histogram Float) (q : Request Float)
        {strict loose : Precision} {v : Verdict Float}, strict.laxity ≤ loose.laxity →
        e.evaluate .standard xs h { q with precision := some strict } = .ok v →
        ∃ w, e.evaluate .standard xs h { q with precision := some loose } = .ok w ∧ w.NoWorse v := by
  constructor
  · intro strict loose c c' p p' hset herrors hsize
    exact noWorse_grade hset herrors hsize
  · intro e xs h q strict loose v hlax hv
    exact exists_noWorse_of_laxity hlax hv

/-- Thresholds out of order, one of them no number. -/
def scrambled : ThresholdSet Float :=
  ⟨⟨.all ⟨0.0 / 0.0, 3.0, 1.0, 2.0⟩, ⟨0.0 / 0.0, 3.0, 1.0, 2.0⟩⟩, ⟨5, 50, 5, 500⟩⟩

/-- Laxer thresholds, out of order too, one of them infinite. -/
def relaxed : ThresholdSet Float :=
  ⟨⟨.all ⟨1.0, 4.0, 1.0, 1.0 / 0.0⟩, ⟨1.0, 4.0, 1.0, 1.0 / 0.0⟩⟩, ⟨5, 40, 5, 5⟩⟩

/-- The same error of every moment and in total. -/
def alike (x : Float) : Comparison Float := ⟨x, .all ⟨x, 1.0, x⟩⟩

/-- A sample of a given size. -/
def sized (n : Nat) : Prepared Float :=
  ⟨n, .ofSample [], .assumed .normal (.ofSample []), .builtin⟩

theorem relaxed_noWorse_scrambled :
    (grade relaxed (sized 60) .plain (.ofSample []) (alike 2.0)).NoWorse
        (grade scrambled (sized 50) .plain (.ofSample []) (alike (0.0 / 0.0)))
      ∧ ∃ v w, standard.evaluate .standard [5.0] ⟨[4.5, 5.9], [1]⟩
          ⟨.general, some .normal, some .high, none, none⟩ = .ok v
        ∧ standard.evaluate .standard [5.0] ⟨[4.5, 5.9], [1]⟩
          ⟨.general, some .normal, some .low, none, none⟩ = .ok w
        ∧ w.NoWorse v := by
  obtain ⟨hgrade, hprecision⟩ := noWorse_grade_and_precision
  constructor
  · have hset : scrambled.Within relaxed :=
      ⟨fun m => by cases m <;> decide +kernel, by decide +kernel, by decide +kernel⟩
    have herrors : (alike 2.0).NoWorse (alike (0.0 / 0.0)) :=
      ⟨fun m => by cases m <;> exact .inr (by decide +kernel), .inr (by decide +kernel)⟩
    exact hgrade hset herrors (by decide) _ _ _ _
  · have hmade : (standard.evaluate .standard [5.0] ⟨[4.5, 5.9], [1]⟩
        ⟨.general, some .normal, some .high, none, none⟩ : Except (Error Float) _).toBool = true := by
      decide +kernel
    have hlax : Precision.high.laxity ≤ Precision.low.laxity := by decide
    obtain ⟨v, hv⟩ := exists_ok_of_toBool hmade
    obtain ⟨w, hw, hle⟩ := hprecision standard [5.0] ⟨[4.5, 5.9], [1]⟩
      ⟨.general, some .normal, none, none, none⟩ hlax hv
    exact ⟨v, w, hv, hw, hle⟩

end Evaluator

end BinGrade
