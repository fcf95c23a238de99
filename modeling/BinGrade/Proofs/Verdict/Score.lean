import BinGrade.Proofs.Binary64.Arithmetic
import BinGrade.Verdict.Evaluate

/-!
# Scores are numbers

A score is computed from a total error that may be infinite or no number at all. The score itself is
always a number, so scores can be put in order.
-/

namespace BinGrade

open Binary64

theorem value_ne_zero_of_lt {a : Float} (h : (0.0 : Float) < a) (ha : a.isNaN = false) :
    value a ≠ 0 := by
  have hlt := (lt_iff rfl ha).mp h
  exact (show (0 : ℚ) < value a from hlt).ne'

theorem isNaN_scorePosition (totalError : Float) : (scorePosition totalError).isNaN = false := by
  have hone : value (1.0 : Float) ≠ 0 := value_ne_zero_of_lt (by decide +kernel) rfl
  have hscale : value (scoreScale : Float) ≠ 0 := value_ne_zero_of_lt (by decide +kernel) rfl
  unfold scorePosition
  split
  · rfl
  rename_i hnumber
  have hgreater : (Scalar.greater totalError 0.0).isNaN = false := by
    unfold Scalar.greater
    rw [if_neg hnumber]
    split
    · rfl
    · exact Bool.eq_false_iff.mpr hnumber
  have hquotient := isNaN_div_right hgreater rfl hscale
  have hsum := isNaN_add (a := 1.0) rfl hquotient
  exact isNaN_div_left rfl hone hsum

/-- The score of every tier and error is a number. -/
theorem isNaN_score (tier : Tier) (totalError : Float) :
    (score tier totalError).isNaN = false := by
  have hposition := isNaN_scorePosition totalError
  have hband : ∀ t : Tier, (scoreBand t : Float × Float).1.isFinite = true
      ∧ ((scoreBand t : Float × Float).2 - (scoreBand t).1).isFinite = true
      ∧ (0.0 : Float) < (scoreBand t).2 - (scoreBand t).1 := by
    intro t
    cases t <;> decide +kernel
  obtain ⟨hlow, hwidth, hpos⟩ := hband tier
  have hne := value_ne_zero_of_lt hpos (isNaN_of_isFinite hwidth)
  exact isNaN_add hlow (isNaN_mul hwidth hne hposition)

theorem Evaluator.isNaN_score_of_evaluatePrepared {e : Evaluator Float} {p : Prepared Float}
    {h : Histogram Float} {r : Request Float} {v : Verdict Float}
    (hv : e.evaluatePrepared p h r = .ok v) : v.score.isNaN = false := by
  unfold evaluatePrepared at hv
  obtain ⟨c, _, hv⟩ := exists_of_bind_eq_ok hv
  cases hv
  exact isNaN_score _ _

end BinGrade
