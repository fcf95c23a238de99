import Mathlib.Algebra.Order.Floor.Ring
import Mathlib.Algebra.Order.Floor.Semiring
import Mathlib.Data.NNRat.Floor
import Mathlib.Tactic.FieldSimp
import Mathlib.Tactic.Linarith
import Mathlib.Tactic.NormNum
import Mathlib.Tactic.Positivity
import Mathlib.Tactic.Ring
import BinGrade.Proofs.Scalar.Order

/-!
# The members of a field as scalars

Any ordered field can take the place of the rounded numbers, if its members lie between whole ones.
There are numbers only, and sums, differences, products and quotients are those of the field, where
a quotient by zero is zero. Roots, powers, logarithms and exponentials need not exist in the field;
they are arbitrary functions.
-/

namespace BinGrade

/-- What stands for the functions that lead out of a field. -/
structure Transcendental (K : Type) where
  sqrt : K → K
  pow : K → K → K
  log : K → K
  exp : K → K

/-- The members of a field, with functions that stand for the transcendental ones. -/
def Unrounded {K : Type} (_ : Transcendental K) : Type := K

namespace Unrounded

variable {K : Type} [Field K] [LinearOrder K] [FloorSemiring K] {f : Transcendental K}

instance : Field (Unrounded f) := inferInstanceAs (Field K)

instance : LinearOrder (Unrounded f) := inferInstanceAs (LinearOrder K)

instance [IsStrictOrderedRing K] : IsStrictOrderedRing (Unrounded f) :=
  inferInstanceAs (IsStrictOrderedRing K)

instance : FloorSemiring (Unrounded f) := inferInstanceAs (FloorSemiring K)

/-! Both the field and the scalars bring their own operations. They are the same, and the field's
are the ones that are found. -/

instance (priority := 2000) : Add (Unrounded f) := Distrib.toAdd

instance (priority := 2000) : Sub (Unrounded f) := SubNegMonoid.toSub

instance (priority := 2000) : Mul (Unrounded f) := Distrib.toMul

instance (priority := 2000) : Div (Unrounded f) := DivInvMonoid.toDiv

instance (priority := 2000) : Neg (Unrounded f) := SubNegMonoid.toNeg

instance (priority := 2000) : LE (Unrounded f) := Preorder.toLE

instance (priority := 2000) : LT (Unrounded f) := Preorder.toLT

instance (priority := 2000) : DecidableLE (Unrounded f) := LinearOrder.toDecidableLE

instance (priority := 2000) : DecidableLT (Unrounded f) := LinearOrder.toDecidableLT

instance (priority := 2000) : BEq (Unrounded f) := instBEqOfDecidableEq

instance (priority := 2000) : OfScientific (Unrounded f) := NNRatCast.toOfScientific

instance : Scalar (Unrounded f) where
  decLe := inferInstance
  decLt := inferInstance
  ofCount n := (n : Unrounded f)
  abs x := |x|
  sqrt := f.sqrt
  pow := f.pow
  log := f.log
  exp := f.exp
  floorCount x := ⌊x⌋₊
  ceilCount x := ⌈x⌉₊
  isNaN _ := false
  isFinite _ := true
  sortsBefore a b := decide (a ≤ b)

instance : Scalar.Ordered (Unrounded f) where
  isNaN_of_le _ := ⟨rfl, rfl⟩
  le_refl _ := le_rfl
  le_trans := le_trans
  le_total _ _ := le_total _ _
  lt_iff := lt_iff_le_not_ge
  beq_iff := beq_iff_eq.trans le_antisymm_iff
  isNaN_of_isFinite _ := rfl
  sortsBefore_trans a b c hab hbc :=
    decide_eq_true ((of_decide_eq_true hab).trans (of_decide_eq_true hbc))
  sortsBefore_total a b := by
    rw [Bool.or_eq_true]
    exact (le_total a b).imp decide_eq_true decide_eq_true
  le_of_sortsBefore _ _ h := of_decide_eq_true h

theorem zero_eq : (0.0 : Unrounded f) = 0 := by norm_num

theorem total_eq_sum (xs : List (Unrounded f)) : Scalar.total xs = xs.sum := by
  unfold Scalar.total
  rw [List.sum_eq_foldl]
  norm_num

theorem greater_eq_max (a b : Unrounded f) : Scalar.greater a b = max a b := by
  have hnumber : ¬Scalar.isNaN a = true := Bool.false_ne_true
  unfold Scalar.greater
  rw [if_neg hnumber]
  split
  · next h => exact (max_eq_right h.le).symm
  · next h => exact (max_eq_left (not_lt.mp h)).symm

theorem allFinite_eq_true (xs : List (Unrounded f)) : Sample.allFinite xs = true :=
  List.all_eq_true.mpr fun _ _ => rfl

end Unrounded

end BinGrade
