import BinGrade.Key

/-!
# Quality tiers

Five grades from excellent to unacceptable. The first four are bounded: a metric meets them if it
stays within a ceiling. The overall grade of several metrics is the worst of theirs.
-/

namespace BinGrade

/-- A quality grade (`QualityTier`), best first. -/
inductive Tier where
  | excellent
  | good
  | acceptable
  | poor
  | unacceptable
deriving DecidableEq

namespace Tier

def name : Tier → String
  | excellent => "excellent"
  | good => "good"
  | acceptable => "acceptable"
  | poor => "poor"
  | unacceptable => "unacceptable"

instance : Key Tier where
  kind := "quality tier"
  all := [excellent, good, acceptable, poor, unacceptable]
  name := name
  separatorsAlike := false

def bounded : List Tier := [excellent, good, acceptable, poor]

def rank : Tier → Nat
  | excellent => 0
  | good => 1
  | acceptable => 2
  | poor => 3
  | unacceptable => 4

def isAtLeast (t target : Tier) : Bool :=
  t.rank ≤ target.rank

def worse (s t : Tier) : Tier :=
  if s.rank ≤ t.rank then t else s

/-- The worst of several grades, and excellent for none. -/
def worstOf (ts : List Tier) : Tier :=
  ts.foldl worse excellent

theorem isAtLeast_worse (s t target : Tier) :
    (s.worse t).isAtLeast target = (s.isAtLeast target && t.isAtLeast target) := by
  cases s <;> cases t <;> cases target <;> rfl

theorem isAtLeast_foldl_worse (ts : List Tier) (t target : Tier) :
    (ts.foldl worse t).isAtLeast target
      = (t.isAtLeast target && ts.all (·.isAtLeast target)) := by
  induction ts generalizing t with
  | nil => simp
  | cons u ts ih => simp [ih, isAtLeast_worse, Bool.and_assoc]

/-- The worst of several grades reaches a target if and only if each of them does. -/
theorem isAtLeast_worstOf (ts : List Tier) (target : Tier) :
    (worstOf ts).isAtLeast target = ts.all (·.isAtLeast target) := by
  have h : excellent.isAtLeast target = true := by cases target <;> rfl
  simp [worstOf, isAtLeast_foldl_worse, h]

end Tier

end BinGrade
