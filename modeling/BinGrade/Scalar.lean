/-!
# Scalars

Every formula of the library is written once, over a type of scalars, in the order in which its
operations are carried out. It is run on binary64 numbers; read over an exact field it is the
formula of the textbook. Only the operations named here are used, so a statement about a formula
says exactly which of their laws it needs.
-/

namespace BinGrade

/-- The arithmetic in which samples, moments, weights and thresholds are computed. Conversions to
counts give zero below zero and where there is no number; the linear order in which samples are
sorted tells apart whatever can be told apart. -/
class Scalar (α : Type) extends
    Add α, Sub α, Mul α, Div α, Neg α, LE α, LT α, BEq α, OfScientific α where
  decLe : ∀ a b : α, Decidable (a ≤ b)
  decLt : ∀ a b : α, Decidable (a < b)
  ofCount : Nat → α
  abs : α → α
  sqrt : α → α
  pow : α → α → α
  log : α → α
  exp : α → α
  floorCount : α → Nat
  ceilCount : α → Nat
  isNaN : α → Bool
  isFinite : α → Bool
  sortsBefore : α → α → Bool

namespace Scalar

variable {α : Type} [Scalar α]

instance : DecidableLE α := decLe

instance : DecidableLT α := decLt

/-- The smaller of two scalars; a missing number gives way to the other one. -/
def lesser (a b : α) : α :=
  if isNaN a then b else if b < a then b else a

def greater (a b : α) : α :=
  if isNaN a then b else if a < b then b else a

/-- The nearest scalar between two bounds; what is no number passes unchanged. -/
def clamp (low high x : α) : α :=
  if x < low then low else if high < x then high else x

/-- Clamped into the unit interval, and zero where there is no number. -/
def unit (x : α) : α :=
  if isNaN x then 0.0 else clamp 0.0 1.0 x

/-- Sum from left to right. It starts at negative zero, the neutral element of rounded addition. -/
def total (xs : List α) : α :=
  xs.foldl (· + ·) (-0.0)

/-- The first of the smallest members, or the start value if there is none below it. -/
def lowest (start : α) (xs : List α) : α :=
  xs.foldl (fun low x => if x < low then x else low) start

/-- The last of the largest members, or the start value if all are below it. -/
def highest (start : α) (xs : List α) : α :=
  xs.foldl (fun high x => if x < high then high else x) start

end Scalar

end BinGrade
