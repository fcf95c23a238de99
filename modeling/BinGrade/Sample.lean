import BinGrade.Error
import BinGrade.Scalar

/-!
# Samples

A sample is a list of scalars. Here are its order, its mean and spread, and the check that all its
values are finite numbers.
-/

namespace BinGrade

variable {α : Type} [Scalar α]

namespace Sample

/-- The sample in ascending order; what is no number stands last. -/
def sorted (xs : List α) : List α :=
  xs.mergeSort Scalar.sortsBefore

theorem perm_sorted (xs : List α) : (sorted xs).Perm xs :=
  List.mergeSort_perm xs _

def mean (xs : List α) : α :=
  if xs.isEmpty then 0.0 else Scalar.total xs / Scalar.ofCount xs.length

/-- Standard deviation of the sample as a whole population, zero for an empty sample. -/
def deviation (xs : List α) : α :=
  if xs.isEmpty then 0.0
  else
    let m := mean xs
    Scalar.sqrt (Scalar.total (xs.map fun x => (x - m) * (x - m)) / Scalar.ofCount xs.length)

def range? : List α → Option (α × α)
  | [] => none
  | x :: xs =>
    some ((x :: xs).foldl (fun r y => (Scalar.lesser r.1 y, Scalar.greater r.2 y)) (x, x))

def allFinite (xs : List α) : Bool := xs.all Scalar.isFinite

def checkFinite (what : String) (xs : List α) : Except (Error α) Unit :=
  if allFinite xs then .ok () else .error (.notFinite what)

end Sample

end BinGrade
