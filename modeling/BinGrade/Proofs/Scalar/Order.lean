import BinGrade.Sample

/-!
# The order of scalars

What counting and grading ask of comparisons. Numbers are in a total preorder, in which different
scalars may be equal, as the two zeros are; what is no number compares with nothing. Sorting is by a
finer order, which agrees with the comparisons wherever there are numbers.
-/

namespace BinGrade.Scalar

/-- The comparisons are a total preorder on the numbers and fail on everything else. -/
class Ordered (α : Type) [Scalar α] : Prop where
  isNaN_of_le : ∀ {a b : α}, a ≤ b → isNaN a = false ∧ isNaN b = false
  le_refl : ∀ {a : α}, isNaN a = false → a ≤ a
  le_trans : ∀ {a b c : α}, a ≤ b → b ≤ c → a ≤ c
  le_total : ∀ {a b : α}, isNaN a = false → isNaN b = false → a ≤ b ∨ b ≤ a
  lt_iff : ∀ {a b : α}, a < b ↔ a ≤ b ∧ ¬b ≤ a
  beq_iff : ∀ {a b : α}, (a == b) = true ↔ a ≤ b ∧ b ≤ a
  isNaN_of_isFinite : ∀ {a : α}, isFinite a = true → isNaN a = false
  sortsBefore_trans : ∀ a b c : α,
    sortsBefore a b = true → sortsBefore b c = true → sortsBefore a c = true
  sortsBefore_total : ∀ a b : α, (sortsBefore a b || sortsBefore b a) = true
  le_of_sortsBefore : ∀ {a b : α},
    isNaN a = false → isNaN b = false → sortsBefore a b = true → a ≤ b

variable {α : Type} [Scalar α] [Ordered α] {a b : α}

theorem le_of_not_le (ha : isNaN a = false) (hb : isNaN b = false) (h : ¬b ≤ a) : a ≤ b :=
  (Ordered.le_total ha hb).resolve_right h

theorem lt_of_lt_of_le {c : α} (hab : a < b) (hbc : b ≤ c) : a < c := by
  obtain ⟨hle, hnot⟩ := Ordered.lt_iff.mp hab
  exact Ordered.lt_iff.mpr ⟨Ordered.le_trans hle hbc, fun h => hnot (Ordered.le_trans hbc h)⟩

theorem lt_trans {c : α} (hab : a < b) (hbc : b < c) : a < c :=
  lt_of_lt_of_le hab (Ordered.lt_iff.mp hbc).1

theorem pairwise_le_sorted {xs : List α} (h : Sample.allFinite xs = true) :
    (Sample.sorted xs).Pairwise (· ≤ ·) := by
  have hsorted : (Sample.sorted xs).Pairwise fun a b => sortsBefore a b = true :=
    List.pairwise_mergeSort Ordered.sortsBefore_trans Ordered.sortsBefore_total xs
  have hnumber : ∀ x ∈ Sample.sorted xs, isNaN x = false := by
    intro x hx
    exact Ordered.isNaN_of_isFinite (List.all_eq_true.mp h x ((Sample.perm_sorted xs).mem_iff.mp hx))
  refine hsorted.imp_of_mem ?_
  intro x y hx hy hxy
  exact Ordered.le_of_sortsBefore (hnumber x hx) (hnumber y hy) hxy

end BinGrade.Scalar
