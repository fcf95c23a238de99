import Mathlib.Algebra.Order.Ring.Rat
import Mathlib.Data.Rat.Floor
import Mathlib.Tactic.Linarith
import Mathlib.Tactic.NormNum
import BinGrade.Proofs.Scalar.Extremes

/-!
# Exact scalars

Rational numbers in place of rounded ones. Sums, differences, products and quotients are those of the
rationals, so a formula read over exact scalars is the formula of the textbook. Infinities and what
is no number are kept, since they may still be given as input or come from a division by zero. There
is no exact rule for roots, powers, logarithms and exponentials; they are arbitrary functions.
-/

namespace BinGrade

/-- What stands for the functions that lead out of the rationals. -/
structure Elementary where
  sqrt : ℚ → ℚ
  pow : ℚ → ℚ → ℚ
  log : ℚ → ℚ
  exp : ℚ → ℚ

/-- A rational number, an infinity, or no number. -/
inductive Exact (f : Elementary) where
  | number (q : ℚ)
  | infinite (negative : Bool)
  | missing

namespace Exact

variable {f : Elementary}

/-! ### Operations -/

def neg : Exact f → Exact f
  | number q => number (-q)
  | infinite s => infinite (!s)
  | missing => missing

def add : Exact f → Exact f → Exact f
  | number a, number b => number (a + b)
  | number _, infinite s => infinite s
  | infinite s, number _ => infinite s
  | infinite s, infinite t => if s = t then infinite s else missing
  | _, _ => missing

def mul : Exact f → Exact f → Exact f
  | number a, number b => number (a * b)
  | number a, infinite s => if a = 0 then missing else infinite (decide (a < 0) ^^ s)
  | infinite s, number b => if b = 0 then missing else infinite (s ^^ decide (b < 0))
  | infinite s, infinite t => infinite (s ^^ t)
  | _, _ => missing

/-- A number that is not zero, divided by zero, is infinite: there is one zero, and it has no sign.
-/
def div : Exact f → Exact f → Exact f
  | number a, number b =>
    if b = 0 then if a = 0 then missing else infinite (decide (a < 0)) else number (a / b)
  | number _, infinite _ => number 0
  | infinite s, number b => infinite (s ^^ decide (b < 0))
  | _, _ => missing

/-- Numbers between the infinities, and after all of them what is no number. -/
def place : Exact f → WithTop (WithTop (WithBot ℚ))
  | number q => ((q : WithBot ℚ) : WithTop (WithBot ℚ))
  | infinite true => ((⊥ : WithBot ℚ) : WithTop (WithBot ℚ))
  | infinite false => (⊤ : WithTop (WithBot ℚ))
  | missing => ⊤

def isMissing : Exact f → Bool
  | missing => true
  | _ => false

def lift (g : ℚ → ℚ) : Exact f → Exact f
  | number q => number (g q)
  | _ => missing

instance : Neg (Exact f) := ⟨neg⟩

instance : Add (Exact f) := ⟨add⟩

instance : Mul (Exact f) := ⟨mul⟩

instance : Div (Exact f) := ⟨div⟩

instance : LE (Exact f) := ⟨fun a b => b.isMissing = false ∧ a.place ≤ b.place⟩

instance : DecidableLE (Exact f) := fun a b =>
  inferInstanceAs (Decidable (b.isMissing = false ∧ a.place ≤ b.place))

instance : Scalar (Exact f) where
  sub a b := a + -b
  lt a b := a ≤ b ∧ ¬b ≤ a
  beq a b := decide (a ≤ b ∧ b ≤ a)
  ofScientific m negative e := number (OfScientific.ofScientific m negative e)
  decLe := inferInstance
  decLt a b := inferInstanceAs (Decidable (a ≤ b ∧ ¬b ≤ a))
  ofCount n := number n
  abs
    | number q => number |q|
    | infinite _ => infinite false
    | missing => missing
  sqrt := lift f.sqrt
  pow
    | number a, number b => number (f.pow a b)
    | _, _ => missing
  log := lift f.log
  exp := lift f.exp
  floorCount
    | number q => ⌊q⌋₊
    | _ => 0
  ceilCount
    | number q => ⌈q⌉₊
    | _ => 0
  isNaN := isMissing
  isFinite
    | number _ => true
    | _ => false
  sortsBefore a b := decide (a.place ≤ b.place)

/-! ### Numbers -/

section Numbers

variable (a b : ℚ)

@[simp] theorem number_add : (number a : Exact f) + number b = number (a + b) := rfl

@[simp] theorem number_sub : (number a : Exact f) - number b = number (a - b) := by
  rw [sub_eq_add_neg]
  rfl

@[simp] theorem number_mul : (number a : Exact f) * number b = number (a * b) := rfl

@[simp] theorem neg_number : -(number a : Exact f) = number (-a) := rfl

theorem number_div (h : b ≠ 0) : (number a : Exact f) / number b = number (a / b) := if_neg h

@[simp] theorem number_le : (number a : Exact f) ≤ number b ↔ a ≤ b := by
  change false = false ∧ place (number a) ≤ place (number b) ↔ a ≤ b
  simp [place]

@[simp] theorem number_lt : (number a : Exact f) < number b ↔ a < b := by
  change (number a : Exact f) ≤ number b ∧ ¬(number b : Exact f) ≤ number a ↔ a < b
  rw [number_le, number_le, lt_iff_le_not_ge]

@[simp] theorem isFinite_number : Scalar.isFinite (number a : Exact f) = true := rfl

@[simp] theorem abs_number : Scalar.abs (number a : Exact f) = number |a| := rfl

variable (f)

@[simp] theorem zero_eq : (0.0 : Exact f) = number 0 := by
  change number _ = number 0
  norm_num

@[simp] theorem one_eq : (1.0 : Exact f) = number 1 := by
  change number _ = number 1
  norm_num

end Numbers

/-! ### Sums -/

theorem foldl_add_number (start : ℚ) (qs : List ℚ) :
    (qs.map number).foldl (· + ·) (number start : Exact f) = number (start + qs.sum) := by
  induction qs generalizing start with
  | nil => simp
  | cons q qs ih =>
    rw [List.map_cons, List.foldl_cons, number_add, ih, List.sum_cons, add_assoc]

theorem total_number (qs : List ℚ) :
    Scalar.total (qs.map number : List (Exact f)) = number qs.sum := by
  unfold Scalar.total
  rw [zero_eq, neg_number, foldl_add_number, neg_zero, zero_add]

theorem exists_number_of_add {a b : Exact f} {q : ℚ} (h : a + b = number q) :
    (∃ r, a = number r) ∧ ∃ r, b = number r := by
  change add a b = number q at h
  rcases a with r | s | _ <;> rcases b with t | u | _ <;> simp only [add] at h
  · exact ⟨⟨r, rfl⟩, ⟨t, rfl⟩⟩
  all_goals first | cases h | (split at h <;> cases h)

/-- A sum that is a number has numbers as its members. -/
theorem exists_numbers_of_foldl_add {xs : List (Exact f)} {start : Exact f} {q : ℚ}
    (h : xs.foldl (· + ·) start = number q) :
    (∃ r, start = number r) ∧ ∀ x ∈ xs, ∃ r, x = number r := by
  induction xs generalizing start with
  | nil => exact ⟨⟨q, h⟩, by simp⟩
  | cons x xs ih =>
    obtain ⟨⟨r, hr⟩, hxs⟩ := ih h
    obtain ⟨hstart, hx⟩ := exists_number_of_add hr
    exact ⟨hstart, List.forall_mem_cons.mpr ⟨hx, hxs⟩⟩

/-! ### Order -/

theorem place_lt_top {a : Exact f} : a.place < ⊤ ↔ a.isMissing = false := by
  rcases a with q | (_ | _) | _ <;> simp [place, isMissing]

theorem isMissing_of_le {a b : Exact f} (h : a ≤ b) : a.isMissing = false ∧ b.isMissing = false :=
  ⟨place_lt_top.mp (h.2.trans_lt (place_lt_top.mpr h.1)), h.1⟩

instance : Scalar.Ordered (Exact f) where
  isNaN_of_le := isMissing_of_le
  le_refl h := ⟨h, le_rfl⟩
  le_trans hab hbc := ⟨hbc.1, hab.2.trans hbc.2⟩
  le_total {a b} ha hb := (le_total a.place b.place).imp (⟨hb, ·⟩) (⟨ha, ·⟩)
  lt_iff := Iff.rfl
  beq_iff := decide_eq_true_iff
  isNaN_of_isFinite {a} h := by
    cases a with
    | number q => rfl
    | infinite s => cases h
    | missing => cases h
  sortsBefore_trans a b c hab hbc :=
    decide_eq_true ((of_decide_eq_true hab).trans (of_decide_eq_true hbc))
  sortsBefore_total a b := by
    rw [Bool.or_eq_true]
    exact (le_total a.place b.place).imp decide_eq_true decide_eq_true
  le_of_sortsBefore _ hb h := ⟨hb, of_decide_eq_true h⟩

/-! ### The unit interval -/

/-- Between two numbers there are numbers only. -/
theorem exists_number_of_le {low high : ℚ} {x : Exact f} (hlow : number low ≤ x)
    (hhigh : x ≤ number high) : ∃ q, x = number q := by
  rcases x with q | (_ | _) | _
  · exact ⟨q, rfl⟩
  · exact absurd hhigh.2 (by simp [place])
  · exact absurd hlow.2 (by simp [place])
  · exact absurd hlow.1 (by simp [isMissing])

/-- Whatever is brought into the unit interval is a number of it. -/
theorem exists_unit_eq (x : Exact f) : ∃ q : ℚ, 0 ≤ q ∧ q ≤ 1 ∧ Scalar.unit x = number q := by
  unfold Scalar.unit Scalar.clamp
  rw [zero_eq, one_eq]
  split
  · exact ⟨0, le_rfl, zero_le_one, rfl⟩
  next hnumber =>
  rw [Bool.not_eq_true] at hnumber
  split
  · exact ⟨0, le_rfl, zero_le_one, rfl⟩
  next hlow =>
  split
  · exact ⟨1, zero_le_one, le_rfl, rfl⟩
  next hhigh =>
  have hlow := Scalar.le_of_not_lt hnumber rfl hlow
  have hhigh := Scalar.le_of_not_lt rfl hnumber hhigh
  obtain ⟨q, rfl⟩ := exists_number_of_le hlow hhigh
  exact ⟨q, (number_le 0 q).mp hlow, (number_le q 1).mp hhigh, rfl⟩

theorem unit_number {q : ℚ} (hlow : 0 ≤ q) (hhigh : q ≤ 1) :
    Scalar.unit (number q : Exact f) = number q := by
  have hnumber : ¬Scalar.isNaN (number q : Exact f) = true := Bool.false_ne_true
  unfold Scalar.unit Scalar.clamp
  simp only [zero_eq, one_eq, number_lt]
  rw [if_neg hnumber, if_neg (not_lt.mpr hlow), if_neg (not_lt.mpr hhigh)]

theorem unit_of_lt {x : Exact f} (h : number 1 < x) : Scalar.unit x = number 1 := by
  have hnumber : ¬Scalar.isNaN x = true := by
    rw [(Scalar.Ordered.isNaN_of_le (Scalar.Ordered.lt_iff.mp h).1).2]
    exact Bool.false_ne_true
  have hlow : ¬x < number 0 := by
    intro hx
    exact absurd ((number_lt 1 0).mp (Scalar.lt_trans h hx)) (by norm_num)
  unfold Scalar.unit Scalar.clamp
  rw [zero_eq, one_eq, if_neg hnumber, if_neg hlow, if_pos h]

theorem unit_unit (x : Exact f) : Scalar.unit (Scalar.unit x) = Scalar.unit x := by
  obtain ⟨q, hlow, hhigh, hq⟩ := exists_unit_eq x
  rw [hq, unit_number hlow hhigh]

end Exact

end BinGrade
