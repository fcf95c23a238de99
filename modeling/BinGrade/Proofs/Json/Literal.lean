import BinGrade.Proofs.Decimal.Basin
import BinGrade.Proofs.Json.Grammar

/-!
# Literals

A numeral is put together from a sign, digits before and after the point and an exponent, and taking
it apart gives the same pieces. The text that is laid out for a double is such a literal.
-/

namespace BinGrade.Json.Numeral

open Decimal

/-! ### Digits -/

theorem isDigit_of_mem_digitsOf {n : ℕ} {c : Char} (h : c ∈ digitsOf n) : isDigit c = true :=
  Nat.isDigit_of_mem_toDigits (by norm_num) (by norm_num) h

theorem valueOf_digitsOf (n : ℕ) : valueOf (digitsOf n) = n :=
  Nat.ofDigitChars_ten_toDigits

theorem valueOf_append (ds ts : List Char) :
    valueOf (ds ++ ts) = valueOf ds * 10 ^ ts.length + valueOf ts := by
  change Nat.ofDigitChars 10 (ds ++ ts) 0 = _
  rw [Nat.ofDigitChars_append, Nat.ofDigitChars_eq_ofDigitChars_zero, mul_comm]
  rfl

theorem valueOf_replicate (n : ℕ) : valueOf (List.replicate n '0') = 0 :=
  Nat.ofDigitChars_replicate_zero.trans (Nat.mul_zero _)

theorem digit_le_nine {c : Char} (h : isDigit c = true) : c.toNat - '0'.toNat ≤ 9 := by
  unfold isDigit at h
  rw [Bool.and_eq_true, decide_eq_true_eq, decide_eq_true_eq] at h
  have hnine : c.toNat ≤ '9'.toNat := h.2
  change c.toNat ≤ 57 at hnine
  change c.toNat - 48 ≤ 9
  omega

theorem valueOf_lt {ds : List Char} (h : ∀ c ∈ ds, isDigit c = true) :
    valueOf ds < 10 ^ ds.length := by
  induction ds with
  | nil => exact Nat.one_pos
  | cons c ds ih =>
    have hhead := digit_le_nine (h c List.mem_cons_self)
    have htail := ih fun t ht => h t (List.mem_cons_of_mem c ht)
    have hsplit : valueOf (c :: ds) = (c.toNat - '0'.toNat) * 10 ^ ds.length + valueOf ds := by
      have := valueOf_append [c] ds
      simpa [valueOf] using this
    rw [hsplit, List.length_cons, pow_succ]
    nlinarith

theorem head_digitsOf {n : ℕ} (h : 0 < n) (ds : List Char) : digitsOf n ≠ '0' :: ds := by
  intro hzero
  have hvalue := valueOf_digitsOf n
  have hlow := ten_pow_digitCount_le h
  have hdigits : ∀ c ∈ ds, isDigit c = true := fun c hc =>
    isDigit_of_mem_digitsOf (hzero ▸ List.mem_cons_of_mem '0' hc)
  rw [hzero, show '0' :: ds = ['0'] ++ ds from rfl, valueOf_append] at hvalue
  have hcount : digitCount n - 1 = ds.length := by
    change (digitsOf n).length - 1 = _
    rw [hzero, List.length_cons, Nat.add_sub_cancel]
  rw [hcount] at hlow
  have hlt := valueOf_lt hdigits
  have hnone : valueOf ['0'] = 0 := rfl
  rw [hnone] at hvalue
  omega

/-! ### Pieces -/

/-- The exponent of a numeral: whether it is negative, and its digits. -/
abbrev Exponent := Option (Bool × List Char)

def Exponent.text : Exponent → List Char
  | none => []
  | some (negative, ds) => 'e' :: (if negative then '-' else '+') :: ds

def Exponent.value : Exponent → ℤ
  | none => 0
  | some (negative, ds) => if negative then -(valueOf ds : ℤ) else valueOf ds

def fractionText : List Char → List Char
  | [] => []
  | ds => '.' :: ds

/-- A numeral in its pieces. A numeral without a point has no digits after it. -/
structure Literal where
  negative : Bool
  whole : List Char
  fraction : List Char
  exponent : Exponent
  whole_ne_nil : whole ≠ []
  isDigit_whole : ∀ c ∈ whole, isDigit c = true
  whole_ne_zero : ∀ d ds, whole ≠ '0' :: d :: ds
  isDigit_fraction : ∀ c ∈ fraction, isDigit c = true
  isDigit_exponent : ∀ s ds, exponent = some (s, ds) → ds ≠ [] ∧ ∀ c ∈ ds, isDigit c = true

namespace Literal

def body (l : Literal) : List Char := l.whole ++ (fractionText l.fraction ++ l.exponent.text)

def text (l : Literal) : List Char := if l.negative then '-' :: l.body else l.body

/-- The power of ten that the digits count. -/
def power (l : Literal) : ℤ := l.exponent.value - l.fraction.length

end Literal

section Literals

variable (l : Literal)

theorem isWhole_whole : IsWhole l.whole :=
  ⟨⟨l.whole_ne_nil, l.isDigit_whole⟩, l.whole_ne_zero⟩

theorem isFraction_text : IsFraction (fractionText l.fraction) := by
  have hdigits := l.isDigit_fraction
  cases hf : l.fraction with
  | nil => exact .none
  | cons d ds => exact .point ⟨List.cons_ne_nil d ds, hf ▸ hdigits⟩

theorem isExponent_text : IsExponent l.exponent.text := by
  cases hx : l.exponent with
  | none => exact .none
  | some x =>
    obtain ⟨negative, ds⟩ := x
    have hdigits : IsDigits ds := l.isDigit_exponent negative ds hx
    cases negative with
    | true => exact .mark (.inl rfl) (.inr (.inr rfl)) hdigits
    | false => exact .mark (.inl rfl) (.inr (.inl rfl)) hdigits

theorem isNumeral_text : IsNumeral l.text := by
  unfold Literal.text
  cases l.negative with
  | true => exact .minus (isWhole_whole l) (isFraction_text l) (isExponent_text l)
  | false => exact .unsigned (isWhole_whole l) (isFraction_text l) (isExponent_text l)

theorem scanMinus_text : scanMinus l.text = (if l.negative then ['-'] else [], l.body) := by
  unfold Literal.text
  cases l.negative with
  | true => rfl
  | false => exact scanMinus_of (isWhole_whole l).1 _

theorem exponentOf_text (x : Exponent) : exponentOf x.text = x.value := by
  cases x with
  | none => rfl
  | some p =>
    obtain ⟨negative, ds⟩ := p
    cases negative <;> rfl

/-- A literal falls into the pieces that it was put together from. -/
theorem parts_text : parts l.text = ⟨l.negative, valueOf (l.whole ++ l.fraction), l.power,
    l.fraction.isEmpty && l.exponent.text.isEmpty⟩ := by
  have hstop : Stops [] := by
    intro c hc
    cases hc
  have htail (c : Char) (hc : (l.exponent.text).head? = some c) : isDigit c = false ∧ c ≠ '.' :=
    (isExponent_text l).stops hstop (by rwa [List.append_nil])
  have hpoint (c : Char) (hc : (fractionText l.fraction ++ l.exponent.text).head? = some c) :
      isDigit c = false := (isFraction_text l).stops (fun c hc => (htail c hc).1) hc
  obtain ⟨hwhole, hrest⟩ := span_digits l.isDigit_whole hpoint
  obtain ⟨hfraction, hexponent⟩ := span_digits l.isDigit_fraction fun c hc => (htail c hc).1
  unfold parts
  rw [scanMinus_text]
  dsimp only [Literal.body]
  rw [hwhole, hrest]
  unfold Literal.power
  rw [← exponentOf_text]
  cases hf : l.fraction with
  | nil => cases l.exponent <;> cases l.negative <;> rfl
  | cons d ds =>
    rw [hf, List.cons_append] at hfraction hexponent
    simp only [fractionText, List.cons_append, hfraction, hexponent]
    cases l.negative <;> rfl

end Literals

end BinGrade.Json.Numeral
