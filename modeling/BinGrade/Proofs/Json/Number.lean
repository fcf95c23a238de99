import BinGrade.Proofs.Binary64.Sign
import BinGrade.Proofs.Json.Literal

/-!
# Numbers in documents

If numerals stand for the nearest double, the text of a finite double reads back as the same double,
its sign included: the digits lie in the basin of the double, and laying them out does not change what
they stand for. Not every reader rounds so; what is asked of one is that it keeps a double, or all of
them.
-/

namespace BinGrade.Json

open Binary64 Decimal

namespace Numeral

/-! ### Significant digits -/

/-- Digits that do not begin with a zero. -/
structure Significant (ds : List Char) : Prop where
  ne_nil : ds ≠ []
  isDigit : ∀ c ∈ ds, isDigit c = true
  head_ne : ds.head? ≠ some '0'

theorem stripZeros_append (ds : List Char) :
    ∃ n, stripZeros ds ++ List.replicate n '0' = ds := by
  have hzeros : ∀ c ∈ ds.reverse.takeWhile (· = '0'), c = '0' := by
    intro c hc
    simpa using List.mem_takeWhile_imp hc
  obtain ⟨n, hn⟩ : ∃ n, ds.reverse.takeWhile (· = '0') = List.replicate n '0' :=
    ⟨_, List.eq_replicate_of_mem hzeros⟩
  have hsplit := List.takeWhile_append_dropWhile (p := (· = '0')) (l := ds.reverse)
  refine ⟨n, ?_⟩
  rw [hn, ← List.reverse_inj, List.reverse_append, List.reverse_replicate,
    List.reverse_reverse] at hsplit
  exact hsplit

theorem significant_stripZeros {p : ℕ} (h : 0 < p) : Significant (stripZeros (digitsOf p)) := by
  obtain ⟨n, hn⟩ := stripZeros_append (digitsOf p)
  have hvalue := valueOf_digitsOf p
  refine ⟨?_, ?_, ?_⟩
  · intro hnil
    rw [← hn, hnil, List.nil_append, valueOf_replicate] at hvalue
    omega
  · intro c hc
    apply isDigit_of_mem_digitsOf (n := p)
    rw [← hn]
    exact List.mem_append_left _ hc
  · intro hhead
    obtain ⟨ts, hts⟩ := List.head?_eq_some_iff.mp hhead
    rw [hts, List.cons_append] at hn
    exact head_digitsOf h _ hn.symm

theorem scale_eq {v n : ℕ} {a b : ℤ} (h : n + a = b) :
    ((v * 10 ^ n : ℕ) : ℚ) * 10 ^ a = v * 10 ^ b := by
  rw [← h, zpow_add₀ (by norm_num), zpow_natCast]
  push_cast
  ring

theorem valueOf_stripZeros (p : ℕ) (k : ℤ) :
    (valueOf (stripZeros (digitsOf p)) : ℚ)
        * 10 ^ (k + (digitsOf p).length - 1 + 1 - (stripZeros (digitsOf p)).length)
      = p * 10 ^ k := by
  obtain ⟨n, hn⟩ := stripZeros_append (digitsOf p)
  have hlength := congrArg List.length hn
  rw [List.length_append, List.length_replicate] at hlength
  have hvalue : p = valueOf (stripZeros (digitsOf p)) * 10 ^ n := by
    have h := valueOf_append (stripZeros (digitsOf p)) (List.replicate n '0')
    rwa [hn, valueOf_digitsOf, valueOf_replicate, List.length_replicate, Nat.add_zero] at h
  conv_rhs => rw [hvalue]
  exact (scale_eq (by omega)).symm

/-! ### Layout -/

/-- What stands for the same number as digits of which the first has an exponent. -/
def StandsFor (l : Literal) (ds : List Char) (e : ℤ) : Prop :=
  (valueOf (l.whole ++ l.fraction) : ℚ) * 10 ^ l.power = valueOf ds * 10 ^ (e + 1 - ds.length)

/-- Digits with zeros around them, cut into the pieces of a literal. -/
theorem exists_literal {ds whole fraction : List Char} {a b : ℕ} {x : Exponent} {e : ℤ}
    (h : Significant ds)
    (hdigits : whole ++ fraction = List.replicate a '0' ++ (ds ++ List.replicate b '0'))
    (hwhole : whole = ['0'] ∨ whole ≠ [] ∧ a = 0)
    (hx : ∀ s ts, x = some (s, ts) → ts ≠ [] ∧ ∀ c ∈ ts, isDigit c = true)
    (hpower : b + (x.value - fraction.length) = e + 1 - ds.length) (negative : Bool) :
    ∃ l : Literal, l.negative = negative ∧ l.body = whole ++ (fractionText fraction ++ x.text)
      ∧ StandsFor l ds e := by
  have hall : ∀ c ∈ whole ++ fraction, isDigit c = true := by
    intro c hc
    rw [hdigits] at hc
    simp only [List.mem_append, List.mem_replicate] at hc
    rcases hc with ⟨_, rfl⟩ | hc | ⟨_, rfl⟩
    exacts [rfl, h.isDigit c hc, rfl]
  have hne : whole ≠ [] := by
    rcases hwhole with rfl | ⟨hne, _⟩
    · exact List.cons_ne_nil _ _
    · exact hne
  have hzero (d : Char) (ts : List Char) : whole ≠ '0' :: d :: ts := by
    intro heq
    rcases hwhole with hsingle | ⟨_, rfl⟩
    · rw [hsingle] at heq
      cases heq
    · have hhead := congrArg List.head? hdigits
      rw [heq, List.replicate_zero, List.nil_append,
        List.head?_append_of_ne_nil ds h.ne_nil] at hhead
      exact h.head_ne hhead.symm
  have hvalue : valueOf (whole ++ fraction) = valueOf ds * 10 ^ b := by
    rw [hdigits, valueOf_append, valueOf_append, valueOf_replicate, valueOf_replicate,
      List.length_replicate]
    omega
  refine ⟨⟨negative, whole, fraction, x, hne, fun c hc => hall c (List.mem_append_left _ hc), hzero,
    fun c hc => hall c (List.mem_append_right _ hc), hx⟩, rfl, rfl, ?_⟩
  change (valueOf (whole ++ fraction) : ℚ) * 10 ^ (x.value - fraction.length) = _
  rw [hvalue]
  exact scale_eq hpower

theorem isDigit_none (s : Bool) (ts : List Char) (h : (none : Exponent) = some (s, ts)) :
    ts ≠ [] ∧ ∀ c ∈ ts, isDigit c = true := by
  cases h

theorem spread_of_le {ds : List Char} {k : ℕ} (h : ds.length ≤ k + 1) :
    spread ds k = (ds ++ List.replicate (k + 1 - ds.length) '0', []) := by
  have hlength : (ds ++ List.replicate (k + 1 - ds.length) '0').length = k + 1 := by
    rw [List.length_append, List.length_replicate]
    omega
  change (List.take (k + 1) _, List.drop (k + 1) _) = _
  rw [List.take_of_length_le hlength.le, List.drop_eq_nil_of_le hlength.le]

theorem spread_of_lt {ds : List Char} {k : ℕ} (h : k + 1 < ds.length) :
    spread ds k = (ds.take (k + 1), ds.drop (k + 1)) := by
  have hnone : k + 1 - ds.length = 0 := by omega
  change (List.take (k + 1) (ds ++ List.replicate (k + 1 - ds.length) '0'),
    List.drop (k + 1) (ds ++ List.replicate (k + 1 - ds.length) '0')) = _
  rw [hnone, List.replicate_zero, List.append_nil]

/-- Digits before and after a point, with a zero where there are none after it. -/
def pointed : List Char × List Char → List Char
  | (whole, []) => whole ++ ['.', '0']
  | (whole, fraction) => whole ++ '.' :: fraction

theorem exists_literal_plain {ds : List Char} (h : Significant ds) (e : ℤ) (negative : Bool) :
    ∃ l : Literal, l.negative = negative ∧ l.body = pointed (spread ds e) ∧ StandsFor l ds e := by
  cases e with
  | ofNat k =>
    rw [Int.ofNat_eq_natCast]
    rcases le_or_gt ds.length (k + 1) with hshort | hlong
    · have hdigits : ds ++ List.replicate (k + 1 - ds.length) '0' ++ ['0']
          = List.replicate 0 '0' ++ (ds ++ List.replicate (k + 1 - ds.length + 1) '0') := by
        rw [List.replicate_succ', List.append_assoc]
        rfl
      have hpower : ((k + 1 - ds.length + 1 : ℕ) : ℤ) + (Exponent.value none - ['0'].length)
          = k + 1 - ds.length := by
        simp only [Exponent.value, List.length_singleton]
        omega
      obtain ⟨l, hnegative, hbody, hstands⟩ := exists_literal h hdigits
        (.inr ⟨by simp [h.ne_nil], rfl⟩) isDigit_none hpower negative
      refine ⟨l, hnegative, ?_, hstands⟩
      rw [spread_of_le hshort, hbody]
      rfl
    · have hdigits : ds.take (k + 1) ++ ds.drop (k + 1)
          = List.replicate 0 '0' ++ (ds ++ List.replicate 0 '0') := by
        simp
      have hpower : ((0 : ℕ) : ℤ) + (Exponent.value none - (ds.drop (k + 1)).length)
          = k + 1 - ds.length := by
        simp only [Exponent.value, List.length_drop]
        omega
      obtain ⟨l, hnegative, hbody, hstands⟩ := exists_literal h hdigits
        (.inr ⟨by simp [h.ne_nil], rfl⟩) isDigit_none hpower negative
      refine ⟨l, hnegative, ?_, hstands⟩
      rw [spread_of_lt hlong, hbody]
      cases hdrop : ds.drop (k + 1) with
      | nil =>
        rw [List.drop_eq_nil_iff] at hdrop
        omega
      | cons c cs => simp [pointed, fractionText, Exponent.text]
  | negSucc k =>
    have hdigits : ['0'] ++ (List.replicate k '0' ++ ds)
        = List.replicate (k + 1) '0' ++ (ds ++ List.replicate 0 '0') := by
      simp [List.replicate_succ]
    have hpower : ((0 : ℕ) : ℤ) + (Exponent.value none - (List.replicate k '0' ++ ds).length)
        = Int.negSucc k + 1 - ds.length := by
      simp only [Exponent.value, List.length_append, List.length_replicate]
      omega
    obtain ⟨l, hnegative, hbody, hstands⟩ :=
      exists_literal h hdigits (.inl rfl) isDigit_none hpower negative
    refine ⟨l, hnegative, ?_, hstands⟩
    rw [hbody]
    change _ = pointed (['0'], List.replicate k '0' ++ ds)
    cases htail : List.replicate k '0' ++ ds with
    | nil => exact absurd (List.append_eq_nil_iff.mp htail).2 h.ne_nil
    | cons c cs => simp [pointed, fractionText, Exponent.text]

theorem exists_literal_exponent {d : Char} {ds : List Char} (h : Significant (d :: ds)) (e : ℤ)
    (negative : Bool) :
    ∃ l : Literal, l.negative = negative
      ∧ l.body = d :: (fractionText ds
        ++ 'e' :: (if e < 0 then '-' else '+') :: digitsOf e.natAbs) ∧ StandsFor l (d :: ds) e := by
  have hdigits : [d] ++ ds = List.replicate 0 '0' ++ ((d :: ds) ++ List.replicate 0 '0') := by
    simp
  have hexponent (s : Bool) (ts : List Char)
      (hx : some (decide (e < 0), digitsOf e.natAbs) = some (s, ts)) :
      ts ≠ [] ∧ ∀ c ∈ ts, isDigit c = true := by
    cases hx
    exact ⟨Nat.toDigits_ne_nil, fun c => isDigit_of_mem_digitsOf⟩
  have hpower : ((0 : ℕ) : ℤ)
      + (Exponent.value (some (decide (e < 0), digitsOf e.natAbs)) - ds.length)
      = e + 1 - (d :: ds).length := by
    simp only [Exponent.value, valueOf_digitsOf, decide_eq_true_eq, List.length_cons]
    split_ifs <;> omega
  obtain ⟨l, hnegative, hbody, hstands⟩ := exists_literal h hdigits
    (.inr ⟨List.cons_ne_nil d [], rfl⟩) hexponent hpower negative
  refine ⟨l, hnegative, ?_, hstands⟩
  rw [hbody]
  simp [Exponent.text]

/-- The text of digits is a literal that stands for the same number. -/
theorem exists_literal_lay {d : Digits} (h : Significant d.digits) (negative : Bool) :
    ∃ l : Literal, l.negative = negative ∧ l.body = Layout.document.lay d
      ∧ StandsFor l d.digits d.exponent := by
  obtain ⟨ds, e⟩ := d
  unfold Layout.lay
  split
  · exact exists_literal_plain h e negative
  · match ds, h with
    | [], h => exact absurd rfl h.ne_nil
    | [c], h => exact exists_literal_exponent h e negative
    | c :: c' :: cs, h => exact exists_literal_exponent h e negative

/-! ### Reading -/

/-- What is read off the pattern of a double is its sign and its magnitude. -/
theorem ofFloat_of_isFinite {x : Float} (h : x.isFinite = true) :
    ∃ m e, Reading.ofFloat x = .finite ⟨decide (2 ^ 63 ≤ x.toBits.toNat), m, e⟩
      ∧ value x = (if 2 ^ 63 ≤ x.toBits.toNat then -(m * 2 ^ e : ℚ) else m * 2 ^ e)
      ∧ (m = 0 ∨ IsDouble m e) := by
  have hvalue := value_of_isNaN_eq_false (isNaN_of_isFinite h)
  have hlimit := (isFinite_iff (isNaN_of_isFinite h)).mp h
  have hlt : x.toBits.toNat < 2 ^ 64 := x.toBits.toNat_lt
  unfold Reading.ofFloat Reading.ofBits
  generalize x.toBits.toNat = bits at *
  have hfield : bits / Nat.pow 2 52 % Nat.pow 2 11 = bits % 2 ^ 63 / 2 ^ 52 := by
    change bits / 2 ^ 52 % 2 ^ 11 = _
    omega
  have hfraction : bits % Nat.pow 2 52 = bits % 2 ^ 63 % 2 ^ 52 := by
    change bits % 2 ^ 52 = _
    omega
  have hsign : decide (bits / Nat.pow 2 63 = 1) = decide (2 ^ 63 ≤ bits) := by
    rw [decide_eq_decide]
    change bits / 2 ^ 63 = 1 ↔ _
    omega
  have hsigned (y : ℚ) : signed (if bits < 2 ^ 63 then .positive else .negative) y
      = if 2 ^ 63 ≤ bits then -y else y := by
    by_cases hbits : bits < 2 ^ 63
    · rw [if_pos hbits, if_neg (by omega)]
      rfl
    · rw [if_neg hbits, if_pos (by omega)]
      rfl
  have hn : bits % 2 ^ 63 < 2 ^ 63 := Nat.mod_lt _ (by norm_num)
  rw [hsigned] at hvalue
  dsimp only
  rw [hfield, hfraction, hsign]
  generalize bits % 2 ^ 63 = n at *
  have hrest := Nat.mod_lt n (show 0 < 2 ^ 52 by norm_num)
  rcases eq_or_ne (n / 2 ^ 52) 0 with hsub | hnormal
  · rw [magnitude_of_subnormal hsub] at hvalue
    refine ⟨n % 2 ^ 52, -1074, ?_, hvalue, ?_⟩
    · rw [if_neg (by omega), if_pos hsub]
    · rcases Nat.eq_zero_or_pos (n % 2 ^ 52) with hzero | hpos
      · exact .inl hzero
      · exact .inr ⟨hpos, by omega, le_rfl, by norm_num, .inr rfl⟩
  · rw [magnitude_of_normal hnormal] at hvalue
    have hmax : n / 2 ^ 52 ≠ 2047 := by
      intro hones
      have hle := limit_le_magnitude (m := 2 ^ 52 + n % 2 ^ 52) (e := (n / 2 ^ 52 : ℕ) - 1075)
        (by omega) (by omega)
      rw [hvalue] at hlimit
      split_ifs at hlimit
      · rw [abs_neg] at hlimit
        exact absurd ((le_abs_self _).trans_lt hlimit) (not_lt.mpr hle)
      · exact absurd ((le_abs_self _).trans_lt hlimit) (not_lt.mpr hle)
    refine ⟨2 ^ 52 + n % 2 ^ 52, (n / 2 ^ 52 : ℕ) - 1075, ?_, hvalue, ?_⟩
    · rw [if_neg hmax, if_neg hnormal]
      rfl
    · exact .inr ⟨by omega, by omega, by omega, by omega, .inl (by omega)⟩

theorem two_zpow_lt_ten_zpow : (2 : ℚ) ^ (1076 : ℤ) < 10 ^ (330 : ℤ) := by
  have h : 2 ^ 1076 < 10 ^ 330 := by decide +kernel
  exact_mod_cast h

theorem inBasin_bounds {m : ℕ} {e : ℤ} {q : ℚ} (hd : IsDouble m e) (h : InBasin m e q) :
    (10 : ℚ) ^ (-330 : ℤ) ≤ q ∧ q < 10 ^ (330 : ℤ) := by
  have hm : (1 : ℚ) ≤ m := by exact_mod_cast hd.pos
  have hm' : (m : ℚ) ≤ 2 ^ 53 - 1 := by
    have : (m + 1 : ℚ) ≤ 2 ^ 53 := by exact_mod_cast hd.lt
    linarith
  have hb : (below m e : ℚ) ≤ 2 := by exact_mod_cast (below_bounds m e).2
  constructor
  · have hstep : (2 : ℚ) ^ (-1076 : ℤ) ≤ 2 ^ (e - 2) := two_zpow_le (by have := hd.low; omega)
    calc (10 : ℚ) ^ (-330 : ℤ) ≤ 2 ^ (-1076 : ℤ) := by
          rw [zpow_neg, zpow_neg]
          exact inv_anti₀ (two_zpow_pos _) two_zpow_lt_ten_zpow.le
      _ ≤ 2 * 2 ^ (-1076 : ℤ) := by linarith [two_zpow_pos (-1076)]
      _ ≤ (4 * m - below m e) * 2 ^ (e - 2) :=
        mul_le_mul (by linarith) hstep (two_zpow_pos _).le (by linarith)
      _ ≤ q := h.1
  · have hstep : (2 : ℚ) ^ (e - 2) ≤ 2 ^ (969 : ℤ) := two_zpow_le (by have := hd.high; omega)
    calc q ≤ (4 * m + 2) * 2 ^ (e - 2) := h.2.1
      _ ≤ 2 ^ 55 * 2 ^ (969 : ℤ) :=
        mul_le_mul (by linarith) hstep (two_zpow_pos _).le (by norm_num)
      _ = 2 ^ (1024 : ℤ) := by
        rw [← zpow_natCast, ← two_zpow_add]
        rfl
      _ ≤ 2 ^ (1076 : ℤ) := two_zpow_le (by norm_num)
      _ < 10 ^ (330 : ℤ) := two_zpow_lt_ten_zpow

/-- In the range of doubles a numeral is rounded once. -/
theorem rounds_nearest {s : ℕ} {k : ℤ} (hlow : (10 : ℚ) ^ (-330 : ℤ) ≤ s * 10 ^ k)
    (hhigh : (s * 10 ^ k : ℚ) < 10 ^ (330 : ℤ)) : Rounds (nearest s k) (s * 10 ^ k) := by
  have hten (j : ℤ) : (0 : ℚ) < 10 ^ j := zpow_pos (by norm_num) j
  have hpos : 0 < s := by
    by_contra hzero
    rw [Nat.eq_zero_of_not_pos hzero, Nat.cast_zero, zero_mul] at hlow
    exact absurd hlow (not_le.mpr (hten _))
  have hnotlow : ¬(digitCount s + k : ℤ) < -330 := by
    intro hlead
    have hdigits : (s : ℚ) < 10 ^ (digitCount s : ℤ) := by
      exact_mod_cast lt_ten_pow_digitCount s
    have hless := mul_lt_mul_of_pos_right hdigits (hten k)
    rw [← zpow_add₀ (by norm_num)] at hless
    have hmono : (10 : ℚ) ^ (digitCount s + k : ℤ) ≤ 10 ^ (-330 : ℤ) :=
      zpow_le_zpow_right₀ (by norm_num) hlead.le
    linarith
  have hnothigh : ¬(digitCount s + k : ℤ) > 330 := by
    intro hlead
    have hdigits : (10 : ℚ) ^ ((digitCount s - 1 : ℕ) : ℤ) ≤ s := by
      exact_mod_cast ten_pow_digitCount_le hpos
    have hmore := mul_le_mul_of_nonneg_right hdigits (hten k).le
    rw [← zpow_add₀ (by norm_num)] at hmore
    have hcount := digitCount_pos s
    have hmono : (10 : ℚ) ^ (330 : ℤ) ≤ 10 ^ (((digitCount s - 1 : ℕ) : ℤ) + k) :=
      zpow_le_zpow_right₀ (by norm_num) (by omega)
    linarith
  unfold nearest
  dsimp only
  rw [if_neg (by simp only [Bool.or_eq_true, decide_eq_true_eq]; omega), if_neg hnothigh]
  cases k with
  | ofNat j => exact rounds_ofScientific s false j
  | negSucc j => exact rounds_ofScientific s true (j + 1)

theorem isInf_eq_false {y : Float} (h : y.isFinite = true) : y.isInf = false := by
  change y.toModel.unpack.isFinite = true at h
  change y.toModel.unpack.isInf = false
  cases hu : y.toModel.unpack with
  | infinity s =>
    rw [hu] at h
    cases h
  | _ => rfl

theorem toFloat?_text {x : Float} {m : ℕ} {e : ℤ} (hx : x.isNaN = false) (hd : IsDouble m e)
    (l : Literal) (hvalue : value x = if l.negative then -(m * 2 ^ e : ℚ) else m * 2 ^ e)
    (hbasin : InBasin m e (valueOf (l.whole ++ l.fraction) * 10 ^ l.power)) :
    toFloat? l.text = some x := by
  obtain ⟨hlow, hhigh⟩ := inBasin_bounds hd hbasin
  have hrounds := rounds_nearest hlow hhigh
  have hpos := magnitude_pos hd.pos e
  unfold toFloat?
  rw [parts_text]
  dsimp only
  generalize nearest (valueOf (l.whole ++ l.fraction)) l.power = y at hrounds ⊢
  have hy : value y = m * 2 ^ e := hrounds.value_eq.trans (nearest_of_inBasin hd hbasin)
  have hfinite : y.isFinite = true := by
    rw [isFinite_iff hrounds.isNaN_eq, hy, abs_of_pos hpos]
    exact magnitude_lt_limit hd.lt hd.high
  rw [isInf_eq_false hfinite, if_neg Bool.false_ne_true]
  congr 1
  cases hnegative : l.negative with
  | true =>
    rw [hnegative, if_pos rfl] at hvalue
    refine eq_of_value_eq_of_ne_zero ((isNaN_neg y).trans hrounds.isNaN_eq) hx ?_ ?_
    · change value (-y) ≠ 0
      rw [value_neg, hy]
      exact neg_ne_zero.mpr hpos.ne'
    · change value (-y) = value x
      rw [value_neg, hy, hvalue]
  | false =>
    rw [hnegative, if_neg Bool.false_ne_true] at hvalue
    refine eq_of_value_eq_of_ne_zero hrounds.isNaN_eq hx ?_ ?_
    · change value y ≠ 0
      rw [hy]
      exact hpos.ne'
    · exact hy.trans hvalue.symm

/-- A zero is written with a point, and with its sign. -/
def zeroLiteral (negative : Bool) : Literal where
  negative := negative
  whole := ['0']
  fraction := ['0']
  exponent := none
  whole_ne_nil := List.cons_ne_nil _ _
  isDigit_whole := by simp [isDigit]
  whole_ne_zero := by simp
  isDigit_fraction := by simp [isDigit]
  isDigit_exponent := isDigit_none

theorem toFloat?_zeroLiteral {x : Float} (hx : x.isNaN = false) (hzero : value x = 0) :
    toFloat? (zeroLiteral (decide (2 ^ 63 ≤ x.toBits.toNat))).text = some x := by
  by_cases hsign : 2 ^ 63 ≤ x.toBits.toNat
  · have hread : toFloat? (zeroLiteral true).text = some (-0.0) := by decide +kernel
    rw [decide_eq_true hsign, hread]
    congr 1
    refine eq_of_value_eq rfl hx (iff_of_false (by decide) (not_lt.mpr hsign)) ?_
    exact hzero.symm
  · have hread : toFloat? (zeroLiteral false).text = some 0.0 := by decide +kernel
    rw [decide_eq_false hsign, hread]
    congr 1
    refine eq_of_value_eq rfl hx (iff_of_true (by decide) (not_le.mp hsign)) ?_
    exact hzero.symm

/-- The text of a finite double is a literal that reads back as the double. -/
theorem exists_document {x : Float} (h : x.isFinite = true) :
    ∃ l : Literal, document? x = some (String.ofList l.text) ∧ toFloat? l.text = some x := by
  have hx := isNaN_of_isFinite h
  obtain ⟨m, e, hreading, hvalue, hm⟩ := ofFloat_of_isFinite h
  unfold document?
  rw [hreading]
  dsimp only
  unfold Layout.finite
  dsimp only
  rcases hm with rfl | hd
  · refine ⟨zeroLiteral (decide (2 ^ 63 ≤ x.toBits.toNat)), ?_, toFloat?_zeroLiteral hx ?_⟩
    · rfl
    · rw [hvalue]
      simp
  · obtain ⟨k, p, hp, hbasin, hshortest⟩ := shortest_eq hd Layout.document.tie
    rw [hshortest]
    obtain ⟨l, hnegative, hbody, hstands⟩ := exists_literal_lay
      (d := ⟨stripZeros (digitsOf p), k + (digitsOf p).length - 1⟩) (significant_stripZeros hp)
      (decide (2 ^ 63 ≤ x.toBits.toNat))
    unfold StandsFor at hstands
    rw [valueOf_stripZeros] at hstands
    refine ⟨l, ?_, toFloat?_text hx hd l ?_ (hstands ▸ hbasin)⟩
    · rw [if_neg hd.pos.ne', ← hbody, Literal.text, hnegative]
    · rw [hvalue, hnegative]
      simp

theorem document?_of_not_isFinite {x : Float} (h : ¬x.isFinite = true) : document? x = none := by
  have hfield : x.toBits.toNat / Nat.pow 2 52 % Nat.pow 2 11 = 2047 := by
    have hexponent : x.toBits.toNat % 2 ^ 63 / 2 ^ 52 = 2047 := by
      by_contra hne
      exact h (isFinite_unpack hne)
    change x.toBits.toNat / 2 ^ 52 % 2 ^ 11 = 2047
    omega
  unfold document? Reading.ofFloat Reading.ofBits
  simp only [hfield, if_true]
  split_ifs <;> rfl

end Numeral

/-! ### Readers -/

namespace NumberReader

/-- The text of a double is read as a given double. -/
def ReadsAs [NumberReader] (x y : Float) : Prop :=
  ∃ s, document? x = some s ∧ read? s.toList = some y

/-- The text of a double is read as the same double. -/
def Keeps [NumberReader] (x : Float) : Prop := ReadsAs x x

/-- Every finite double comes back from its text. -/
class ReadsBack [NumberReader] : Prop where
  keeps : ∀ {x : Float}, x.isFinite = true → Keeps x

instance : ReadsBack where
  keeps h := by
    obtain ⟨l, hdocument, hread⟩ := Numeral.exists_document h
    refine ⟨_, hdocument, ?_⟩
    rw [String.toList_ofList]
    exact hread

end NumberReader

end BinGrade.Json
