import BinGrade.Decimal.Text
import BinGrade.Proofs.Binary64.Accuracy

/-!
# Basins of doubles

The decimals that are written for a double lie in the interval of numbers that round to it. Between
two neighbours on the grid of seventeen digits there is less than one step of the doubles, so one of
them lies in that interval, and the search for a decimal never comes back empty.
-/

namespace BinGrade.Decimal

open Binary64

/-- The mantissas and exponents of positive doubles. -/
structure IsDouble (m : ℕ) (e : ℤ) : Prop where
  pos : 0 < m
  lt : m < 2 ^ 53
  low : -1074 ≤ e
  high : e ≤ 971
  full : 2 ^ 52 ≤ m ∨ e = -1074

/-! ### What rounds to a double -/

/-- How far a basin reaches below its number, in quarters of a step. -/
def below (m : ℕ) (e : ℤ) : ℕ := if m = Nat.pow 2 52 && e > -1074 then 1 else 2

/-- A number between the ends of a basin, which belong to it if the mantissa is even. -/
def InBasin (m : ℕ) (e : ℤ) (x : ℚ) : Prop :=
  (4 * m - below m e) * 2 ^ (e - 2) ≤ x ∧ x ≤ (4 * m + 2) * 2 ^ (e - 2)
    ∧ (m % 2 = 1 → (4 * m - below m e) * 2 ^ (e - 2) < x ∧ x < (4 * m + 2) * 2 ^ (e - 2))

variable {m : ℕ} {e : ℤ} {x : ℚ}

theorem below_bounds (m : ℕ) (e : ℤ) : 1 ≤ below m e ∧ below m e ≤ 2 := by
  unfold below
  split <;> omega

theorem roundEven_eq {y : ℚ} {n : ℤ} (hlow : n - 1 / 2 ≤ y) (hhigh : y ≤ n + 1 / 2)
    (hodd : n % 2 = 1 → n - 1 / 2 < y ∧ y < n + 1 / 2) : roundEven y = n := by
  rcases lt_or_ge y n with hlt | hge
  · have hfloor : ⌊y⌋ = n - 1 := by
      rw [Int.floor_eq_iff]
      push_cast
      constructor <;> linarith
    have hfract : Int.fract y = y - n + 1 := by
      unfold Int.fract
      rw [hfloor]
      push_cast
      ring
    unfold roundEven
    rw [hfract, hfloor, if_neg (by linarith)]
    split_ifs with hup
    · omega
    · have htie : ¬n % 2 = 1 := by
        intro h
        linarith [(hodd h).1]
      omega
  · have hfloor : ⌊y⌋ = n := by
      rw [Int.floor_eq_iff]
      constructor <;> linarith
    have hfract : Int.fract y = y - n := by
      unfold Int.fract
      rw [hfloor]
    unfold roundEven
    rw [hfract, hfloor]
    split_ifs with hdown hup
    · rfl
    · linarith
    · have htie : ¬n % 2 = 1 := by
        intro h
        linarith [(hodd h).2]
      omega

theorem gridExponent_eq {g : ℤ} (hx : 0 < x) (hlow : -1074 ≤ g) (hlt : x < 2 ^ (g + 53))
    (hle : 2 ^ (g + 52) ≤ x ∨ g = -1074) : gridExponent x = g := by
  have hlog := (Int.lt_zpow_iff_log_lt (by norm_num : 1 < 2) hx).mp (by exact_mod_cast hlt)
  unfold gridExponent
  rw [abs_of_pos hx]
  rcases hle with hle | rfl
  · have hlog' := (Int.zpow_le_iff_le_log (by norm_num : 1 < 2) hx).mp (by exact_mod_cast hle)
    omega
  · omega

theorem two_zpow_split (e : ℤ) (n : ℕ) : (2 : ℚ) ^ (e - 2 + n) = 2 ^ n * 2 ^ (e - 2) := by
  rw [two_zpow_add, zpow_natCast, mul_comm]

theorem two_zpow_quarters (e : ℤ) : (2 : ℚ) ^ e = 4 * 2 ^ (e - 2) := by
  have h := two_zpow_split e 2
  norm_num at h
  exact h

/-- Where the step is that of the double, the basin reaches at most half a step to each side. -/
theorem toGrid_of_full (hd : IsDouble m e) (hx : InBasin m e x) (hpos : 0 < x)
    (hfull : 2 ^ (e + 52) ≤ x ∨ e = -1074) : toGrid x = m * 2 ^ e := by
  obtain ⟨hlow, hhigh, hopen⟩ := hx
  have hs := two_zpow_pos (e - 2)
  have hb2 : (below m e : ℚ) ≤ 2 := by exact_mod_cast (below_bounds m e).2
  have hgrid : gridExponent x = e := by
    refine gridExponent_eq hpos hd.low ?_ hfull
    have hmax : (m : ℚ) + 1 ≤ 2 ^ 53 := by exact_mod_cast hd.lt
    rw [show e + 53 = e - 2 + (55 : ℕ) by push_cast; ring, two_zpow_split]
    exact hhigh.trans_lt (mul_lt_mul_of_pos_right (by linarith) hs)
  have hquotient : x / 2 ^ e * 4 = x / 2 ^ (e - 2) := by
    rw [two_zpow_quarters e]
    field_simp
  have hround : roundEven (x / 2 ^ e) = (m : ℤ) := by
    rw [← le_div_iff₀ hs] at hlow
    rw [← div_le_iff₀ hs] at hhigh
    rw [← lt_div_iff₀ hs, ← div_lt_iff₀ hs] at hopen
    refine roundEven_eq ?_ ?_ ?_
    · push_cast
      linarith
    · push_cast
      linarith
    · intro hodd
      obtain ⟨hleft, hright⟩ := hopen (by omega)
      push_cast
      constructor <;> linarith
  unfold toGrid
  rw [hgrid, hround]
  rfl

/-- Below a power of two the step is halved, and so is the reach of its basin. -/
theorem toGrid_of_below_power (hd : IsDouble m e) (hx : InBasin m e x) (hpos : 0 < x)
    (hlt : x < 2 ^ (e + 52)) (he : e ≠ -1074) : toGrid x = m * 2 ^ e := by
  obtain ⟨hlow, _, _⟩ := hx
  have hs := two_zpow_pos (e - 2)
  have hb2 : (below m e : ℚ) ≤ 2 := by exact_mod_cast (below_bounds m e).2
  rw [show e + 52 = e - 2 + (54 : ℕ) by push_cast; ring, two_zpow_split] at hlt
  have hm : m = 2 ^ 52 := by
    have hle := hd.full.resolve_right he
    have hquarters : (4 * m - below m e : ℚ) < 2 ^ 54 :=
      lt_of_mul_lt_mul_right (hlow.trans_lt hlt) hs.le
    have hless : (4 * m : ℚ) < 2 ^ 54 + 2 := by linarith
    have hnat : 4 * m < 2 ^ 54 + 2 := by exact_mod_cast hless
    omega
  have hb : below m e = 1 := by
    have := hd.low
    simp only [below, hm]
    rw [if_pos]
    simp
    omega
  subst hm
  rw [hb] at hlow
  norm_num at hlow hlt
  have hhalf : (2 : ℚ) ^ (e - 1) = 2 * 2 ^ (e - 2) := by
    have h := two_zpow_split e 1
    rw [show e - 2 + (1 : ℕ) = e - 1 by push_cast; ring, pow_one] at h
    exact h
  have hgrid : gridExponent x = e - 1 := by
    have := hd.low
    refine gridExponent_eq hpos (by omega) ?_ (.inl ?_)
    · rw [show e - 1 + 53 = e - 2 + (54 : ℕ) by push_cast; ring, two_zpow_split]
      linarith
    · rw [show e - 1 + 52 = e - 2 + (53 : ℕ) by push_cast; ring, two_zpow_split]
      linarith
  have hround : roundEven (x / 2 ^ (e - 1)) = (2 ^ 53 : ℤ) := by
    refine roundEven_eq ?_ ?_ (by norm_num)
    · rw [hhalf, le_div_iff₀ (by positivity)]
      push_cast
      linarith
    · rw [hhalf, div_le_iff₀ (by positivity)]
      push_cast
      linarith
  unfold toGrid
  rw [hgrid, hround, hhalf, two_zpow_quarters e]
  push_cast
  ring

theorem pos_of_inBasin (hd : IsDouble m e) (hx : InBasin m e x) : 0 < x := by
  have hm : (1 : ℚ) ≤ m := by exact_mod_cast hd.pos
  have hb2 : (below m e : ℚ) ≤ 2 := by exact_mod_cast (below_bounds m e).2
  exact lt_of_lt_of_le (mul_pos (by linarith) (two_zpow_pos _)) hx.1

theorem toGrid_of_inBasin (hd : IsDouble m e) (hx : InBasin m e x) : toGrid x = m * 2 ^ e := by
  have hpos := pos_of_inBasin hd hx
  by_cases hfull : 2 ^ (e + 52) ≤ x ∨ e = -1074
  · exact toGrid_of_full hd hx hpos hfull
  · push Not at hfull
    exact toGrid_of_below_power hd hx hpos hfull.1 hfull.2

theorem nearest_of_inBasin (hd : IsDouble m e) (hx : InBasin m e x) : nearest x = m * 2 ^ e := by
  have hlimit := magnitude_lt_limit hd.lt hd.high
  have hpos := magnitude_pos hd.pos e
  unfold nearest
  rw [toGrid_of_inBasin hd hx, min_eq_right hlimit.le, max_eq_right (by linarith)]

/-! ### Decimals near a double -/

section Grid

theorem Fraction.scaled_eq (m : ℕ) (e : ℤ) :
    0 < (scaled m e).den ∧ ((scaled m e).num : ℚ) / (scaled m e).den = m * 2 ^ e := by
  cases e with
  | ofNat k =>
    refine ⟨Nat.one_pos, ?_⟩
    simp [scaled]
  | negSucc k =>
    refine ⟨Nat.two_pow_pos _, ?_⟩
    simp [scaled, zpow_negSucc, div_eq_mul_inv]

theorem Basin.of_eq (m : ℕ) (e : ℤ) :
    Basin.of m e = ⟨(4 * m - below m e) * (Fraction.scaled 1 (e - 2)).num,
      4 * m * (Fraction.scaled 1 (e - 2)).num, (4 * m + 2) * (Fraction.scaled 1 (e - 2)).num,
      (Fraction.scaled 1 (e - 2)).den, m % 2 = 0⟩ := rfl

theorem scaled_eq_div {n u d scale : ℕ} (hd : 0 < d) (hscale : 0 < scale) :
    (n * (u / d) : ℚ) = ((n * u * scale : ℕ) : ℚ) / (scale * d) := by
  have hd' : (d : ℚ) ≠ 0 := by exact_mod_cast hd.ne'
  have hscale' : (scale : ℚ) ≠ 0 := by exact_mod_cast hscale.ne'
  push_cast
  field_simp

theorem holds_iff (hd : IsDouble m e) {num scale : ℕ} (hscale : 0 < scale) :
    (Basin.of m e).holds num scale = true
      ↔ InBasin m e (num / (scale * (Basin.of m e).den)) := by
  obtain ⟨hden, hunit⟩ := Fraction.scaled_eq 1 (e - 2)
  rw [Nat.cast_one, one_mul] at hunit
  rw [Basin.of_eq]
  generalize (Fraction.scaled 1 (e - 2)).num = u at *
  generalize (Fraction.scaled 1 (e - 2)).den = d at *
  have hwhole : (0 : ℚ) < scale * d := by exact_mod_cast Nat.mul_pos hscale hden
  have hle (a b : ℕ) : (a : ℚ) / (scale * d) ≤ b / (scale * d) ↔ a ≤ b := by
    rw [div_le_div_iff_of_pos_right hwhole, Nat.cast_le]
  have hlt (a b : ℕ) : (a : ℚ) / (scale * d) < b / (scale * d) ↔ a < b := by
    rw [div_lt_div_iff_of_pos_right hwhole, Nat.cast_lt]
  have hlow : (4 * m - below m e : ℚ) = (4 * m - below m e : ℕ) := by
    have hpos := hd.pos
    have := (below_bounds m e).2
    rw [Nat.cast_sub (by omega)]
    push_cast
    rfl
  have hhigh : (4 * m + 2 : ℚ) = (4 * m + 2 : ℕ) := by push_cast; rfl
  unfold InBasin
  rw [← hunit, hlow, hhigh, scaled_eq_div hden hscale, scaled_eq_div hden hscale]
  simp only [hle, hlt, Basin.holds]
  rcases Nat.mod_two_eq_zero_or_one m with heven | hodd
  · simp [heven]
  · simp only [hodd, one_ne_zero, decide_false, Bool.false_eq_true, if_false, Bool.and_eq_true,
      decide_eq_true_eq, forall_const]
    omega

theorem Fraction.powerOfTen_eq (k : ℤ) : 0 < (powerOfTen k).num ∧ 0 < (powerOfTen k).den
    ∧ ((powerOfTen k).num : ℚ) / (powerOfTen k).den = 10 ^ k := by
  cases k with
  | ofNat j => exact ⟨Nat.pow_pos (by norm_num), Nat.one_pos, by simp [powerOfTen]⟩
  | negSucc j =>
    exact ⟨Nat.one_pos, Nat.pow_pos (by norm_num), by simp [powerOfTen, zpow_negSucc]⟩

/-- The neighbour below a number on a grid. -/
def Basin.down (b : Basin) (k : ℤ) : ℕ :=
  b.value * (Fraction.powerOfTen k).den / ((Fraction.powerOfTen k).num * b.den)

/-- Whether a point of a grid rounds to the number. -/
def Basin.holdsAt (b : Basin) (k : ℤ) (n : ℕ) : Bool :=
  b.holds (n * (Fraction.powerOfTen k).num * b.den) (Fraction.powerOfTen k).den

/-- A search on a grid looks at the two neighbours of the number and takes one that rounds to it. -/
theorem onGrid_cases (b : Basin) (tie : Tie) (k : ℤ) :
    (∃ p, b.onGrid tie k = some p ∧ (p = b.down k ∨ p = b.down k + 1) ∧ b.holdsAt k p = true)
      ∨ b.onGrid tie k = none ∧ b.holdsAt k (b.down k) = false
        ∧ b.holdsAt k (b.down k + 1) = false := by
  unfold Basin.onGrid
  dsimp only
  split
  · next hdown hup => exact .inr ⟨rfl, hdown, hup⟩
  · next hdown hup => exact .inl ⟨_, rfl, .inl rfl, hdown⟩
  · next hdown hup => exact .inl ⟨_, rfl, .inr rfl, hup⟩
  · next hdown hup =>
    split
    · exact .inl ⟨_, rfl, .inl rfl, hdown⟩
    split
    · exact .inl ⟨_, rfl, .inr rfl, hup⟩
    cases tie with
    | up => exact .inl ⟨_, rfl, .inr rfl, hup⟩
    | toEven =>
      dsimp only
      split
      · exact .inl ⟨_, rfl, .inl rfl, hdown⟩
      · exact .inl ⟨_, rfl, .inr rfl, hup⟩

section Neighbours

variable (hd : IsDouble m e) (k : ℤ)

include hd

theorem holdsAt_iff (n : ℕ) :
    (Basin.of m e).holdsAt k n = true ↔ InBasin m e (n * 10 ^ k) := by
  obtain ⟨_, hden, hten⟩ := Fraction.powerOfTen_eq k
  have hbden : 0 < (Basin.of m e).den := (Fraction.scaled_eq 1 (e - 2)).1
  have hplace : (n * 10 ^ k : ℚ) = ((n * (Fraction.powerOfTen k).num * (Basin.of m e).den : ℕ) : ℚ)
      / ((Fraction.powerOfTen k).den * (Basin.of m e).den) := by
    have hb : ((Basin.of m e).den : ℚ) ≠ 0 := by exact_mod_cast hbden.ne'
    have hg : ((Fraction.powerOfTen k).den : ℚ) ≠ 0 := by exact_mod_cast hden.ne'
    rw [← hten]
    push_cast
    field_simp
  rw [hplace]
  exact holds_iff hd hden

omit hd in
theorem value_of_eq (m : ℕ) (e : ℤ) :
    ((Basin.of m e).value : ℚ) / (Basin.of m e).den = m * 2 ^ e := by
  obtain ⟨_, hunit⟩ := Fraction.scaled_eq 1 (e - 2)
  rw [Nat.cast_one, one_mul] at hunit
  rw [Basin.of_eq, two_zpow_quarters e, ← hunit]
  push_cast
  ring

omit hd in
theorem down_spec (m : ℕ) (e : ℤ) : (((Basin.of m e).down k : ℕ) : ℚ) * 10 ^ k ≤ m * 2 ^ e
    ∧ (m * 2 ^ e : ℚ) < ((Basin.of m e).down k + 1) * 10 ^ k := by
  obtain ⟨hnum, hden, hten⟩ := Fraction.powerOfTen_eq k
  have hbden : 0 < (Basin.of m e).den := (Fraction.scaled_eq 1 (e - 2)).1
  have hwhole := Nat.mul_pos hnum hbden
  have hb : (0 : ℚ) < (Basin.of m e).den := by exact_mod_cast hbden
  have hg : (0 : ℚ) < (Fraction.powerOfTen k).den := by exact_mod_cast hden
  have hlow : (((Basin.of m e).down k * ((Fraction.powerOfTen k).num * (Basin.of m e).den) : ℕ) : ℚ)
      ≤ ((Basin.of m e).value * (Fraction.powerOfTen k).den : ℕ) :=
    Nat.cast_le.mpr (Nat.div_mul_le_self _ _)
  have hhigh : (((Basin.of m e).value * (Fraction.powerOfTen k).den : ℕ) : ℚ)
      < ((Fraction.powerOfTen k).num * (Basin.of m e).den * ((Basin.of m e).down k + 1) : ℕ) :=
    Nat.cast_lt.mpr (Nat.lt_mul_div_succ _ hwhole)
  push_cast at hlow hhigh
  rw [← value_of_eq, ← hten, mul_div_assoc', mul_div_assoc', div_le_div_iff₀ hg hb,
    div_lt_div_iff₀ hb hg]
  constructor <;> linarith

theorem ten_zpow_lt (hfine : 10 ^ k * 10 ^ 16 ≤ (m * 2 ^ e : ℚ)) :
    (10 : ℚ) ^ k < 2 * below m e * 2 ^ (e - 2) := by
  have hs := two_zpow_pos (e - 2)
  rw [two_zpow_quarters] at hfine
  by_cases hpower : m = Nat.pow 2 52 ∧ e > -1074
  · have hb : below m e = 1 := by simp [below, hpower]
    have hm : (m : ℚ) = 2 ^ 52 := by
      rw [hpower.1]
      norm_num
    rw [hb]
    rw [hm] at hfine
    push_cast
    linarith
  · have hb : below m e = 2 := by
      unfold below
      rw [if_neg]
      simpa using hpower
    have hm : (m : ℚ) < 2 ^ 53 := by exact_mod_cast hd.lt
    have := mul_lt_mul_of_pos_right hm hs
    rw [hb]
    push_cast
    linarith

/-- On a grid of seventeen digits the neighbours are less than twice the reach of the basin apart. -/
theorem holdsAt_neighbour (hfine : 10 ^ k * 10 ^ 16 ≤ (m * 2 ^ e : ℚ)) :
    (Basin.of m e).holdsAt k ((Basin.of m e).down k) = true
      ∨ (Basin.of m e).holdsAt k ((Basin.of m e).down k + 1) = true := by
  have hs := two_zpow_pos (e - 2)
  have hstep := ten_zpow_lt hd k hfine
  obtain ⟨hdown, hup⟩ := down_spec k m e
  rw [holdsAt_iff hd, holdsAt_iff hd]
  generalize (Basin.of m e).down k = n at *
  have hb : (1 : ℚ) ≤ below m e ∧ (below m e : ℚ) ≤ 2 := by exact_mod_cast below_bounds m e
  obtain ⟨hb1, hb2⟩ := hb
  have hreach : (below m e : ℚ) * 2 ^ (e - 2) ≤ 2 * 2 ^ (e - 2) :=
    mul_le_mul_of_nonneg_right hb2 hs.le
  have hreach' := mul_pos (zero_lt_one.trans_le hb1) hs
  rw [two_zpow_quarters] at hdown hup
  have hlow : (4 * m - below m e : ℚ) * 2 ^ (e - 2)
      = m * (4 * 2 ^ (e - 2)) - below m e * 2 ^ (e - 2) := by ring
  have hhigh : (4 * m + 2 : ℚ) * 2 ^ (e - 2) = m * (4 * 2 ^ (e - 2)) + 2 * 2 ^ (e - 2) := by ring
  unfold InBasin
  rw [hlow, hhigh]
  push_cast
  by_cases hnear : m * (4 * 2 ^ (e - 2)) - n * 10 ^ k < (below m e : ℚ) * 2 ^ (e - 2)
  · have h : (m * (4 * 2 ^ (e - 2)) - below m e * 2 ^ (e - 2) : ℚ) < n * 10 ^ k
        ∧ (n * 10 ^ k : ℚ) < m * (4 * 2 ^ (e - 2)) + 2 * 2 ^ (e - 2) := by
      constructor <;> linarith
    exact .inl ⟨h.1.le, h.2.le, fun _ => h⟩
  · have h : (m * (4 * 2 ^ (e - 2)) - below m e * 2 ^ (e - 2) : ℚ) < (n + 1) * 10 ^ k
        ∧ ((n + 1) * 10 ^ k : ℚ) < m * (4 * 2 ^ (e - 2)) + 2 * 2 ^ (e - 2) := by
      constructor <;> linarith
    exact .inr ⟨h.1.le, h.2.le, fun _ => h⟩

end Neighbours

end Grid

/-! ### The search -/

theorem digitCount_pos (n : ℕ) : 0 < digitCount n :=
  List.length_pos_of_ne_nil Nat.toDigits_ne_nil

theorem lt_ten_pow_digitCount (n : ℕ) : n < 10 ^ digitCount n :=
  (Nat.length_toDigits_le_iff (by norm_num) (digitCount_pos n)).mp le_rfl

theorem ten_pow_digitCount_le {n : ℕ} (h : 0 < n) : 10 ^ (digitCount n - 1) ≤ n := by
  rcases Nat.eq_zero_or_pos (digitCount n - 1) with hone | hmore
  · rw [hone]
    exact h
  · by_contra hlt
    have hshort := (Nat.length_toDigits_le_iff (by norm_num) hmore).mpr (not_le.mp hlt)
    change digitCount n ≤ digitCount n - 1 at hshort
    omega

theorem Fraction.ten_zpow_leading_le {q : Fraction} (hnum : 0 < q.num) (hden : 0 < q.den) :
    (10 : ℚ) ^ q.leading ≤ q.num / q.den := by
  have hden' : (0 : ℚ) < q.den := by exact_mod_cast hden
  -- below one, the power is that of a whole number which the denominator does not exceed
  have hsmall {j : ℕ} (h : q.den ≤ q.num * 10 ^ j) : (10 : ℚ) ^ (-(j : ℤ)) ≤ q.num / q.den := by
    rw [zpow_neg, zpow_natCast, inv_le_iff_one_le_mul₀ (by positivity), div_mul_eq_mul_div,
      one_le_div hden']
    exact_mod_cast h
  unfold leading
  split
  · next hle =>
    have hwhole := ten_pow_digitCount_le (Nat.div_pos hle hden)
    have hcast : ((digitCount (q.num / q.den) : ℤ) - 1)
        = ((digitCount (q.num / q.den) - 1 : ℕ) : ℤ) := by
      have := digitCount_pos (q.num / q.den)
      omega
    rw [hcast, zpow_natCast, le_div_iff₀ hden']
    exact_mod_cast (Nat.le_div_iff_mul_le hden).mp hwhole
  · dsimp only
    split
    · next hle =>
      have hcast : ((digitCount (q.den / q.num) : ℤ) - 1)
          = ((digitCount (q.den / q.num) - 1 : ℕ) : ℤ) := by
        have := digitCount_pos (q.den / q.num)
        omega
      rw [hcast]
      exact hsmall hle
    · have hlt := (Nat.div_lt_iff_lt_mul hnum).mp (lt_ten_pow_digitCount (q.den / q.num))
      rw [mul_comm] at hlt
      exact hsmall hlt.le

theorem search_eq {b : Basin} {tie : Tie} {lead : ℤ} {ns : List ℕ}
    (h : ∃ n ∈ ns, b.onGrid tie (lead + 1 - (n : ℤ)) ≠ none) :
    ∃ k p, b.onGrid tie k = some p ∧ b.search tie lead ns
      = ⟨stripZeros (digitsOf p), k + (digitsOf p).length - 1⟩ := by
  induction ns with
  | nil => simp at h
  | cons n finer ih =>
    unfold Basin.search
    dsimp only
    cases hgrid : b.onGrid tie (lead + 1 - (n : ℤ)) with
    | some p => exact ⟨_, p, hgrid, rfl⟩
    | none =>
      apply ih
      obtain ⟨j, hj, hsome⟩ := h
      rcases List.mem_cons.mp hj with rfl | hj
      · exact absurd hgrid hsome
      · exact ⟨j, hj, hsome⟩

/-- The digits that are found for a double are those of a decimal that rounds to it. -/
theorem shortest_eq (hd : IsDouble m e) (tie : Tie) :
    ∃ (k : ℤ) (p : ℕ), 0 < p ∧ InBasin m e (p * 10 ^ k)
      ∧ shortest tie m e = ⟨stripZeros (digitsOf p), k + (digitsOf p).length - 1⟩ := by
  obtain ⟨hden, hvalue⟩ := Fraction.scaled_eq m e
  have hnum : 0 < (Fraction.scaled m e).num := by
    have := magnitude_pos hd.pos e
    rw [← hvalue] at this
    by_contra hzero
    simp [Nat.eq_zero_of_not_pos hzero] at this
  have hlead := Fraction.ten_zpow_leading_le hnum hden
  rw [hvalue] at hlead
  have hsome : (Basin.of m e).onGrid tie ((Fraction.scaled m e).leading + 1 - ((17 : ℕ) : ℤ))
      ≠ none := by
    intro hnone
    have hfine : 10 ^ ((Fraction.scaled m e).leading + 1 - ((17 : ℕ) : ℤ)) * 10 ^ 16
        ≤ (m * 2 ^ e : ℚ) := by
      rw [← zpow_natCast, ← zpow_add₀ (by norm_num)]
      refine le_of_eq_of_le (congrArg _ ?_) hlead
      push_cast
      ring
    rcases onGrid_cases (Basin.of m e) tie ((Fraction.scaled m e).leading + 1 - ((17 : ℕ) : ℤ)) with
      ⟨p, hp, _⟩ | ⟨_, hdown, hup⟩
    · rw [hnone] at hp
      cases hp
    · rcases holdsAt_neighbour hd _ hfine with h | h
      · rw [hdown] at h
        cases h
      · rw [hup] at h
        cases h
  have hmem : 17 ∈ (List.range 17).map (· + 1) := by decide
  obtain ⟨k, p, hgrid, hsearch⟩ := search_eq ⟨17, hmem, hsome⟩
  have hholds : (Basin.of m e).holdsAt k p = true := by
    rcases onGrid_cases (Basin.of m e) tie k with ⟨p', hp', _, hholds⟩ | ⟨hnone, _⟩
    · rw [hgrid] at hp'
      cases hp'
      exact hholds
    · rw [hgrid] at hnone
      cases hnone
  have hbasin := (holdsAt_iff hd k p).mp hholds
  refine ⟨k, p, ?_, hbasin, hsearch⟩
  by_contra hzero
  have := pos_of_inBasin hd hbasin
  simp [Nat.eq_zero_of_not_pos hzero] at this

end BinGrade.Decimal
