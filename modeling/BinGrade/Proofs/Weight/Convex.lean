import BinGrade.Proofs.Moment.ZeroWeight
import BinGrade.Proofs.Scalar.Exact

/-!
# Convex blends

Without rounding, the weights of an evaluation are a convex combination of those of the use and of
the signals that pull. The pulls are cut down in proportion to a bound that is at most one, so the
use keeps the rest; the blend then sums to one, and scaling it changes nothing.
-/

namespace BinGrade

open Exact

variable {f : Elementary}

/-! ### Exact weights -/

namespace Weights

/-- Weights that are shares of one. -/
structure Convex (w : Weights (Exact f)) : Prop where
  nonneg : ∀ m, 0.0 ≤ w.get m
  sum_eq : w.sum = 1.0

def numbers (q : PerMoment ℚ) : Weights (Exact f) := q.map .number

@[simp] theorem get_numbers (q : PerMoment ℚ) (m : Moment) :
    (numbers q : Weights (Exact f)).get m = .number (q.get m) :=
  PerMoment.get_map ..

theorem sum_numbers (q : PerMoment ℚ) : (numbers q : Weights (Exact f)).sum = .number q.toList.sum :=
  total_number q.toList

theorem exists_eq_numbers {w : Weights (Exact f)} {q : ℚ} (h : w.sum = .number q) :
    ∃ p, w = numbers p := by
  have hmembers := PerMoment.forall_mem_toList.mp (exists_numbers_of_foldl_add h).2
  choose p hp using hmembers
  exact ⟨.of p, PerMoment.eq_of_get fun m => by rw [hp m, get_numbers, PerMoment.get_of]⟩

theorem convex_numbers_iff {q : PerMoment ℚ} :
    (numbers q : Weights (Exact f)).Convex ↔ (∀ m, 0 ≤ q.get m) ∧ q.toList.sum = 1 := by
  constructor
  · intro h
    have hnonneg := h.nonneg
    have hsum := h.sum_eq
    simp only [get_numbers, zero_eq, number_le] at hnonneg
    rw [sum_numbers, one_eq] at hsum
    exact ⟨hnonneg, Exact.number.inj hsum⟩
  · rintro ⟨hnonneg, hsum⟩
    refine ⟨?_, by rw [sum_numbers, hsum, one_eq]⟩
    simpa only [get_numbers, zero_eq, number_le] using hnonneg

theorem Convex.exists_numbers {w : Weights (Exact f)} (h : w.Convex) :
    ∃ q, w = numbers q ∧ (∀ m, 0 ≤ q.get m) ∧ q.toList.sum = 1 := by
  obtain ⟨q, rfl⟩ := exists_eq_numbers (h.sum_eq.trans (one_eq f))
  exact ⟨q, rfl, convex_numbers_iff.mp h⟩

theorem get_le_sum {q : PerMoment ℚ} (h : ∀ m, 0 ≤ q.get m) (m : Moment) :
    q.get m ≤ q.toList.sum := by
  apply List.single_le_sum (PerMoment.forall_mem_toList.mpr h)
  cases m <;> simp [PerMoment.toList, PerMoment.get]

theorem checkComponents_numbers {q : PerMoment ℚ} (h : ∀ m, 0 ≤ q.get m) :
    (numbers q : Weights (Exact f)).checkComponents = .ok () := by
  rw [checkComponents_eq_ok_iff]
  intro m
  simp [isUsable, h m]

theorem Convex.check {w : Weights (Exact f)} (h : w.Convex) : w.check = .ok w := by
  obtain ⟨q, rfl, hnonneg, hsum⟩ := h.exists_numbers
  have htolerance : ¬(sumTolerance : Exact f) < number 0 := by
    change ¬(number _ : Exact f) < number 0
    norm_num
  unfold Weights.check
  rw [checkComponents_numbers hnonneg, sum_numbers, hsum]
  simp [bind, Except.bind, htolerance, pure, Except.pure]

theorem normalize_numbers {q : PerMoment ℚ} (hnonneg : ∀ m, 0 ≤ q.get m)
    (hsum : q.toList.sum = 1) :
    (numbers q : Weights (Exact f)).normalize = .ok (numbers q) := by
  have hscaled : (numbers q : Weights (Exact f)).map (fun x => x / number 1) = numbers q := by
    apply PerMoment.eq_of_get
    intro m
    rw [PerMoment.get_map, get_numbers, number_div _ _ one_ne_zero, div_one]
  unfold normalize
  rw [checkComponents_numbers hnonneg, sum_numbers, hsum]
  simp [bind, Except.bind, hscaled, pure, Except.pure]

end Weights

/-! ### Strengths -/

namespace WeightEngine

/-- What a bound leaves of a strength. -/
def factor (bound both : ℚ) : ℚ := if bound < both then bound / both else 1

section Factor

variable {bound both : ℚ}

theorem factor_nonneg (hbound : 0 ≤ bound) : 0 ≤ factor bound both := by
  unfold factor
  split
  · next h => exact div_nonneg hbound (hbound.trans h.le)
  · exact zero_le_one

theorem mul_factor_of_lt (hbound : 0 ≤ bound) (h : bound < both) :
    both * factor bound both = bound := by
  rw [factor, if_pos h]
  exact mul_div_cancel₀ bound (hbound.trans_lt h).ne'

theorem mul_factor_le (hbound : 0 ≤ bound) : both * factor bound both ≤ bound := by
  by_cases h : bound < both
  · exact (mul_factor_of_lt hbound h).le
  · rw [factor, if_neg h, mul_one]
    exact not_lt.mp h

end Factor

/-- The strengths of the two pulls before any bound. -/
def unbounded (e : WeightEngine (Exact f)) (distribution objective : Option (Exact f)) :
    Strengths (Exact f) :=
  ⟨strength e.influence.distribution distribution, strength e.influence.objective objective⟩

theorem exists_strength_eq {i : ℚ} (hi : 0 ≤ i) (c : Option (Exact f)) :
    ∃ q, 0 ≤ q ∧ strength (number i) c = number q ∧ (c = none → q = 0) := by
  cases c with
  | none => exact ⟨0, le_rfl, by simp [strength], fun _ => rfl⟩
  | some c =>
    obtain ⟨u, hu, -, hunit⟩ := exists_unit_eq c
    exact ⟨u * i, mul_nonneg hu hi, by simp [strength, hunit], by simp⟩

theorem strengths_numbers {e : WeightEngine (Exact f)} {distribution objective : Option (Exact f)}
    {bound d o : ℚ} (hbound : 0 ≤ bound) (hmax : e.influence.maxBlend = number bound)
    (h : e.unbounded distribution objective = ⟨number d, number o⟩) :
    e.strengths distribution objective
      = ⟨number (d * factor bound (d + o)), number (o * factor bound (d + o))⟩ := by
  obtain ⟨hd, ho⟩ := Strengths.mk.inj h
  unfold strengths
  simp only [hd, ho, hmax, number_add, number_lt]
  unfold factor
  split
  · next hlt => rw [number_div _ _ (hbound.trans_lt hlt).ne', number_mul, number_mul]
  · rw [mul_one, mul_one]

/-- Every strength is a number that is not negative, and the bound is a share of one. -/
theorem exists_unbounded_eq {e : WeightEngine (Exact f)} {i : Influence (Exact f)}
    (he : e.influence = i.sanitized) (distribution objective : Option (Exact f)) :
    ∃ bound d o : ℚ, 0 ≤ bound ∧ bound ≤ 1 ∧ 0 ≤ d ∧ 0 ≤ o ∧ e.influence.maxBlend = number bound
      ∧ e.unbounded distribution objective = ⟨number d, number o⟩
      ∧ (distribution = none → d = 0) ∧ (objective = none → o = 0) := by
  obtain ⟨x, hx, -, hxi⟩ := exists_unit_eq i.distribution
  obtain ⟨y, hy, -, hyi⟩ := exists_unit_eq i.objective
  obtain ⟨bound, hbound, hbound1, hboundi⟩ := exists_unit_eq i.maxBlend
  obtain ⟨d, hd, hstrengthd, hdnone⟩ := exists_strength_eq hx distribution
  obtain ⟨o, ho, hstrengtho, honone⟩ := exists_strength_eq hy objective
  refine ⟨bound, d, o, hbound, hbound1, hd, ho, ?_, ?_, hdnone, honone⟩
  · rw [he]
    exact hboundi
  · unfold unbounded
    rw [he, Influence.sanitized, hxi, hyi, hstrengthd, hstrengtho]

/-- The pulls `s` that a bound leaves of the pulls `u`. Where these are beyond it, both are cut down
in proportion: the ratio stays, even if it is infinite. -/
structure CutDown (bound : Exact f) (u s : Strengths (Exact f)) : Prop where
  distribution_nonneg : 0.0 ≤ s.distribution
  objective_nonneg : 0.0 ≤ s.objective
  sum_le : s.distribution + s.objective ≤ bound
  of_le : u.distribution + u.objective ≤ bound → s = u
  of_lt : bound < u.distribution + u.objective → s.distribution + s.objective = bound
    ∧ s.distribution * u.objective = s.objective * u.distribution
    ∧ (0.0 < bound → s.distribution / s.objective = u.distribution / u.objective)

theorem div_number_mul {a b k : ℚ} (hk : 0 < k) :
    (number (a * k) : Exact f) / number (b * k) = number a / number b := by
  by_cases hb : b = 0
  · change div _ _ = div _ _
    simp [div, hb, hk.ne', mul_neg_iff, hk, hk.not_gt]
  · rw [number_div _ _ (mul_ne_zero hb hk.ne'), number_div _ _ hb, mul_div_mul_right _ _ hk.ne']

theorem cutDown_strengths {e : WeightEngine (Exact f)} {i : Influence (Exact f)}
    (he : e.influence = i.sanitized) (distribution objective : Option (Exact f)) :
    CutDown e.influence.maxBlend (e.unbounded distribution objective)
      (e.strengths distribution objective) := by
  obtain ⟨bound, d, o, hbound, -, hd, ho, hmax, hunbounded, -, -⟩ :=
    exists_unbounded_eq he distribution objective
  have hfactor : 0 ≤ factor bound (d + o) := factor_nonneg hbound
  have hsum : d * factor bound (d + o) + o * factor bound (d + o)
      = (d + o) * factor bound (d + o) := (add_mul _ _ _).symm
  rw [strengths_numbers hbound hmax hunbounded, hmax, hunbounded]
  constructor
  · simpa using mul_nonneg hd hfactor
  · simpa using mul_nonneg ho hfactor
  · rw [number_add, number_le, hsum]
    exact mul_factor_le hbound
  · rw [number_add, number_le]
    intro hle
    rw [factor, if_neg (not_lt.mpr hle), mul_one, mul_one]
  · rw [number_add, number_lt]
    intro hlt
    refine ⟨?_, ?_, ?_⟩
    · rw [number_add, hsum, mul_factor_of_lt hbound hlt]
    · rw [number_mul, number_mul, mul_right_comm, mul_comm d o, mul_right_comm]
    · rw [zero_eq, number_lt]
      intro hpos
      apply div_number_mul
      rw [factor, if_pos hlt]
      exact div_pos hpos (hpos.trans hlt)

/-! ### Blends -/

/-- The part of each vector in a mixture. -/
def blend (a b : ℚ) (c x y : PerMoment ℚ) : PerMoment ℚ :=
  .of fun m => (1 - a - b) * c.get m + a * x.get m + b * y.get m

section Blend

variable {a b : ℚ} {c x y : PerMoment ℚ}

theorem mixture_numbers : mixture (⟨number a, number b⟩ : Strengths (Exact f)) (Weights.numbers c)
    (Weights.numbers x) (Weights.numbers y) = Weights.numbers (blend a b c x y) := by
  apply PerMoment.eq_of_get
  intro m
  simp [mixture, blend]

theorem sum_blend : (blend a b c x y).toList.sum
    = (1 - a - b) * c.toList.sum + a * x.toList.sum + b * y.toList.sum := by
  simp only [blend, PerMoment.of, PerMoment.get, PerMoment.toList, List.sum_cons, List.sum_nil]
  ring

theorem blend_nonneg (ha : 0 ≤ a) (hb : 0 ≤ b) (hab : a + b ≤ 1) (hc : ∀ m, 0 ≤ c.get m)
    (hx : ∀ m, 0 ≤ x.get m) (hy : ∀ m, 0 ≤ y.get m) (m : Moment) :
    0 ≤ (blend a b c x y).get m := by
  have hkeep : 0 ≤ 1 - a - b := by linarith
  rw [blend, PerMoment.get_of]
  exact add_nonneg (add_nonneg (mul_nonneg hkeep (hc m)) (mul_nonneg ha (hx m)))
    (mul_nonneg hb (hy m))

/-- A mixture lies between any bounds of the vectors that have a part in it. -/
theorem blend_between {m : Moment} {low high : ℚ} (ha : 0 ≤ a) (hb : 0 ≤ b) (hab : a + b ≤ 1)
    (hc : low ≤ c.get m ∧ c.get m ≤ high) (hx : 0 < a → low ≤ x.get m ∧ x.get m ≤ high)
    (hy : 0 < b → low ≤ y.get m ∧ y.get m ≤ high) :
    low ≤ (blend a b c x y).get m ∧ (blend a b c x y).get m ≤ high := by
  have hpart {k v : ℚ} (hk : 0 ≤ k) (hv : 0 < k → low ≤ v ∧ v ≤ high) :
      k * low ≤ k * v ∧ k * v ≤ k * high := by
    rcases hk.eq_or_lt with rfl | hpos
    · simp
    · exact ⟨mul_le_mul_of_nonneg_left (hv hpos).1 hk, mul_le_mul_of_nonneg_left (hv hpos).2 hk⟩
  have hkeep := hpart (k := 1 - a - b) (by linarith) fun _ => hc
  have hleft := hpart ha hx
  have hright := hpart hb hy
  rw [blend, PerMoment.get_of]
  constructor
  · calc low = (1 - a - b) * low + a * low + b * low := by ring
      _ ≤ _ := add_le_add (add_le_add hkeep.1 hleft.1) hright.1
  · calc (1 - a - b) * c.get m + a * x.get m + b * y.get m
        ≤ (1 - a - b) * high + a * high + b * high :=
          add_le_add (add_le_add hkeep.2 hleft.2) hright.2
      _ = high := by ring

end Blend

/-- The vectors of the signals that pull. -/
def pulls (s : Strengths (Exact f)) (distribution objective : Option (Signal (Exact f))) :
    List (Weights (Exact f)) :=
  ((distribution.filter fun _ => 0.0 < s.distribution).toList
    ++ (objective.filter fun _ => 0.0 < s.objective).toList).map (·.weights)

/-- Weights that are a convex combination of those of the use and of the signals that pull. -/
structure Blends (s : Strengths (Exact f)) (context : Weights (Exact f))
    (distribution objective : Option (Signal (Exact f))) (w : Weights (Exact f)) : Prop where
  within : ∀ m, 0.0 ≤ w.get m ∧ w.get m ≤ 1.0
  sum_eq : w.sum = 1.0
  between : ∀ m,
    Scalar.lowest (context.get m) ((pulls s distribution objective).map (·.get m)) ≤ w.get m
      ∧ w.get m ≤ Scalar.highest (context.get m) ((pulls s distribution objective).map (·.get m))
  unpulled : s.distribution = 0.0 → s.objective = 0.0 → w = context

/-- The vector of a signal of strength `a`, all zero if there is none. -/
structure Reads (signal : Option (Signal (Exact f))) (a : ℚ) (x : PerMoment ℚ) : Prop where
  weights_eq : (signal.map (·.weights)).getD (.all 0.0) = Weights.numbers x
  nonneg : ∀ m, 0 ≤ x.get m
  share_eq : a * x.toList.sum = a
  exists_mem : 0 < a → ∃ g ∈ signal, g.weights = Weights.numbers x

theorem exists_reads {signal : Option (Signal (Exact f))} (h : ∀ s ∈ signal, s.weights.Convex)
    {a : ℚ} (ha : signal.map (·.confidence) = none → a = 0) : ∃ x, Reads signal a x := by
  cases signal with
  | none =>
    have hzero : a = 0 := ha rfl
    have hall : (Weights.numbers (.all 0) : Weights (Exact f)) = .all 0.0 := by
      rw [zero_eq]
      rfl
    exact ⟨.all 0, hall.symm, by simp, by simp [hzero], by simp [hzero]⟩
  | some s =>
    obtain ⟨x, hx, hnonneg, hsum⟩ := (h s rfl).exists_numbers
    exact ⟨x, hx, hnonneg, by rw [hsum, mul_one], fun _ => ⟨s, rfl, hx⟩⟩

theorem mem_pulls {s : Strengths (Exact f)} {distribution objective : Option (Signal (Exact f))}
    {v : Weights (Exact f)} : v ∈ pulls s distribution objective
      ↔ (0.0 < s.distribution ∧ ∃ g ∈ distribution, g.weights = v)
        ∨ (0.0 < s.objective ∧ ∃ g ∈ objective, g.weights = v) := by
  simp only [pulls, List.mem_map, List.mem_append, Option.mem_toList, Option.mem_def,
    Option.filter_eq_some_iff, decide_eq_true_eq]
  constructor
  · rintro ⟨g, ⟨hg, hpos⟩ | ⟨hg, hpos⟩, rfl⟩
    · exact .inl ⟨hpos, g, hg, rfl⟩
    · exact .inr ⟨hpos, g, hg, rfl⟩
  · rintro (⟨hpos, g, hg, rfl⟩ | ⟨hpos, g, hg, rfl⟩)
    · exact ⟨g, .inl ⟨hg, hpos⟩, rfl⟩
    · exact ⟨g, .inr ⟨hg, hpos⟩, rfl⟩

section Combine

variable {e : WeightEngine (Exact f)} {a b : ℚ} {c x y : PerMoment ℚ}
  {distribution objective : Option (Signal (Exact f))}

theorem combine_numbers
    (hs : e.strengths (distribution.map (·.confidence)) (objective.map (·.confidence))
      = ⟨number a, number b⟩) (ha : 0 ≤ a) (hb : 0 ≤ b) (hx : Reads distribution a x)
    (hy : Reads objective b y) (hnonneg : ∀ m, 0 ≤ (blend a b c x y).get m)
    (hsum : (blend a b c x y).toList.sum = 1) :
    e.combine (Weights.numbers c) distribution objective = Weights.numbers (blend a b c x y) := by
  unfold combine
  simp only [hs, hx.weights_eq, hy.weights_eq, mixture_numbers,
    Weights.normalize_numbers hnonneg hsum]
  split
  · next hle =>
    rw [number_add, zero_eq, number_le] at hle
    have ha0 : a = 0 := by linarith
    have hb0 : b = 0 := by linarith
    apply PerMoment.eq_of_get
    intro m
    simp [blend, ha0, hb0]
  · rfl

/-- The components at a moment of the vectors that have a part in a blend. -/
def parts (a b : ℚ) (distribution objective : Option (Signal (Exact f))) (m : Moment) :
    List (Exact f) :=
  (pulls ⟨number a, number b⟩ distribution objective).map (·.get m)

theorem exists_number_of_mem_parts (hd : ∀ g ∈ distribution, g.weights.Convex)
    (ho : ∀ g ∈ objective, g.weights.Convex) {m : Moment} {v : Exact f}
    (hv : v ∈ parts a b distribution objective m) : ∃ q, v = number q := by
  obtain ⟨w, hw, rfl⟩ := List.mem_map.mp hv
  have hconvex : w.Convex := by
    rcases mem_pulls.mp hw with ⟨-, g, hg, rfl⟩ | ⟨-, g, hg, rfl⟩
    · exact hd g hg
    · exact ho g hg
  obtain ⟨q, rfl, -⟩ := hconvex.exists_numbers
  exact ⟨q.get m, Weights.get_numbers q m⟩

theorem Reads.mem_parts_left (hx : Reads distribution a x) (hpos : 0 < a) (m : Moment) :
    number (x.get m) ∈ parts a b distribution objective m := by
  obtain ⟨g, hg, hgx⟩ := hx.exists_mem hpos
  have hpull : (0.0 : Exact f) < number a := by simpa using hpos
  refine List.mem_map.mpr ⟨g.weights, mem_pulls.mpr (.inl ⟨hpull, g, hg, rfl⟩), ?_⟩
  rw [hgx, Weights.get_numbers]

theorem Reads.mem_parts_right (hy : Reads objective b y) (hpos : 0 < b) (m : Moment) :
    number (y.get m) ∈ parts a b distribution objective m := by
  obtain ⟨g, hg, hgy⟩ := hy.exists_mem hpos
  have hpull : (0.0 : Exact f) < number b := by simpa using hpos
  refine List.mem_map.mpr ⟨g.weights, mem_pulls.mpr (.inr ⟨hpull, g, hg, rfl⟩), ?_⟩
  rw [hgy, Weights.get_numbers]

theorem blend_between_parts (ha : 0 ≤ a) (hb : 0 ≤ b) (hab : a + b ≤ 1)
    (hd : ∀ g ∈ distribution, g.weights.Convex) (ho : ∀ g ∈ objective, g.weights.Convex)
    (hx : Reads distribution a x) (hy : Reads objective b y) (m : Moment) :
    Scalar.lowest (number (c.get m)) (parts a b distribution objective m)
        ≤ number ((blend a b c x y).get m)
      ∧ number ((blend a b c x y).get m)
        ≤ Scalar.highest (number (c.get m)) (parts a b distribution objective m) := by
  have hmembers : ∀ v ∈ number (c.get m) :: parts a b distribution objective m,
      ∃ q : ℚ, v = number q :=
    List.forall_mem_cons.mpr ⟨⟨_, rfl⟩, fun v => exists_number_of_mem_parts hd ho⟩
  have hnumber : ∀ v ∈ number (c.get m) :: parts a b distribution objective m,
      Scalar.isNaN v = false := by
    intro v hv
    obtain ⟨q, rfl⟩ := hmembers v hv
    rfl
  obtain ⟨low, hlow⟩ := hmembers _ (Scalar.lowest_mem _ _)
  obtain ⟨high, hhigh⟩ := hmembers _ (Scalar.highest_mem _ _)
  have hbounds (q : ℚ) (hq : number q ∈ number (c.get m) :: parts a b distribution objective m) :
      low ≤ q ∧ q ≤ high := by
    have hle := Scalar.lowest_le hnumber _ hq
    have hge := Scalar.le_highest hnumber _ hq
    rw [hlow, number_le] at hle
    rw [hhigh, number_le] at hge
    exact ⟨hle, hge⟩
  rw [hlow, hhigh, number_le, number_le]
  exact blend_between ha hb hab (hbounds _ List.mem_cons_self)
    (fun hpos => hbounds _ (List.mem_cons_of_mem _ (hx.mem_parts_left hpos m)))
    (fun hpos => hbounds _ (List.mem_cons_of_mem _ (hy.mem_parts_right hpos m)))

theorem blends_combine {i : Influence (Exact f)} (he : e.influence = i.sanitized)
    {context : Weights (Exact f)} (hcontext : context.Convex)
    (hd : ∀ g ∈ distribution, g.weights.Convex) (ho : ∀ g ∈ objective, g.weights.Convex) :
    Blends (e.strengths (distribution.map (·.confidence)) (objective.map (·.confidence)))
      context distribution objective (e.combine context distribution objective) := by
  obtain ⟨bound, d, o, hbound, hbound1, hd0, ho0, hmax, hunbounded, hdnone, honone⟩ :=
    exists_unbounded_eq he (distribution.map (·.confidence)) (objective.map (·.confidence))
  have hs := strengths_numbers hbound hmax hunbounded
  have hfactor : 0 ≤ factor bound (d + o) := factor_nonneg hbound
  have hcut : (d + o) * factor bound (d + o) ≤ bound := mul_factor_le hbound
  generalize factor bound (d + o) = k at *
  have ha : 0 ≤ d * k := mul_nonneg hd0 hfactor
  have hb : 0 ≤ o * k := mul_nonneg ho0 hfactor
  have hab : d * k + o * k ≤ 1 := by linarith [add_mul d o k]
  obtain ⟨c, rfl, hc, hcsum⟩ := hcontext.exists_numbers
  obtain ⟨x, hx⟩ := exists_reads hd (a := d * k) fun h => by rw [hdnone h, zero_mul]
  obtain ⟨y, hy⟩ := exists_reads ho (a := o * k) fun h => by rw [honone h, zero_mul]
  generalize d * k = a at *
  generalize o * k = b at *
  have hnonneg := blend_nonneg ha hb hab hc hx.nonneg hy.nonneg
  have hsum : (blend a b c x y).toList.sum = 1 := by
    rw [sum_blend, hcsum, hx.share_eq, hy.share_eq]
    ring
  rw [hs, combine_numbers hs ha hb hx hy hnonneg hsum]
  constructor
  · intro m
    rw [Weights.get_numbers, zero_eq, one_eq, number_le, number_le]
    exact ⟨hnonneg m, (Weights.get_le_sum hnonneg m).trans_eq hsum⟩
  · rw [Weights.sum_numbers, hsum, one_eq]
  · intro m
    rw [Weights.get_numbers, Weights.get_numbers]
    exact blend_between_parts ha hb hab hd ho hx hy m
  · intro ha0 hb0
    rw [zero_eq] at ha0 hb0
    apply PerMoment.eq_of_get
    intro m
    simp [blend, Exact.number.inj ha0, Exact.number.inj hb0]

end Combine

theorem strength_unit (influence : Exact f) (c : Option (Exact f)) :
    strength influence (c.map Scalar.unit) = strength influence c := by
  cases c with
  | none => rfl
  | some c => simp only [Option.map_some, strength, unit_unit]

theorem ofTables_of_convex {t : WeightTables (Exact f)} (h : ∀ r, (t.row r).Convex)
    (i : Influence (Exact f)) : ofTables t i = .ok ⟨t, i.sanitized⟩ := by
  have hcheck : t.check = .ok () := by
    refine WeightTables.checkRows_eq_ok_iff.mpr fun r _ => ?_
    rw [WeightTables.checkRow, (h r).check]
  unfold ofTables
  rw [hcheck]
  rfl

/-- Without rounding, tables of shares of one are accepted. Whatever the confidences, they count as
brought into the unit interval. The pulls are shares of one that the bound cuts down in proportion,
and the weights they give are a convex combination of those of the use and of the signals that pull.
-/
theorem cutDown_and_blends {e : WeightEngine (Exact f)} {i : Influence (Exact f)}
    (he : e.influence = i.sanitized) (hrows : ∀ r, (e.tables.row r).Convex) :
    ofTables e.tables i = .ok e
    ∧ (∀ distribution objective, e.strengths distribution objective
        = e.strengths (distribution.map Scalar.unit) (objective.map Scalar.unit)
      ∧ CutDown e.influence.maxBlend (e.unbounded distribution objective)
        (e.strengths distribution objective))
    ∧ (∀ context distribution objective, context.Convex → (∀ g ∈ distribution, g.weights.Convex) →
      (∀ g ∈ objective, g.weights.Convex) →
      Blends (e.strengths (distribution.map (·.confidence)) (objective.map (·.confidence)))
        context distribution objective (e.combine context distribution objective))
    ∧ ∀ c (label : Option (ShapeLabel (Exact f))) (objective : Option Objective),
      Blends (e.strengths (label.map (·.confidence)) (objective.map fun _ => 1.0))
        (e.tables.contexts c)
        (label.map fun l => ⟨e.tables.distributions l.distribution, l.confidence⟩)
        (objective.map fun o => ⟨e.tables.objectives o, 1.0⟩) (e.resolve c label objective) := by
  refine ⟨?_, ?_, fun context distribution objective => blends_combine he, ?_⟩
  · rw [ofTables_of_convex hrows, ← he]
  · intro distribution objective
    refine ⟨?_, cutDown_strengths he distribution objective⟩
    unfold strengths
    rw [strength_unit, strength_unit]
  · intro c label objective
    have hd : ∀ g ∈ label.map (fun l =>
        (⟨e.tables.distributions l.distribution, l.confidence⟩ : Signal (Exact f))),
        g.weights.Convex := by
      intro g hg
      obtain ⟨l, -, rfl⟩ := Option.map_eq_some_iff.mp hg
      exact hrows (.distribution l.distribution)
    have ho : ∀ g ∈ objective.map (fun o => (⟨e.tables.objectives o, 1.0⟩ : Signal (Exact f))),
        g.weights.Convex := by
      intro g hg
      obtain ⟨o, -, rfl⟩ := Option.map_eq_some_iff.mp hg
      exact hrows (.objective o)
    have hblends := blends_combine he (hrows (.context c)) hd ho
    rw [Option.map_map, Option.map_map] at hblends
    exact hblends

/-- The built-in rows are decimals that sum to one. -/
theorem convex_builtin (r : WeightRow) :
    ((WeightTables.builtin : WeightTables (Exact f)).row r).Convex := by
  have hrow {a b c d : ℚ} (h : 0 ≤ a ∧ 0 ≤ b ∧ 0 ≤ c ∧ 0 ≤ d ∧ a + (b + (c + (d + 0))) = 1) :
      Weights.Convex (⟨number a, number b, number c, number d⟩ : Weights (Exact f)) :=
    (Weights.convex_numbers_iff (q := ⟨a, b, c, d⟩)).mpr
      ⟨Moment.forall_iff.mpr ⟨h.1, h.2.1, h.2.2.1, h.2.2.2.1⟩, h.2.2.2.2⟩
  rcases r with k | k | k <;> cases k <;> exact hrow (by norm_num)

/-- Blending takes no roots, powers, logarithms or exponentials. -/
def noElementary : Elementary := ⟨id, fun a _ => a, id, id⟩

/-- Influences beyond their range, one of them infinite. -/
def boundless : Influence (Exact noElementary) := ⟨.infinite false, .number 3, .number 2⟩

theorem sanitized_boundless : boundless.sanitized = ⟨number 1, number 1, number 1⟩ := by
  have hinfinite : (number 1 : Exact noElementary) < .infinite false := by
    refine Scalar.Ordered.lt_iff.mpr ⟨⟨rfl, ?_⟩, fun h => absurd h.2 ?_⟩
    · simp [place]
    · simp [place]
  unfold Influence.sanitized boundless
  rw [unit_of_lt hinfinite, unit_of_lt ((number_lt _ _).mpr (by norm_num)),
    unit_of_lt ((number_lt _ _).mpr (by norm_num))]

theorem unbounded_boundless :
    (ofInfluence boundless).unbounded (some (number 0.6)) (some (number 7))
      = ⟨number 0.6, number 1⟩ := by
  unfold unbounded ofInfluence
  rw [sanitized_boundless]
  simp only [strength]
  rw [unit_number (by norm_num) (by norm_num), unit_of_lt ((number_lt _ _).mpr (by norm_num)),
    number_mul, number_mul, mul_one, mul_one]

theorem boundless_cutDown_and_blends :
    (ofInfluence boundless).influence = boundless.sanitized
    ∧ (∀ r, ((ofInfluence boundless).tables.row r).Convex)
    ∧ (ofInfluence boundless).strengths (some (number 0.6)) (some (number 7))
      = ⟨number (3 / 8), number (5 / 8)⟩
    ∧ CutDown (number 1) (⟨number 0.6, number 1⟩ : Strengths (Exact noElementary))
      ⟨number (3 / 8), number (5 / 8)⟩
    ∧ Blends ⟨number (3 / 8), number (5 / 8)⟩ (WeightTables.builtinContext .general)
      (some ⟨WeightTables.builtinDistribution .normal, number 0.6⟩)
      (some ⟨WeightTables.builtinObjective .shape, number 7⟩)
      ((ofInfluence boundless).combine (WeightTables.builtinContext .general)
        (some ⟨WeightTables.builtinDistribution .normal, number 0.6⟩)
        (some ⟨WeightTables.builtinObjective .shape, number 7⟩)) := by
  have hmax : (ofInfluence boundless).influence.maxBlend = number 1 :=
    congrArg Influence.maxBlend sanitized_boundless
  have hstrengths : (ofInfluence boundless).strengths (some (number 0.6)) (some (number 7))
      = ⟨number (3 / 8), number (5 / 8)⟩ := by
    rw [strengths_numbers zero_le_one hmax unbounded_boundless]
    norm_num [factor]
  obtain ⟨-, hcut, hblends, -⟩ :=
    cutDown_and_blends (e := ofInfluence boundless) (i := boundless) rfl convex_builtin
  refine ⟨rfl, convex_builtin, hstrengths, ?_, ?_⟩
  · have h := (hcut (some (number 0.6)) (some (number 7))).2
    rwa [hmax, unbounded_boundless, hstrengths] at h
  · have h := hblends (WeightTables.builtinContext .general)
      (some ⟨WeightTables.builtinDistribution .normal, number 0.6⟩)
      (some ⟨WeightTables.builtinObjective .shape, number 7⟩) (convex_builtin (.context .general))
      (by rintro _ ⟨⟩; exact convex_builtin (.distribution .normal))
      (by rintro _ ⟨⟩; exact convex_builtin (.objective .shape))
    rwa [Option.map_some, Option.map_some, hstrengths] at h

end WeightEngine

end BinGrade
