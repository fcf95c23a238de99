import BinGrade.Proofs.Binary64.Order
import BinGrade.Proofs.Registry.Store
import BinGrade.Proofs.Threshold.Lookup

/-!
# Resolved thresholds

The tables are checked entry by entry, but an evaluation is graded against products of two entries.
Scaling keeps the ceilings in order. It need not keep them sound: a product of two positive finite
numbers may round to zero or to infinity, and against an infinite ceiling no error is too large.
-/

namespace BinGrade

open Binary64

open Scalar (Ordered)

/-! ### What the checks ask -/

theorem checkPositive_eq_ok_iff {field : String} {x : Float} :
    checkPositive field x = .ok () ↔ x.isFinite = true ∧ (0.0 : Float) < x := by
  unfold checkPositive
  rw [show Scalar.isFinite x = x.isFinite from rfl]
  by_cases hfinite : x.isFinite = true
  · have hpos : ¬x ≤ (0.0 : Float) ↔ (0.0 : Float) < x := by
      rw [le_iff (isNaN_of_isFinite hfinite) rfl, lt_iff rfl (isNaN_of_isFinite hfinite), not_le]
    by_cases hx : x ≤ (0.0 : Float)
    · simp [hfinite, hx, ← hpos]
    · simp [hfinite, hx, ← hpos]
  · simp [hfinite]

theorem checkNeighbours_named {ε β : Type} {check : String × β → String × β → Except ε Unit}
    {R : β → β → Prop} (h : ∀ a b, check a b = .ok () ↔ R a.2 b.2) (p : PerTier β)
    (field : String) : checkNeighbours check (p.named field) = .ok () ↔ p.Steps R := by
  simp only [PerTier.named, checkNeighbours, bind_const_eq_ok_iff, h]
  exact ⟨fun ⟨h1, h2, h3, _⟩ => ⟨h1, h2, h3⟩, fun ⟨h1, h2, h3⟩ => ⟨h1, h2, h3, trivial⟩⟩

theorem SizeMinima.check_eq_ok_iff {s : SizeMinima} {field : String} :
    (check s field : Except (ConfigFault Float) Unit) = .ok () ↔ s.Steps fun a b => b ≤ a := by
  apply checkNeighbours_named
  intro a b
  split
  · next hlt => simp [Nat.not_le.mpr hlt]
  · next hle => simp [Nat.not_lt.mp hle]

namespace Ceilings

/-- The ceilings that are accepted: finite, positive and not falling. -/
structure Sound (c : Ceilings Float) : Prop where
  positive : ∀ x ∈ c.toList, x.isFinite = true ∧ (0.0 : Float) < x
  steps : c.Steps (· ≤ ·)

/-- Ceilings that do not fall, from zero or above. They are numbers, but may be infinite. -/
structure Rising (c : Ceilings Float) : Prop where
  nonneg : ∀ x ∈ c.toList, (0.0 : Float) ≤ x
  steps : c.Steps (· ≤ ·)

variable {c : Ceilings Float}

theorem check_eq_ok_iff {field : String} : check c field = .ok () ↔ c.Sound := by
  unfold check
  rw [bind_const_eq_ok_iff, checkAll_eq_ok_iff,
    checkNeighbours_named (R := fun a b : Float => ¬b < a) (by simp)]
  have hmembers : (∀ e ∈ c.named field, checkPositive e.1 e.2 = .ok ())
      ↔ ∀ x ∈ c.toList, x.isFinite = true ∧ (0.0 : Float) < x := by
    rw [show c.toList = (c.named field).map Prod.snd from rfl, List.forall_mem_map]
    simp only [checkPositive_eq_ok_iff]
  rw [hmembers]
  constructor
  · rintro ⟨hpositive, hsteps⟩
    refine ⟨hpositive, hsteps.imp_of_mem ?_⟩
    intro a ha b hb hlt
    have hnumber (x : Float) (hx : x ∈ c.toList) : x.isNaN = false :=
      isNaN_of_isFinite (hpositive x hx).1
    rw [lt_iff (hnumber b hb) (hnumber a ha), not_lt] at hlt
    exact (le_iff (hnumber a ha) (hnumber b hb)).mpr hlt
  · rintro ⟨hpositive, hsteps⟩
    exact ⟨hpositive, hsteps.imp fun a b hab hba => (Ordered.lt_iff.mp hba).2 hab⟩

theorem Sound.rising (hc : c.Sound) : c.Rising where
  nonneg x hx := (Ordered.lt_iff.mp (hc.positive x hx).2).1
  steps := hc.steps

/-! ### Scaling -/

/-- A positive factor keeps ceilings in order, whatever it rounds them to. -/
theorem Sound.rising_scaled (hc : c.Sound) {factor : Float} (hfinite : factor.isFinite = true)
    (hpos : (0.0 : Float) < factor) : (scaled c factor).Rising := by
  have hfactor : 0 ≤ value factor := ((lt_iff rfl (isNaN_of_isFinite hfinite)).mp hpos).le
  refine ⟨?_, ?_⟩
  · intro y hy
    obtain ⟨x, hx, rfl⟩ := List.mem_map.mp (show y ∈ c.toList.map (· * factor) from hy)
    obtain ⟨hxfinite, hxpos⟩ := hc.positive x hx
    have hx0 := ((lt_iff rfl (isNaN_of_isFinite hxfinite)).mp hxpos).le
    obtain ⟨hnumber, hvalue⟩ := value_mul hxfinite hfinite
    rw [le_iff rfl hnumber, hvalue]
    exact nearest_nonneg (mul_nonneg hx0 hfactor)
  · apply PerTier.steps_map.mpr
    refine hc.steps.imp_of_mem ?_
    intro a ha b hb hab
    exact mul_mono_left (hc.positive a ha).1 (hc.positive b hb).1 hfinite hab hfactor

namespace Rising

variable (hc : c.Rising)

include hc

theorem between {x : Float} (hx : x ∈ c.toList) : c.excellent ≤ x ∧ x ≤ c.poor := by
  have hrefl : x ≤ x := Ordered.le_refl (isNaN_of_le (hc.nonneg x hx)).2
  obtain ⟨hgood, hacceptable, hpoor⟩ := hc.steps
  simp only [PerTier.toList, List.mem_cons, List.not_mem_nil, or_false] at hx
  rcases hx with rfl | rfl | rfl | rfl
  · exact ⟨hrefl, Ordered.le_trans hgood (Ordered.le_trans hacceptable hpoor)⟩
  · exact ⟨hgood, Ordered.le_trans hacceptable hpoor⟩
  · exact ⟨Ordered.le_trans hgood hacceptable, hpoor⟩
  · exact ⟨Ordered.le_trans hgood (Ordered.le_trans hacceptable hpoor), hrefl⟩

/-- Only the ends can leave the range of sound ceilings. -/
theorem sound_iff : c.Sound ↔ (0.0 : Float) < c.excellent ∧ c.poor.isFinite = true := by
  constructor
  · intro hsound
    exact ⟨(hsound.positive c.excellent (by simp [PerTier.toList])).2,
      (hsound.positive c.poor (by simp [PerTier.toList])).1⟩
  · rintro ⟨hpos, hfinite⟩
    refine ⟨?_, hc.steps⟩
    intro x hx
    obtain ⟨hleft, hright⟩ := hc.between hx
    exact ⟨isFinite_of_le (hc.nonneg x hx) hright hfinite, Scalar.lt_of_lt_of_le hpos hleft⟩

theorem tierFor_infinite {x : Float} (hpos : (0.0 : Float) < x) (hinfinite : x.isFinite = false) :
    tierFor c x = .unacceptable ↔ c.poor.isFinite = true := by
  have hpoor : c.poor ∈ c.toList := by simp [PerTier.toList]
  constructor
  · intro htier
    by_contra hnot
    have hle : x ≤ c.poor := le_of_not_isFinite (isNaN_of_lt hpos).2 (hc.nonneg c.poor hpoor)
      (Bool.eq_false_iff.mpr hnot)
    have hreach : (tierFor c x).isAtLeast .poor = true :=
      PerTier.isAtLeast_firstTier c rfl (decide_eq_true hle)
    rw [htier] at hreach
    cases hreach
  · intro hfinite
    refine (PerTier.firstTier_passes c _).resolve_right ?_
    rintro ⟨ceiling, hceiling, hpass⟩
    have hle : x ≤ c.poor :=
      Ordered.le_trans (of_decide_eq_true hpass) (hc.between (PerTier.mem_toList_of_get? hceiling)).2
    rw [isFinite_of_le (Ordered.lt_iff.mp hpos).1 hle hfinite] at hinfinite
    cases hinfinite

end Rising

end Ceilings

/-! ### Threshold sets -/

theorem Moment.mem_all (m : Moment) : m ∈ (Key.all : List Moment) := by
  cases m <;> decide

theorem Moment.forall_iff {P : Moment → Prop} :
    (∀ m, P m) ↔ P .mean ∧ P .variance ∧ P .skewness ∧ P .kurtosis := by
  constructor
  · intro h
    exact ⟨h .mean, h .variance, h .skewness, h .kurtosis⟩
  · rintro ⟨hmean, hvariance, hskewness, hkurtosis⟩ m
    cases m <;> assumption

theorem PerMoment.forall_mem_toList {β : Type} {p : PerMoment β} {P : β → Prop} :
    (∀ x ∈ p.toList, P x) ↔ ∀ m, P (p.get m) := by
  rw [Moment.forall_iff]
  simp [toList, get]

namespace ThresholdSet

/-- A set that is accepted. -/
structure Sound (s : ThresholdSet Float) : Prop where
  moments : ∀ m, (s.ceilings.moments.get m).Sound
  total : s.ceilings.total.Sound
  sizes : s.sizes.Steps fun a b => b ≤ a

/-- A set in which ceilings do not fall and minima do not rise. -/
structure Rising (s : ThresholdSet Float) : Prop where
  moments : ∀ m, (s.ceilings.moments.get m).Rising
  total : s.ceilings.total.Rising
  sizes : s.sizes.Steps fun a b => b ≤ a

/-- The ends of all ceilings lie where sound ceilings do. -/
structure InRange (s : ThresholdSet Float) : Prop where
  moments : ∀ m, (0.0 : Float) < (s.ceilings.moments.get m).excellent
    ∧ (s.ceilings.moments.get m).poor.isFinite = true
  total : (0.0 : Float) < s.ceilings.total.excellent ∧ s.ceilings.total.poor.isFinite = true

variable {s : ThresholdSet Float}

instance : Decidable s.InRange :=
  decidable_of_iff
    ((∀ m ∈ (Key.all : List Moment), (0.0 : Float) < (s.ceilings.moments.get m).excellent
        ∧ (s.ceilings.moments.get m).poor.isFinite = true)
      ∧ (0.0 : Float) < s.ceilings.total.excellent ∧ s.ceilings.total.poor.isFinite = true)
    ⟨fun h => ⟨fun m => h.1 m m.mem_all, h.2⟩, fun h => ⟨fun m _ => h.moments m, h.total⟩⟩

theorem check_eq_ok_iff {field : String} : s.check field = .ok () ↔ s.Sound := by
  unfold check MetricCeilings.check
  simp only [bind_const_eq_ok_iff, checkAll_eq_ok_iff, Ceilings.check_eq_ok_iff,
    SizeMinima.check_eq_ok_iff]
  constructor
  · rintro ⟨⟨hmoments, htotal⟩, hsizes⟩
    exact ⟨fun m => hmoments m m.mem_all, htotal, hsizes⟩
  · rintro ⟨hmoments, htotal, hsizes⟩
    exact ⟨⟨fun m _ => hmoments m, htotal⟩, hsizes⟩

theorem Sound.rising (hs : s.Sound) : s.Rising :=
  ⟨fun m => (hs.moments m).rising, hs.total.rising, hs.sizes⟩

theorem Rising.sound_iff (hs : s.Rising) : s.Sound ↔ s.InRange := by
  constructor
  · rintro ⟨hmoments, htotal, _⟩
    exact ⟨fun m => (hs.moments m).sound_iff.mp (hmoments m), hs.total.sound_iff.mp htotal⟩
  · rintro ⟨hmoments, htotal⟩
    exact ⟨fun m => (hs.moments m).sound_iff.mpr (hmoments m), hs.total.sound_iff.mpr htotal,
      hs.sizes⟩

end ThresholdSet

theorem Multipliers.positive_of_check {m : Multipliers Float} {field : String}
    (h : m.check field = .ok ()) :
    (∀ k, (m.moments.get k).isFinite = true ∧ (0.0 : Float) < m.moments.get k)
      ∧ m.total.isFinite = true ∧ (0.0 : Float) < m.total := by
  unfold check at h
  simp only [bind_const_eq_ok_iff, checkAll_eq_ok_iff, checkPositive_eq_ok_iff] at h
  exact ⟨fun k => h.1 k k.mem_all, h.2⟩

theorem ThresholdSet.Sound.rising_scaled {s : ThresholdSet Float} (hs : s.Sound)
    {m : Multipliers Float} {field : String} (hm : m.check field = .ok ()) : (s.scaled m).Rising := by
  obtain ⟨hfactors, hfinite, hpos⟩ := Multipliers.positive_of_check hm
  refine ⟨?_, hs.total.rising_scaled hfinite hpos, hs.sizes⟩
  intro k
  rw [show (s.scaled m).ceilings.moments.get k
    = (s.ceilings.moments.get k).scaled (m.moments.get k) from PerMoment.get_of ..]
  exact (hs.moments k).rising_scaled (hfactors k).1 (hfactors k).2

/-! ### Resolving -/

namespace Tables

variable {t : Tables Float}

theorem sound_precisions (ht : t.check = .ok ()) (p : Precision) : (t.precisions p).Sound :=
  ThresholdSet.check_eq_ok_iff.mp ((check_eq_ok_iff t).mp ht (.precision p))

theorem rising_resolve (ht : t.check = .ok ()) (d : Distribution) (c : Context)
    (p : Option Precision) : (t.resolve d c p).Rising := by
  have hentries := (check_eq_ok_iff t).mp ht
  cases p with
  | some level => exact (sound_precisions ht level).rising
  | none =>
    have hset : (t.distributions d).Sound :=
      ThresholdSet.check_eq_ok_iff.mp (hentries (.distribution d))
    exact hset.rising_scaled (hentries (.context c))

end Tables

namespace Registry

/-- Whatever is done to a registry, the thresholds it gives are in order, and those of a strictness
are sound. Scaled ones pass their check exactly if rounding has kept their ends in range, and the
largest of them decides whether an infinite error is unacceptable. -/
theorem thresholds_rising_and_check_iff [Json.NumberReader] {r : Registry Float} (h : Initial r)
    (ops : List Operation) (d : Distribution) (c : Context) (p : Option Precision) :
    let s := (r.run ops).thresholds d c p
    s.Rising ∧ (p.isSome = true → s.InRange) ∧ (∀ field, s.check field = .ok () ↔ s.InRange)
      ∧ ∀ x, (0.0 : Float) < x → x.isFinite = false →
        (∀ m, s.momentTier m x = .unacceptable ↔ (s.ceilings.moments.get m).poor.isFinite = true)
          ∧ (s.totalTier x = .unacceptable ↔ s.ceilings.total.poor.isFinite = true) := by
  have htables := check_run h.check ops
  have hrising := Tables.rising_resolve htables d c p
  refine ⟨hrising, ?_, ?_, ?_⟩
  · intro hsome
    obtain ⟨level, rfl⟩ := Option.isSome_iff_exists.mp hsome
    exact hrising.sound_iff.mp (Tables.sound_precisions htables level)
  · intro field
    rw [ThresholdSet.check_eq_ok_iff]
    exact hrising.sound_iff
  · intro x hpos hinfinite
    exact ⟨fun m => (hrising.moments m).tierFor_infinite hpos hinfinite,
      hrising.total.tierFor_infinite hpos hinfinite⟩

/-- Ceilings and factors that are sound by themselves and too large together. -/
def overflowing : List Operation :=
  let huge : Ceilings Float := ⟨1e300, 1e300, 1e300, 1e300⟩
  [.update (.distribution .normal) (.thresholds ⟨⟨.all huge, huge⟩, ⟨1, 1, 1, 1⟩⟩),
    .update (.context .general) (.multipliers ⟨.all 1e300, 1e300⟩)]

theorem overflowing_sound_for_stability :
    (∀ field, ((standard.run overflowing).thresholds .normal .stability none).check field = .ok ())
      ∧ ((standard.run overflowing).thresholds .normal .stability none).totalTier (1.0 / 0.0)
        = .unacceptable := by
  obtain ⟨_, _, hcheck, hinfinite⟩ :=
    thresholds_rising_and_check_iff .standard overflowing .normal .stability none
  have hrange : ((standard.run overflowing).thresholds .normal .stability none).InRange := by
    decide +kernel
  refine ⟨fun field => (hcheck field).mpr hrange, ?_⟩
  exact (hinfinite _ (by decide +kernel) (by decide +kernel)).2.mpr hrange.total.2

/-- Both changes are carried out. Yet the thresholds that they give together fail the check, and an
infinite error is excellent. -/
theorem overflowing_refused_for_general :
    (standard.run overflowing).tables.check.toBool = true
      ∧ (((standard.run overflowing).thresholds .normal .general none).check "").toBool = false
      ∧ ((standard.run overflowing).thresholds .normal .general none).momentTier .mean (1.0 / 0.0)
        = .excellent := by
  decide +kernel

end Registry

end BinGrade
