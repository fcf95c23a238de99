import BinGrade.Proofs.Shape.Peaks

/-!
# Settings of the count of modes

A setting brings its value into range at once, and all parameters are brought into range once more at
the end. Two configurations that agree in range still agree after one setting, carried out on one of
them and stored as given in the other; so only the last value given for each parameter counts. The two
ends of the range of bins are set together, so it does not matter whether a greatest number that is too
small is raised early or late.
-/

namespace BinGrade.ModeConfig

open Binary64 Scalar

/-! ### The last values given -/

section Given

variable {α β : Type}

namespace Setting

/-- The least share of the tallest bin, if the setting gives one. -/
def peak? : Setting α → Option α
  | .minPeakRatio r => some r
  | _ => none

/-- The greatest share of the lower peak, if the setting gives one. -/
def valley? : Setting α → Option α
  | .valleyRatio r => some r
  | _ => none

/-- The least distance of peaks, if the setting gives one. -/
def distance? : Setting α → Option ℕ
  | .minSeparationBins n => some n
  | _ => none

/-- The least size of a sample, if the setting gives one. -/
def size? : Setting α → Option ℕ
  | .minSampleSize n => some n
  | _ => none

/-- The least and the greatest number of bins, if the setting gives them; they come together. -/
def range? : Setting α → Option (ℕ × ℕ)
  | .binRange least greatest => some (least, greatest)
  | _ => none

end Setting

/-- The last value that some settings give, or the one to start with. -/
def lastGiven (given? : Setting α → Option β) (changes : List (Setting α)) (start : β) : β :=
  (changes.filterMap given?).getLast?.getD start

theorem lastGiven_cons (given? : Setting α → Option β) (s : Setting α) (changes : List (Setting α))
    (start : β) :
    lastGiven given? (s :: changes) start = lastGiven given? changes ((given? s).getD start) := by
  cases hs : given? s with
  | none => simp [lastGiven, hs]
  | some x => simp [lastGiven, hs, List.getLast?_cons]

/-- The parameters with the last value given for each of them, in range or not. -/
def overwritten (c : ModeConfig α) (changes : List (Setting α)) : ModeConfig α where
  minPeakRatio := lastGiven Setting.peak? changes c.minPeakRatio
  valleyRatio := lastGiven Setting.valley? changes c.valleyRatio
  minSeparationBins := lastGiven Setting.distance? changes c.minSeparationBins
  minSampleSize := lastGiven Setting.size? changes c.minSampleSize
  minBins := (lastGiven Setting.range? changes (c.minBins, c.maxBins)).1
  maxBins := (lastGiven Setting.range? changes (c.minBins, c.maxBins)).2

/-- Carries out a change with the new value as it is given. -/
def store (c : ModeConfig α) : Setting α → ModeConfig α
  | .minPeakRatio r => { c with minPeakRatio := r }
  | .valleyRatio r => { c with valleyRatio := r }
  | .minSeparationBins n => { c with minSeparationBins := n }
  | .minSampleSize n => { c with minSampleSize := n }
  | .binRange least greatest => { c with minBins := least, maxBins := greatest }

theorem overwritten_cons (c : ModeConfig α) (s : Setting α) (changes : List (Setting α)) :
    c.overwritten (s :: changes) = (c.store s).overwritten changes := by
  unfold overwritten
  simp only [lastGiven_cons]
  cases s <;> rfl

end Given

/-! ### Clamping early and late -/

variable {c d : ModeConfig Float}

theorem sanitized_eq_iff : c.sanitized = d.sanitized ↔
    unit c.minPeakRatio = unit d.minPeakRatio ∧ unit c.valleyRatio = unit d.valleyRatio
      ∧ max c.minSeparationBins 1 = max d.minSeparationBins 1
      ∧ max c.minSampleSize 3 = max d.minSampleSize 3 ∧ max c.minBins 3 = max d.minBins 3
      ∧ max c.maxBins (max c.minBins 3) = max d.maxBins (max d.minBins 3) :=
  Iff.of_eq (mk.injEq ..)

/-- A setting keeps the agreement of all other parameters, and the one that is set no longer depends on
what it was. -/
theorem sanitized_set_eq_store (h : c.sanitized = d.sanitized) (s : Setting Float) :
    (c.set s).sanitized = (d.store s).sanitized := by
  obtain ⟨hpeak, hvalley, hdistance, hsize, hleast, hgreatest⟩ := sanitized_eq_iff.mp h
  rw [sanitized_eq_iff]
  cases s with
  | minPeakRatio r => exact ⟨unit_clamp r, hvalley, hdistance, hsize, hleast, hgreatest⟩
  | valleyRatio r => exact ⟨hpeak, unit_clamp r, hdistance, hsize, hleast, hgreatest⟩
  | minSeparationBins n =>
    have hclamped : max (max n 1) 1 = max n 1 := max_eq_left (le_max_right n 1)
    exact ⟨hpeak, hvalley, hclamped, hsize, hleast, hgreatest⟩
  | minSampleSize n =>
    have hclamped : max (max n 3) 3 = max n 3 := max_eq_left (le_max_right n 3)
    exact ⟨hpeak, hvalley, hdistance, hclamped, hleast, hgreatest⟩
  | binRange least greatest =>
    -- both ends are new, so neither side keeps an old one that the other could have raised
    have hclamped : max (max least 3) 3 = max least 3 := max_eq_left (le_max_right least 3)
    have hraised : max (max greatest (max least 3)) (max (max least 3) 3)
        = max greatest (max least 3) := by
      rw [hclamped]
      exact max_eq_left (le_max_right greatest (max least 3))
    exact ⟨hpeak, hvalley, hdistance, hsize, hclamped, hraised⟩

theorem sanitized_foldl_set (changes : List (Setting Float)) (h : c.sanitized = d.sanitized) :
    (changes.foldl set c).sanitized = (d.overwritten changes).sanitized := by
  -- the agreement is the invariant: `c` is what has been set so far, `d` what has been stored
  induction changes generalizing c d with
  | nil => exact h
  | cons s changes ih =>
    rw [List.foldl_cons, overwritten_cons]
    exact ih (sanitized_set_eq_store h s)

/-! ### The range -/

/-- Every parameter is one that the count can work with. -/
structure InRange (c : ModeConfig Float) : Prop extends c.Moderate where
  peakIsNumber : c.minPeakRatio.isNaN = false
  valleyIsNumber : c.valleyRatio.isNaN = false
  size : 3 ≤ c.minSampleSize
  bins : 3 ≤ c.minBins
  ordered : c.minBins ≤ c.maxBins

theorem inRange_sanitized (c : ModeConfig Float) : c.sanitized.InRange where
  toModerate := moderate_sanitized c
  peakIsNumber := (isNaN_of_le (moderate_sanitized c).peak.1).2
  valleyIsNumber := (isNaN_of_le (moderate_sanitized c).valley.1).2
  size := le_max_right _ _
  bins := le_max_right _ _
  ordered := le_max_right _ _

theorem sanitized_eq_self_iff : c.sanitized = c ↔ c.InRange := by
  constructor
  · intro h
    rw [← h]
    exact inRange_sanitized c
  · intro h
    unfold sanitized
    rw [unit_eq_self_iff.mpr h.peak, unit_eq_self_iff.mpr h.valley, max_eq_left h.apart,
      max_eq_left h.size, max_eq_left h.bins, max_eq_left h.ordered]

/-- Whatever the parameters are and however often each is set, the outcome is that of the last values
given, brought into range once. It is in range, a second pass changes nothing, and what a first pass
leaves alone is exactly what is in range. -/
theorem configured_eq_and_inRange (c : ModeConfig Float) (changes : List (Setting Float)) :
    c.configured changes = (c.overwritten changes).sanitized
      ∧ (c.configured changes).InRange
      ∧ c.sanitized.sanitized = c.sanitized
      ∧ (c.sanitized = c ↔ c.InRange) :=
  ⟨sanitized_foldl_set changes rfl, inRange_sanitized _,
    sanitized_eq_self_iff.mpr (inRange_sanitized c), sanitized_eq_self_iff⟩

-- The ratio given last is no number; it is not passed over for the one before.
example : standard.configured [.minPeakRatio 0.5, .binRange 50 10, .minPeakRatio (0.0 / 0.0)]
    = (⟨0.0, 0.6, 3, 30, 50, 50⟩ : ModeConfig Float) := rfl

end BinGrade.ModeConfig
