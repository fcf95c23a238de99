import Mathlib.Tactic.SplitIfs
import BinGrade.Threshold

/-!
# Looking up tiers

A lookup tries the bounded tiers from the best one on and stops at the first whose value passes. It
need not stop at the tier it is asked about: if a stricter value passes and a laxer one does not, the
stricter one counts. Only where passing is kept from each tier to the next does the lookup reach a
tier exactly when the value of that tier passes.
-/

namespace BinGrade

namespace Tier

theorem isAtLeast_refl (t : Tier) : t.isAtLeast t = true := by
  cases t <;> rfl

theorem isAtLeast_unacceptable (t : Tier) : t.isAtLeast .unacceptable = true := by
  cases t <;> rfl

theorem isAtLeast_trans {s t u : Tier} (hst : s.isAtLeast t = true) (htu : t.isAtLeast u = true) :
    s.isAtLeast u = true := by
  simp only [isAtLeast, decide_eq_true_eq] at *
  omega

end Tier

namespace PerTier

variable {β γ : Type}

theorem exists_get?_of_mem_bounded (p : PerTier β) {t : Tier} (ht : t ∈ Tier.bounded) :
    ∃ b, p.get? t = some b := by
  cases t with
  | unacceptable => exact absurd ht (by decide)
  | _ => exact ⟨_, rfl⟩

theorem mem_toList_of_get? {p : PerTier β} {t : Tier} {b : β} (hb : p.get? t = some b) :
    b ∈ p.toList := by
  cases t <;> cases hb <;> simp [toList]

/-! ### Where a lookup stops -/

theorem firstTier_passes (p : PerTier β) (passes : β → Bool) :
    p.firstTier passes = .unacceptable
      ∨ ∃ b, p.get? (p.firstTier passes) = some b ∧ passes b = true := by
  unfold firstTier
  split_ifs with hexcellent hgood hacceptable hpoor
  · exact .inr ⟨p.excellent, rfl, hexcellent⟩
  · exact .inr ⟨p.good, rfl, hgood⟩
  · exact .inr ⟨p.acceptable, rfl, hacceptable⟩
  · exact .inr ⟨p.poor, rfl, hpoor⟩
  · exact .inl rfl

theorem isAtLeast_firstTier (p : PerTier β) {passes : β → Bool} {t : Tier} {b : β}
    (hb : p.get? t = some b) (hpass : passes b = true) :
    (p.firstTier passes).isAtLeast t = true := by
  cases t with
  | unacceptable => cases hb
  | _ =>
    cases hb
    unfold firstTier
    split_ifs <;> rfl

/-- A lookup in which more passes at every tier gives no worse tier. -/
theorem isAtLeast_firstTier_firstTier {p : PerTier β} {q : PerTier γ} {passes : β → Bool}
    {passes' : γ → Bool}
    (h : ∀ t b, p.get? t = some b → passes b = true → ∃ c, q.get? t = some c ∧ passes' c = true) :
    (q.firstTier passes').isAtLeast (p.firstTier passes) = true := by
  rcases p.firstTier_passes passes with hnone | ⟨b, hb, hpass⟩
  · rw [hnone]
    exact Tier.isAtLeast_unacceptable _
  · obtain ⟨c, hc, hpass'⟩ := h _ b hb hpass
    exact q.isAtLeast_firstTier hc hpass'

/-! ### Values that go one way -/

/-- The value of each tier is related to that of the next one. -/
structure Steps (R : β → β → Prop) (p : PerTier β) : Prop where
  good : R p.excellent p.good
  acceptable : R p.good p.acceptable
  poor : R p.acceptable p.poor

theorem Steps.imp_of_mem {R S : β → β → Prop} {p : PerTier β} (h : p.Steps R)
    (himp : ∀ a ∈ p.toList, ∀ b ∈ p.toList, R a b → S a b) : p.Steps S where
  good := himp _ (by simp [toList]) _ (by simp [toList]) h.good
  acceptable := himp _ (by simp [toList]) _ (by simp [toList]) h.acceptable
  poor := himp _ (by simp [toList]) _ (by simp [toList]) h.poor

theorem Steps.imp {R S : β → β → Prop} {p : PerTier β} (h : p.Steps R)
    (himp : ∀ a b, R a b → S a b) : p.Steps S :=
  h.imp_of_mem fun a _ b _ => himp a b

theorem steps_map {f : β → γ} {R : γ → γ → Prop} {p : PerTier β} :
    (p.map f).Steps R ↔ p.Steps fun a b => R (f a) (f b) :=
  ⟨fun h => ⟨h.good, h.acceptable, h.poor⟩, fun h => ⟨h.good, h.acceptable, h.poor⟩⟩

theorem Steps.passes {p : PerTier β} {passes : β → Bool}
    (h : p.Steps fun a b => passes a = true → passes b = true) {s t : Tier} {a b : β}
    (hst : s.isAtLeast t = true) (ha : p.get? s = some a) (hb : p.get? t = some b)
    (hpass : passes a = true) : passes b = true := by
  obtain ⟨hgood, hacceptable, hpoor⟩ := h
  -- the better tier stands first, so its value reaches the other one in steps
  cases s <;> cases t <;> cases hst <;> cases ha <;> cases hb <;> grind

/-- Where passing is kept from tier to tier, the value of the tier decides. -/
theorem Steps.isAtLeast_firstTier_iff {p : PerTier β} {passes : β → Bool}
    (h : p.Steps fun a b => passes a = true → passes b = true) {t : Tier} {b : β}
    (hb : p.get? t = some b) : (p.firstTier passes).isAtLeast t = true ↔ passes b = true := by
  constructor
  · intro hreach
    rcases p.firstTier_passes passes with hnone | ⟨a, ha, hpass⟩
    · rw [hnone] at hreach
      cases t with
      | unacceptable => cases hb
      | _ => cases hreach
    · exact h.passes hreach ha hb hpass
  · exact p.isAtLeast_firstTier hb

end PerTier

end BinGrade
