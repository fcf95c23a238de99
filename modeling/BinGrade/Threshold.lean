import BinGrade.Key.Catalog
import BinGrade.Moment
import BinGrade.Scalar.Binary64
import BinGrade.Error
import BinGrade.Tier

/-!
# Thresholds

A metric is graded against four ceilings, a sample size against four minima. A threshold set holds
the ceilings of the weighted error of each moment and of their total, and the minima. A set is sound
if its ceilings are finite, positive and not falling from excellent to poor, and its minima not
rising.
-/

namespace BinGrade

/-- One value for each bounded tier. -/
structure PerTier (β : Type) where
  excellent : β
  good : β
  acceptable : β
  poor : β
deriving BEq

namespace PerTier

variable {β γ : Type}

def toList (p : PerTier β) : List β := [p.excellent, p.good, p.acceptable, p.poor]

def ofList? : List β → Option (PerTier β)
  | [a, b, c, d] => some ⟨a, b, c, d⟩
  | _ => none

def map (f : β → γ) (p : PerTier β) : PerTier γ :=
  ⟨f p.excellent, f p.good, f p.acceptable, f p.poor⟩

/-- The value of a tier; the unbounded tier has none. -/
def get? (p : PerTier β) : Tier → Option β
  | .excellent => some p.excellent
  | .good => some p.good
  | .acceptable => some p.acceptable
  | .poor => some p.poor
  | .unacceptable => none

/-- The best tier whose value passes a test; unacceptable if none does. -/
def firstTier (p : PerTier β) (passes : β → Bool) : Tier :=
  if passes p.excellent then .excellent
  else if passes p.good then .good
  else if passes p.acceptable then .acceptable
  else if passes p.poor then .poor
  else .unacceptable

def named (p : PerTier β) (field : String) : List (String × β) :=
  [(field ++ ".excellent", p.excellent), (field ++ ".good", p.good),
    (field ++ ".acceptable", p.acceptable), (field ++ ".poor", p.poor)]

end PerTier

variable {α : Type}

/-- Upper bounds of a metric for the bounded tiers (`TierCeilings`). -/
abbrev Ceilings (α : Type) := PerTier α

/-- Least sample sizes for the bounded tiers (`SampleSizeRequirements`). -/
abbrev SizeMinima := PerTier Nat

structure MetricCeilings (α : Type) where
  moments : PerMoment (Ceilings α)
  total : Ceilings α
deriving BEq

/-- All that one evaluation is graded against. -/
structure ThresholdSet (α : Type) where
  ceilings : MetricCeilings α
  sizes : SizeMinima
deriving BEq

/-- Factors on the ceilings of each moment and of the total (`ContextMultipliers`). -/
structure Multipliers (α : Type) where
  moments : PerMoment α
  total : α
deriving BEq

def checkAll {ε β : Type} (check : β → Except ε Unit) : List β → Except ε Unit
  | [] => .ok ()
  | b :: bs => do
    check b
    checkAll check bs

theorem checkAll_eq_ok_iff {ε β : Type} (check : β → Except ε Unit) (bs : List β) :
    checkAll check bs = .ok () ↔ ∀ b ∈ bs, check b = .ok () := by
  induction bs with
  | nil => simp [checkAll]
  | cons b bs ih =>
    cases h : check b with
    | error e => simp [checkAll, h, bind, Except.bind]
    | ok u => simpa [checkAll, h, bind, Except.bind] using ih

def checkNeighbours {ε β : Type} (check : β → β → Except ε Unit) : List β → Except ε Unit
  | a :: b :: more => do
    check a b
    checkNeighbours check (b :: more)
  | _ => .ok ()

namespace SizeMinima

def tierFor (s : SizeMinima) (n : Nat) : Tier := s.firstTier fun least => least ≤ n

def check (s : SizeMinima) (field : String) : Except (ConfigFault α) Unit :=
  checkNeighbours (fun previous this =>
    if previous.2 < this.2 then .error (.abovePrevious this.1 this.2 previous.1 previous.2)
    else .ok ()) (s.named field)

end SizeMinima

variable [Scalar α]

def checkPositive (field : String) (x : α) : Except (ConfigFault α) Unit :=
  if Scalar.isFinite x && !(x ≤ 0.0) then .ok () else .error (.notPositive field x)

namespace Ceilings

/-- The best tier whose ceiling a value does not exceed; a missing number exceeds them all. -/
def tierFor (c : Ceilings α) (x : α) : Tier := c.firstTier fun ceiling => x ≤ ceiling

def scaled (c : Ceilings α) (factor : α) : Ceilings α := c.map fun x => x * factor

/-- Refuses ceilings that are not finite and positive, or that fall. -/
def check (c : Ceilings α) (field : String) : Except (ConfigFault α) Unit := do
  checkAll (fun e => checkPositive e.1 e.2) (c.named field)
  checkNeighbours (fun previous this =>
    if this.2 < previous.2 then .error (.belowPrevious this.1 this.2 previous.1 previous.2)
    else .ok ()) (c.named field)

end Ceilings

namespace MetricCeilings

def scaled (c : MetricCeilings α) (m : Multipliers α) : MetricCeilings α :=
  ⟨.of fun k => Ceilings.scaled (c.moments.get k) (m.moments.get k),
    Ceilings.scaled c.total m.total⟩

/-- Refuses ceilings that are not sound, those of the moments first. -/
def check (c : MetricCeilings α) (field : String) : Except (ConfigFault α) Unit := do
  checkAll (fun m : Moment => Ceilings.check (c.moments.get m) (field ++ "." ++ m.name)) Key.all
  Ceilings.check c.total (field ++ ".total")

end MetricCeilings

namespace ThresholdSet

def momentTier (s : ThresholdSet α) (m : Moment) (error : α) : Tier :=
  Ceilings.tierFor (s.ceilings.moments.get m) error

def totalTier (s : ThresholdSet α) (error : α) : Tier := Ceilings.tierFor s.ceilings.total error

def sizeTier (s : ThresholdSet α) (n : Nat) : Tier := SizeMinima.tierFor s.sizes n

/-- Refuses a set that is not sound; the first faulty field is named. -/
def check (s : ThresholdSet α) (field : String) : Except (ConfigFault α) Unit := do
  s.ceilings.check (field ++ ".ceilings")
  SizeMinima.check s.sizes (field ++ ".min_sample_size")

/-- The set with its ceilings scaled (`with_context`). -/
def scaled (s : ThresholdSet α) (m : Multipliers α) : ThresholdSet α :=
  ⟨s.ceilings.scaled m, s.sizes⟩

end ThresholdSet

namespace Multipliers

def ones : Multipliers α := ⟨.all 1.0, 1.0⟩

def toList (m : Multipliers α) : List α := m.moments.toList ++ [m.total]

def ofList? : List α → Option (Multipliers α)
  | [a, b, c, d, e] => some ⟨⟨a, b, c, d⟩, e⟩
  | _ => none

def check (m : Multipliers α) (field : String) : Except (ConfigFault α) Unit := do
  checkAll (fun k : Moment => checkPositive (field ++ "." ++ k.name) (m.moments.get k)) Key.all
  checkPositive (field ++ ".total") m.total

end Multipliers

end BinGrade
