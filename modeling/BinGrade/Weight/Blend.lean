import BinGrade.Shape.Label
import BinGrade.Weight.Tables

/-!
# Blending weights

The weights of an evaluation start from those of the use and are pulled towards those of the shape
and of the objective. Each pull is as strong as its signal is trusted, and both together are never
stronger than a bound.
-/

namespace BinGrade

/-- How strongly signals may pull the weights away from those of the use (`WeightInfluence`), by
themselves and together. -/
structure Influence (α : Type) where
  distribution : α
  objective : α
  maxBlend : α
deriving BEq

structure Signal (α : Type) where
  weights : Weights α
  confidence : α

/-- The weights and how they are blended (`AdaptiveWeightEngine`). -/
structure WeightEngine (α : Type) where
  tables : WeightTables α
  influence : Influence α

structure Strengths (α : Type) where
  distribution : α
  objective : α
deriving BEq

variable {α : Type} [Scalar α]

namespace Influence

def standard : Influence α := ⟨1.0, 0.5, 0.95⟩

def contextOnly : Influence α := ⟨0.0, 0.0, 0.95⟩

def conservative : Influence α := ⟨0.5, 0.25, 0.75⟩

def sanitized (i : Influence α) : Influence α :=
  ⟨Scalar.unit i.distribution, Scalar.unit i.objective, Scalar.unit i.maxBlend⟩

end Influence

namespace WeightEngine

def standard : WeightEngine α := ⟨.builtin, .standard⟩

def ofTables (t : WeightTables α) (i : Influence α) : Except (ConfigFault α) (WeightEngine α) := do
  t.check
  pure ⟨t, i.sanitized⟩

def ofInfluence (i : Influence α) : WeightEngine α := ⟨.builtin, i.sanitized⟩

/-- Strength of a signal of some confidence, none if there is no signal. -/
def strength (influence : α) : Option α → α
  | some confidence => Scalar.unit confidence * influence
  | none => 0.0 * influence

/-- The strengths of the two pulls for given confidences (`blend_strengths`). If together they are
beyond the bound, both are scaled down in proportion. -/
def strengths (e : WeightEngine α) (distribution objective : Option α) : Strengths α :=
  let d := strength e.influence.distribution distribution
  let o := strength e.influence.objective objective
  let both := d + o
  if e.influence.maxBlend < both then
    let scale := e.influence.maxBlend / both
    ⟨d * scale, o * scale⟩
  else ⟨d, o⟩

/-- The mixture of three vectors: what the pulls leave goes to the first. -/
def mixture (s : Strengths α) (context distribution objective : Weights α) : Weights α :=
  let keep := 1.0 - s.distribution - s.objective
  .of fun m =>
    keep * context.get m + s.distribution * distribution.get m + s.objective * objective.get m

/-- The weights of the use, pulled towards those of the signals and scaled to sum to one. Without any
effective signal they come back unchanged. -/
def combine (e : WeightEngine α) (context : Weights α) (distribution objective : Option (Signal α)) :
    Weights α :=
  let s := e.strengths (distribution.map (·.confidence)) (objective.map (·.confidence))
  if s.distribution + s.objective ≤ 0.0 then context
  else
    let towards (signal : Option (Signal α)) : Weights α :=
      (signal.map (·.weights)).getD (.all 0.0)
    match (mixture s context (towards distribution) (towards objective)).normalize with
    | .ok w => w
    | .error _ => context

/-- The weights for a use, a label and an objective; the objective is fully trusted. -/
def resolve (e : WeightEngine α) (c : Context) (label : Option (ShapeLabel α))
    (objective : Option Objective) : Weights α :=
  e.combine (e.tables.contexts c)
    (label.map fun l => ⟨e.tables.distributions l.distribution, l.confidence⟩)
    (objective.map fun o => ⟨e.tables.objectives o, 1.0⟩)

end WeightEngine

end BinGrade
