import BinGrade.Key.Catalog
import BinGrade.Weight

/-!
# Weight tables

A weight vector for each use of a histogram, each shape of a sample and each objective.
-/

namespace BinGrade

structure WeightTables (α : Type) where
  contexts : Context → Weights α
  distributions : Distribution → Weights α
  objectives : Objective → Weights α

/-- The address of a weight vector. -/
inductive WeightRow where
  | context (c : Context)
  | distribution (d : Distribution)
  | objective (o : Objective)
deriving DecidableEq

namespace WeightRow

/-- All rows in the order in which the tables are checked. -/
def all : List WeightRow :=
  Key.all.map context ++ Key.all.map distribution ++ Key.all.map objective

def path : WeightRow → String
  | context c => "contexts." ++ c.name
  | distribution d => "distributions." ++ d.name
  | objective o => "objectives." ++ o.name

end WeightRow

namespace WeightTables

variable {α : Type}

def row (t : WeightTables α) : WeightRow → Weights α
  | .context c => t.contexts c
  | .distribution d => t.distributions d
  | .objective o => t.objectives o

def setRow (t : WeightTables α) (w : Weights α) : WeightRow → WeightTables α
  | .context c => { t with contexts := fun k => if k = c then w else t.contexts k }
  | .distribution d =>
    { t with distributions := fun k => if k = d then w else t.distributions k }
  | .objective o => { t with objectives := fun k => if k = o then w else t.objectives k }

variable [Scalar α]

def builtinContext : Context → Weights α
  | .general => ⟨0.40, 0.30, 0.20, 0.10⟩
  | .monitoring => ⟨0.45, 0.35, 0.12, 0.08⟩
  | .stability => ⟨0.30, 0.45, 0.15, 0.10⟩
  | .anomalyDetection => ⟨0.15, 0.25, 0.25, 0.35⟩
  | .characterization => .even

/-- The built-in weights of each shape. The skewness of a normal sample is noise around zero. -/
def builtinDistribution : Distribution → Weights α
  | .normal => ⟨0.50, 0.42, 0.00, 0.08⟩
  | .quasiNormal => ⟨0.40, 0.32, 0.16, 0.12⟩
  | .asymmetric => ⟨0.30, 0.25, 0.30, 0.15⟩
  | .leptokurtic => ⟨0.25, 0.25, 0.15, 0.35⟩
  | .multimodal => ⟨0.30, 0.30, 0.20, 0.20⟩

def builtinObjective : Objective → Weights α
  | .centralTendency => ⟨0.60, 0.25, 0.10, 0.05⟩
  | .dispersion => ⟨0.20, 0.60, 0.10, 0.10⟩
  | .shape => ⟨0.10, 0.15, 0.40, 0.35⟩
  | .tailRisk => ⟨0.10, 0.20, 0.25, 0.45⟩
  | .balanced => .even

def builtin : WeightTables α := ⟨builtinContext, builtinDistribution, builtinObjective⟩

def checkRow (t : WeightTables α) (r : WeightRow) : Except (ConfigFault α) Unit :=
  match (t.row r).check with
  | .ok _ => .ok ()
  | .error fault => .error (.weightRow r.path fault)

def checkRows (t : WeightTables α) : List WeightRow → Except (ConfigFault α) Unit
  | [] => .ok ()
  | r :: rows => do
    t.checkRow r
    t.checkRows rows

/-- Refuses tables in which some row does not sum to one. -/
def check (t : WeightTables α) : Except (ConfigFault α) Unit := t.checkRows WeightRow.all

end WeightTables

end BinGrade
