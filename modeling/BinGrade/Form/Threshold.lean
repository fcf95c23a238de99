import BinGrade.Form.Histogram
import BinGrade.Threshold.Registry

/-!
# Documents of thresholds

Thresholds are read strictly: a field that is not known is refused. Tables are complete; overrides
list the entries that they replace, each of them complete.
-/

namespace BinGrade

open Json Json.Record

variable [NumberReader]

def PerTier.form {β : Type} (f : Form β) : Form (PerTier β) :=
  (field "excellent" f <| field "good" f <| field "acceptable" f <|
    field "poor" f nil).strict.via
    (fun (excellent, good, acceptable, poor, _) => ⟨excellent, good, acceptable, poor⟩)
    (fun p => (p.excellent, p.good, p.acceptable, p.poor, ()))

def Ceilings.form : Form (Ceilings Float) := PerTier.form Form.number

def SizeMinima.form : Form SizeMinima := PerTier.form Form.count

def MetricCeilings.form : Form (MetricCeilings Float) :=
  (field "mean" Ceilings.form <| field "variance" Ceilings.form <|
    field "skewness" Ceilings.form <| field "kurtosis" Ceilings.form <|
    field "total" Ceilings.form nil).strict.via
    (fun (mean, variance, skewness, kurtosis, total, _) =>
      ⟨⟨mean, variance, skewness, kurtosis⟩, total⟩)
    (fun c => (c.moments.mean, c.moments.variance, c.moments.skewness, c.moments.kurtosis,
      c.total, ()))

def ThresholdSet.form : Form (ThresholdSet Float) :=
  (field "ceilings" MetricCeilings.form <|
    field "min_sample_size" SizeMinima.form nil).strict.via
    (fun (ceilings, sizes, _) => ⟨ceilings, sizes⟩) (fun s => (s.ceilings, s.sizes, ()))

def Multipliers.form : Form (Multipliers Float) :=
  (field "mean" Form.number <| field "variance" Form.number <| field "skewness" Form.number <|
    field "kurtosis" Form.number <| field "total" Form.number nil).strict.via
    (fun (mean, variance, skewness, kurtosis, total, _) =>
      ⟨⟨mean, variance, skewness, kurtosis⟩, total⟩)
    (fun m => (m.moments.mean, m.moments.variance, m.moments.skewness, m.moments.kurtosis,
      m.total, ()))

def Precision.tableForm {β : Type} (f : Form β) : Form (Precision → β) :=
  (field "high" f <| field "medium" f <| field "low" f <| field "minimal" f nil).strict.via
    (fun (h, m, l, n, _) => fun
      | .high => h
      | .medium => m
      | .low => l
      | .minimal => n)
    (fun t => (t .high, t .medium, t .low, t .minimal, ()))

def Tables.form : Form (Tables Float) :=
  (field "distributions" (Distribution.tableForm ThresholdSet.form) <|
    field "contexts" (Context.tableForm Multipliers.form) <|
    field "precisions" (Precision.tableForm ThresholdSet.form) nil).strict.via
    (fun (distributions, contexts, precisions, _) => ⟨distributions, contexts, precisions⟩)
    (fun t => (t.distributions, t.contexts, t.precisions, ()))

/-- An entry as the only member of an object, named by its kind. -/
def Entry.form : Form (Entry Float) where
  read := Form.readVariant EntryKind (fun _ => .error (.shape .invalidType)) fun
    | .thresholds, t => .thresholds <$> ThresholdSet.form.read t
    | .multipliers, t => .multipliers <$> Multipliers.form.read t
  write
    | .thresholds set => .record [(EntryKind.thresholds.name, ThresholdSet.form.write set)]
    | .multipliers factors =>
      .record [(EntryKind.multipliers.name, Multipliers.form.write factors)]

/-- Overrides; a table that is left out replaces nothing. -/
def Overrides.form : Form (Overrides Float) :=
  (defaulted "distributions" (Form.table Distribution ThresholdSet.form) (fun _ => none) <|
    defaulted "contexts" (Form.table Context Multipliers.form) (fun _ => none) <|
    defaulted "precisions" (Form.table Precision ThresholdSet.form) (fun _ => none)
      nil).strict.via
    (fun (distributions, contexts, precisions, _) => ⟨distributions, contexts, precisions⟩)
    (fun o => (o.distributions, o.contexts, o.precisions, ()))

def Overrides.ofDocument (s : String) : Except (Error Float) (Overrides Float) :=
  (Overrides.form.parse s).mapError .document

namespace Registry

/-- Replaces the entries that a document lists, all or none of them (`load_overrides_json`). -/
def load (s : String) : Change (Error Float) Float Unit :=
  match Overrides.ofDocument s with
  | .error fault => throw fault
  | .ok o => EStateM.adaptExcept .invalidConfig (override o)

/-- Replaces the entries that a file with these contents lists; none if it cannot be read. -/
def loadFile : Option String → Change (Error Float) Float Unit
  | some s => load s
  | none => throw .file

/-- The registry whose tables are the built-in ones with the entries of a document
(`with_overrides_json`). -/
def ofOverrides (s : String) : Except (Error Float) (Registry Float) :=
  Change.outcome (load s) .standard

/-- A change of a registry. -/
inductive Operation where
  | update (slot : Slot) (entry : Entry Float)
  | override (entries : Overrides Float)
  | load (document : String)
  | loadFile (contents : Option String)
  | reset

def perform : Operation → Change (Error Float) Float Unit
  | .update slot e => EStateM.adaptExcept .invalidConfig (update slot e)
  | .override o => EStateM.adaptExcept .invalidConfig (override o)
  | .load s => load s
  | .loadFile contents => loadFile contents
  | .reset => EStateM.adaptExcept .invalidConfig reset

/-- The registry after a change, if the change is carried out. -/
def apply (r : Registry Float) (op : Operation) : Except (Error Float) (Registry Float) :=
  Change.outcome (perform op) r

/-- The registry that a change leaves, carried out or not. -/
def after (r : Registry Float) (op : Operation) : Registry Float := Change.left (perform op) r

end Registry

end BinGrade
