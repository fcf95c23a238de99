import BinGrade.Threshold

/-!
# Threshold tables

A threshold set for each shape, factors for each use, and a threshold set for each strictness. The
set that an evaluation is graded against is that of the shape, scaled for the use; a strictness that
is asked for replaces it by its own set. An entry of the tables is addressed by a slot.
-/

namespace BinGrade

structure Tables (α : Type) where
  distributions : Distribution → ThresholdSet α
  contexts : Context → Multipliers α
  precisions : Precision → ThresholdSet α

/-- The address of an entry (`RegistryKey`). -/
inductive Slot where
  | distribution (d : Distribution)
  | context (c : Context)
  | precision (p : Precision)
deriving DecidableEq

inductive EntryKind where
  | thresholds
  | multipliers
deriving DecidableEq

def EntryKind.name : EntryKind → String
  | thresholds => "thresholds"
  | multipliers => "multipliers"

instance : Key EntryKind where
  kind := "entry"
  all := [.thresholds, .multipliers]
  name := EntryKind.name

/-- A new entry (`EntryConfig`). -/
inductive Entry (α : Type) where
  | thresholds (set : ThresholdSet α)
  | multipliers (factors : Multipliers α)
deriving BEq

namespace Slot

/-- All slots in the order in which the tables are checked. -/
def all : List Slot :=
  Key.all.map distribution ++ Key.all.map context ++ Key.all.map precision

theorem mem_all (s : Slot) : s ∈ all := by
  rcases s with d | c | p
  · cases d <;> decide
  · cases c <;> decide
  · cases p <;> decide

def path : Slot → String
  | distribution d => "distributions." ++ d.name
  | context c => "contexts." ++ c.name
  | precision p => "precisions." ++ p.name

def expected : Slot → EntryKind
  | context _ => .multipliers
  | _ => .thresholds

def splitColon : List Char → Option (List Char × List Char)
  | [] => none
  | ':' :: cs => some ([], cs)
  | c :: cs => (splitColon cs).map fun s => (c :: s.1, s.2)

/-- The slot that a text such as `context:stability` spells. The word before the colon is exact up to
blanks around it; the rest is a key, spelled as freely as keys are. -/
def parse (s : String) : Except UnknownKey Slot :=
  match splitColon s.toList with
  | none => .error ⟨"registry", s⟩
  | some (table, key) =>
    let word := String.ofList (Text.trimChars table)
    let key := String.ofList key
    if word = "distribution" then distribution <$> Key.parse Distribution key
    else if word = "context" then context <$> Key.parse Context key
    else if word = "precision" then precision <$> Key.parse Precision key
    else .error ⟨"registry", s⟩

end Slot

def Entry.kind {α : Type} : Entry α → EntryKind
  | thresholds _ => .thresholds
  | multipliers _ => .multipliers

/-- Refuses an entry that is not sound; fields are named below the given path. -/
def Entry.check {α : Type} [Scalar α] (path : String) : Entry α → Except (ConfigFault α) Unit
  | thresholds set => set.check path
  | multipliers factors => factors.check path

namespace Tables

variable {α : Type}

def entry (t : Tables α) : Slot → Entry α
  | .distribution d => .thresholds (t.distributions d)
  | .context c => .multipliers (t.contexts c)
  | .precision p => .thresholds (t.precisions p)

/-- Puts an entry into a slot, if it is of the kind that the slot holds. -/
def put (t : Tables α) (slot : Slot) (e : Entry α) : Except (ConfigFault α) (Tables α) :=
  match slot, e with
  | .distribution d, .thresholds set =>
    .ok { t with distributions := fun k => if k = d then set else t.distributions k }
  | .precision p, .thresholds set =>
    .ok { t with precisions := fun k => if k = p then set else t.precisions k }
  | .context c, .multipliers factors =>
    .ok { t with contexts := fun k => if k = c then factors else t.contexts k }
  | slot, e => .error (.wrongEntry slot.path slot.expected.name e.kind.name)

/-- After an entry is put into a slot, that slot holds it and all others hold what they did. -/
theorem entry_put {t next : Tables α} {slot : Slot} {e : Entry α} (h : t.put slot e = .ok next)
    (k : Slot) : next.entry k = if k = slot then e else t.entry k := by
  rcases slot with d | c | p <;> rcases e with set | factors <;> simp only [put] at h <;>
    cases h <;> rcases k with d' | c' | p' <;> simp [entry] <;> split <;> simp_all

variable [Scalar α]

/-- The set that an evaluation is graded against. -/
def resolve (t : Tables α) (d : Distribution) (c : Context) (p : Option Precision) :
    ThresholdSet α :=
  match p with
  | some level => t.precisions level
  | none => (t.distributions d).scaled (t.contexts c)

/-- Refuses tables in which some entry is not sound, in the order of the slots. -/
def check (t : Tables α) : Except (ConfigFault α) Unit :=
  checkAll (fun slot : Slot => (t.entry slot).check slot.path) Slot.all

def changes (t base : Tables α) : List Slot :=
  Slot.all.filter fun slot => !(t.entry slot == base.entry slot)

end Tables

end BinGrade
