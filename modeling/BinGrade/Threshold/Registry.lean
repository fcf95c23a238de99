import BinGrade.Threshold.Builtin

/-!
# The registry of thresholds

The registry owns the tables in force. A change is carried out on a copy, which takes the place of
the tables only if it is sound as a whole; a change that is refused leaves everything as it was. What
a caller has taken from the registry before is not touched by later changes.
-/

namespace BinGrade

/-- Entries that are to replace those of the tables, at most one for each slot
(`ThresholdOverrides`). -/
structure Overrides (α : Type) where
  distributions : Distribution → Option (ThresholdSet α)
  contexts : Context → Option (Multipliers α)
  precisions : Precision → Option (ThresholdSet α)

namespace Overrides

variable {α : Type}

def find? (o : Overrides α) : Slot → Option (Entry α)
  | .distribution d => (o.distributions d).map .thresholds
  | .context c => (o.contexts c).map .multipliers
  | .precision p => (o.precisions p).map .thresholds

def entries (o : Overrides α) : List (Slot × Entry α) :=
  Slot.all.filterMap fun slot => (o.find? slot).map fun e => (slot, e)

theorem mem_entries {o : Overrides α} {slot : Slot} {e : Entry α} :
    (slot, e) ∈ o.entries ↔ o.find? slot = some e := by
  simp only [entries, List.mem_filterMap, Option.map_eq_some_iff]
  constructor
  · rintro ⟨s, _, e', h, heq⟩
    cases heq
    exact h
  · exact fun h => ⟨slot, Slot.mem_all slot, e, h, rfl⟩

/-- An override is always of the kind that its slot holds. -/
theorem kind_of_find? {o : Overrides α} {slot : Slot} {e : Entry α}
    (h : o.find? slot = some e) : e.kind = slot.expected := by
  cases slot <;>
    · simp only [find?, Option.map_eq_some_iff] at h
      obtain ⟨_, _, rfl⟩ := h
      rfl

def size (o : Overrides α) : Nat := o.entries.length

def isEmpty (o : Overrides α) : Bool := o.size = 0

end Overrides

/-- The tables in force (`ThresholdRegistry`). -/
structure Registry (α : Type) where
  tables : Tables α

/-- A change of tables in place. A change that is refused on its way leaves the tables as far as it
came. -/
abbrev Edit (α : Type) := EStateM (ConfigFault α) (Tables α)

abbrev Change (ε α : Type) := EStateM ε (Registry α)

namespace Edit

variable {α : Type}

def put (slot : Slot) (e : Entry α) : Edit α Unit := fun t =>
  match t.put slot e with
  | .ok next => .ok () next
  | .error fault => .error fault t

def putAll : List (Slot × Entry α) → Edit α Unit
  | [] => pure ()
  | (slot, e) :: entries => do
    put slot e
    putAll entries

def reset [Scalar α] : Edit α Unit := set (Tables.builtin : Tables α)

end Edit

namespace Change

variable {ε α : Type}

/-- The registry after a change, if the change is carried out. -/
def outcome (change : Change ε α Unit) (r : Registry α) : Except ε (Registry α) :=
  match change.run r with
  | .ok _ next => .ok next
  | .error fault _ => .error fault

/-- The registry that a change leaves, carried out or not. -/
def left (change : Change ε α Unit) (r : Registry α) : Registry α :=
  match change.run r with
  | .ok _ next => next
  | .error _ next => next

end Change

namespace Registry

variable {α : Type} [Scalar α]

def standard : Registry α := ⟨.builtin⟩

def ofTables (t : Tables α) : Except (ConfigFault α) (Registry α) := do
  t.check
  pure ⟨t⟩

/-- Changes a copy of the tables and puts it in force if it is sound. -/
def replace (edit : Edit α Unit) : Change (ConfigFault α) α Unit := do
  let r ← get
  match edit.run r.tables with
  | .error fault _ => throw fault
  | .ok _ draft =>
    match draft.check with
    | .error fault => throw fault
    | .ok _ => set (Registry.mk draft)

def update (slot : Slot) (e : Entry α) : Change (ConfigFault α) α Unit := replace (.put slot e)

/-- Replaces several entries, all or none of them (`apply_overrides`). -/
def override (o : Overrides α) : Change (ConfigFault α) α Unit := replace (.putAll o.entries)

def reset : Change (ConfigFault α) α Unit := replace .reset

def thresholds (r : Registry α) (d : Distribution) (c : Context) (p : Option Precision) :
    ThresholdSet α :=
  r.tables.resolve d c p

def parseOptional (κ : Type) [Key κ] : Option String → Except UnknownKey (Option κ)
  | none => .ok none
  | some s => some <$> Key.parse κ s

/-- The threshold set for keys that are spelled out; the strictness is looked at first. -/
def thresholdsByName (r : Registry α) (d c : String) (p : Option String) :
    Except UnknownKey (ThresholdSet α) := do
  let p ← parseOptional Precision p
  let d ← Key.parse Distribution d
  let c ← Key.parse Context c
  pure (r.thresholds d c p)

end Registry

end BinGrade
