import BinGrade.Json.Form

/-!
# Records

The form of a type with named fields. As an object its fields stand in any order, none of them
twice; as a list they stand in their own order. A record is put together field by field: `σ` is the
type of what has been read of the fields so far and `τ` the type of their values, both as nested
pairs in the order of declaration.
-/

namespace BinGrade.Json

/-- The fields of a record. The members of an object are filled in by their names, in any order, and
then make up the values; the values in a list stand in a row. -/
structure Record (σ τ : Type) where
  names : List String
  empty : σ
  fill : String → Tree → σ → Option (Except Fault σ)
  finish : σ → Except Fault τ
  row : List Tree → Ending → Except Fault (τ × List Tree)
  members : τ → List (String × Tree)

namespace Record

variable [NumberReader] {β σ τ : Type}

def nil : Record Unit Unit where
  names := []
  empty := ()
  fill _ _ _ := none
  finish _ := .ok ()
  row items _ := .ok ((), items)
  members _ := []

/-- One more field in front, with the values that stand in for it where an object or a list does not
have it. -/
def cons (name : String) (f : Form β) (absent shortRow : Option β) (r : Record σ τ) :
    Record (Option β × σ) (β × τ) where
  names := name :: r.names
  empty := (none, r.empty)
  fill key t
    | (slot, slots) =>
      if key = name then
        some <| match slot with
          | some _ => .error (.shape (.duplicateField name))
          | none => do
            let b ← f.read t
            pure (some b, slots)
      else (r.fill key t slots).map fun filled => (fun s => (slot, s)) <$> filled
  finish
    | (slot, slots) => do
      let b ← match slot, absent with
        | some b, _ => pure b
        | none, some b => pure b
        | none, none => .error (.shape (.missingField name))
      let bs ← r.finish slots
      pure (b, bs)
  row
    | item :: items, ending => do
      let b ← f.read item
      let (bs, rest) ← r.row items ending
      pure ((b, bs), rest)
    | [], ending => do
      ending.check
      match shortRow with
      | none => .error (.shape .invalidLength)
      | some b =>
        let (bs, rest) ← r.row [] ending
        pure ((b, bs), rest)
  members
    | (b, bs) => (name, f.write b) :: r.members bs

def field (name : String) (f : Form β) (r : Record σ τ) : Record (Option β × σ) (β × τ) :=
  r.cons name f none none

/-- A field that an object may leave out or hold as null. -/
def option (name : String) (f : Form β) (r : Record σ τ) :
    Record (Option (Option β) × σ) (Option β × τ) :=
  r.cons name f.nullable (some none) none

/-- A field with a value that stands in for it wherever it is missing. -/
def defaulted (name : String) (f : Form β) (value : β) (r : Record σ τ) :
    Record (Option β × σ) (β × τ) :=
  r.cons name f (some value) (some value)

/-- Reads the members of an object. A name that no field has is refused, or its value is passed
over. -/
def readMembers (r : Record σ τ) (refusing : Bool) :
    List (Label × Tree) → σ → Except Fault σ
  | [], slots => .ok slots
  | (.unpaired, _) :: _, _ => .error .malformed
  | (.named name, t) :: members, slots => do
    match r.fill name t slots with
    | some filled => readMembers r refusing members (← filled)
    | none =>
      if refusing then .error (.shape (.unknownField name r.names))
      else
        t.skip
        readMembers r refusing members slots

def readList (r : Record σ τ) (items : List Tree) (ending : Ending) : Except Fault τ := do
  let (values, rest) ← r.row items ending
  Form.endRow rest ending
  pure values

def read (r : Record σ τ) (refusing : Bool) : Tree → Except Fault τ
  | .object members ending => do
    let slots ← r.readMembers refusing members r.empty
    ending.check
    r.finish slots
  | .array items ending => r.readList items ending
  | t => .error t.mistyped

def lenient (r : Record σ τ) : Form τ where
  read := r.read false
  write values := .record (r.members values)

def strict (r : Record σ τ) : Form τ where
  read := r.read true
  write values := .record (r.members values)

def tuple (r : Record σ τ) : Form τ where
  read
    | .array items ending => r.readList items ending
    | t => .error t.mistyped
  write values := .list ((r.members values).map (·.2))

end Record

end BinGrade.Json
