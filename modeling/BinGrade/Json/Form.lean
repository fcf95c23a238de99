import BinGrade.Json.Scan
import BinGrade.Json.Print
import BinGrade.Key

/-!
# Forms

A form says how values of a type stand in documents: how they are read from a tree and how they are
written as one. Forms of compound types are put together from the forms of their parts, and reading
goes through a tree from left to right, so the first fault in the text is the one reported.
-/

namespace BinGrade.Json

structure Form (β : Type) where
  read : Tree → Except Fault β
  write : β → Tree

namespace Form

variable [NumberReader]

/-! ### Leaves -/

/-- A number; any numeral in range. What is not finite is written as null and not read back. -/
def number : Form Float where
  read
    | .number literal =>
      match NumberReader.read? literal with
      | some x => .ok x
      | none => .error .malformed
    | t => .error t.mistyped
  write x :=
    match Decimal.document? x with
    | some s => .number s.toList
    | none => .null

/-- A count; a whole number without sign, fraction or exponent. -/
def count : Form Nat where
  read
    | .number literal =>
      match Numeral.toCount literal with
      | .count n => .ok n
      | .negative => .error (.shape .invalidValue)
      | .other => .error (Tree.number literal).mistyped
    | t => .error t.mistyped
  write n := .number (Decimal.digitsOf n)

def bool : Form Bool where
  read
    | .bool b => .ok b
    | t => .error t.mistyped
  write := .bool

def text : Form String where
  read
    | .text s => .ok s
    | t => .error t.mistyped
  write := .text

/-! ### Named alternatives -/

def keyNamed (κ : Type) [Key κ] : Label → Except Fault κ
  | .unpaired => .error .malformed
  | .named s =>
    match Key.ofName? κ s with
    | some k => .ok k
    | none => .error (.shape (.unknownVariant s (Key.names κ)))

/-- The one member of an object that selects an alternative by its name: the name is looked up, then
its value is read, and nothing may follow. -/
def selected {γ β : Type} (choose : Label → Except Fault γ) (payload : γ → Tree → Except Fault β) :
    List (Label × Tree) → Ending → Except Fault β
  | (name, value) :: more, ending => do
    let c ← choose name
    let v ← payload c value
    match more with
    | [] => ending.checkLast
    | _ :: _ => .error .malformed
    pure v
  | [], ending => do
    ending.check
    .error .malformed

def nothing : Tree → Except Fault Unit
  | .null => .ok ()
  | t => .error t.mistyped

/-- Reads an alternative: the name of one alone, or an object whose only member has its name. -/
def readVariant {β : Type} (κ : Type) [Key κ] (bare : κ → Except Fault β)
    (payload : κ → Tree → Except Fault β) : Tree → Except Fault β
  | .text s => do bare (← keyNamed κ (.named s))
  | .object members ending => selected (keyNamed κ) payload members ending
  | .broken .cut => .error .cut
  | _ => .error .malformed

/-- A key by its name, or as the name of an only member whose value is null. -/
def key (κ : Type) [Key κ] : Form κ where
  read := readVariant κ .ok fun k t => do nothing t; pure k
  write k := .text (Key.name k)

/-! ### Optional values, lists and tables -/

variable {β γ : Type}

def nullable (f : Form β) : Form (Option β) where
  read
    | .null => .ok none
    | .broken (.cutWord 'n') => .error .cut
    | t => some <$> f.read t
  write
    | none => .null
    | some b => f.write b

def list (f : Form β) : Form (List β) where
  read
    | .array items ending => do
      let bs ← items.mapM f.read
      ending.check
      pure bs
    | t => .error t.mistyped
  write bs := .list (bs.map f.write)

def endRow (rest : List Tree) (ending : Ending) : Except Fault Unit :=
  match rest with
  | [] => ending.checkLast
  | _ :: _ => .error .malformed

/-- The members of a table of keys, the last one with a name counting. -/
def readTable (κ : Type) [Key κ] [DecidableEq κ] (f : Form β) :
    List (Label × Tree) → (κ → Option β) → Except Fault (κ → Option β)
  | [], table => .ok table
  | (name, t) :: members, table => do
    let k ← keyNamed κ name
    let b ← f.read t
    readTable κ f members fun j => if j = k then some b else table j

def table (κ : Type) [Key κ] [DecidableEq κ] (f : Form β) : Form (κ → Option β) where
  read
    | .object members ending => do
      let t ← readTable κ f members fun _ => none
      ending.check
      pure t
    | t => .error t.mistyped
  write t :=
    .record ((Key.all : List κ).filterMap fun k => (t k).map fun b => (Key.name k, f.write b))

/-! ### Change of type -/

def via (f : Form γ) (make : γ → β) (back : β → γ) : Form β where
  read t := make <$> f.read t
  write b := f.write (back b)

/-- The form of a type that accepts only some values: they are read completely, then checked. -/
def checked (f : Form γ) (check : γ → Except String β) (back : β → γ) : Form β where
  read t := do
    let c ← f.read t
    match check c with
    | .ok b => .ok b
    | .error reason => .error (.shape (.rejected reason))
  write b := f.write (back b)

/-! ### Documents -/

/-- The value of a document. That nothing follows it is checked last. -/
def parse (f : Form β) (s : String) : Except Fault β :=
  match scan s with
  | (t, rest) => do
    let b ← f.read t
    match skipBlanks rest with
    | [] => pure b
    | _ :: _ => .error .malformed

def print (f : Form β) (b : β) : String := (f.write b).render

end Form

end BinGrade.Json
