import BinGrade.Text.Blank

/-!
# Keys

A key is a member of a small closed set with a stable name. People may spell a key freely: blanks
around it and the case of its letters never matter, and for most sets a hyphen or a space may stand
for an underscore. A text that spells no key of the set is refused together with the set's name.
-/

namespace BinGrade

/-- A closed set of named keys. Its kind is what a message calls a key of the set; in some sets a
hyphen or a space may stand for an underscore. -/
class Key (κ : Type) where
  kind : String
  all : List κ
  name : κ → String
  aliases : κ → List String := fun _ => []
  separatorsAlike : Bool := true

structure UnknownKey where
  kind : String
  text : String
deriving DecidableEq

namespace Key

def foldSeparator (c : Char) : Char :=
  if c = '-' || c = ' ' then '_' else c

/-- The text that a spelling is compared by (`normalize_key`). -/
def fold (separatorsAlike : Bool) (s : String) : String :=
  let cs := (Text.trimChars s.toList).map Char.toLower
  String.ofList (if separatorsAlike then cs.map foldSeparator else cs)

variable {κ : Type} [Key κ]

def answersTo (folded : String) (k : κ) : Bool :=
  (name k :: aliases k).contains folded

def parse (κ : Type) [Key κ] (s : String) : Except UnknownKey κ :=
  match (all : List κ).find? (answersTo (fold (separatorsAlike κ) s)) with
  | some k => .ok k
  | none => .error ⟨kind κ, s⟩

/-- The key with exactly this name. -/
def ofName? (κ : Type) [Key κ] (s : String) : Option κ :=
  (all : List κ).find? fun k => name k == s

def names (κ : Type) [Key κ] : List String :=
  (all : List κ).map name

end Key

end BinGrade
