import BinGrade.Json.Fault
import BinGrade.Json.Numeral

/-!
# Trees of documents

A tree shows how a text is nested, up to the first place where it stops being a document. Flaws are
part of the tree, at the place where they stand: a list records how it ends, and a value that cannot
be scanned is a broken leaf. Reading a tree from left to right therefore meets faults of the text
and faults of shape in the order in which they stand.
-/

namespace BinGrade.Json

/-- How a list or an object ends. -/
inductive Ending where
  | closed
  /-- The text ends where a comma or the bracket is due. -/
  | cut
  /-- The text ends after a comma. -/
  | cutAfterComma
  /-- Something else stands there; also where the name of a member is due. -/
  | malformed
  /-- A name that cannot be scanned stands there. -/
  | badName (flaw : Flaw)
deriving DecidableEq

inductive Label where
  | named (name : String)
  /-- A name with half of a surrogate pair: it names no text. -/
  | unpaired
deriving DecidableEq

inductive Tree where
  | null
  | bool (value : Bool)
  | number (literal : List Char)
  | text (value : String)
  /-- A string with half of a surrogate pair, and the flaw that follows in it, if any. -/
  | unpaired (after : Option Flaw)
  | array (items : List Tree) (ending : Ending)
  | object (members : List (Label × Tree)) (ending : Ending)
  | broken (flaw : Flaw)

def Flaw.fault : Flaw → Fault
  | malformed => .malformed
  | cut => .cut
  | cutNumber => .cut
  | cutWord _ => .cut

/-- The fault of a flaw in a value that is passed over: a number that is cut short is then no
different from any malformed one. -/
def Flaw.faultWhenSkipped : Flaw → Fault
  | malformed => .malformed
  | cut => .cut
  | cutNumber => .malformed
  | cutWord _ => .cut

/-- The end of a list or an object from which any number of members may be read. -/
def Ending.check : Ending → Except Fault Unit
  | closed => .ok ()
  | cut => .error .cut
  | cutAfterComma => .error .cut
  | malformed => .error .malformed
  | badName f => .error f.fault

/-- The end of a list after its last admissible member: a further comma is already too much. -/
def Ending.checkLast : Ending → Except Fault Unit
  | closed => .ok ()
  | cut => .error .cut
  | _ => .error .malformed

namespace Tree

mutual

def skip : Tree → Except Fault Unit
  | null => .ok ()
  | bool _ => .ok ()
  | number _ => .ok ()
  | text _ => .ok ()
  | unpaired none => .ok ()
  | unpaired (some f) => .error f.faultWhenSkipped
  | array items ending => do skipItems items; ending.check
  | object members ending => do skipMembers members; ending.check
  | broken f => .error f.faultWhenSkipped

def skipItems : List Tree → Except Fault Unit
  | [] => .ok ()
  | t :: ts => do skip t; skipItems ts

def skipMembers : List (Label × Tree) → Except Fault Unit
  | [] => .ok ()
  | (_, t) :: ms => do skip t; skipMembers ms

end

/-- The fault of a value of the wrong type. What cannot be scanned is malformed before it is of a
wrong type, and so is a number out of range. -/
def mistyped [NumberReader] : Tree → Fault
  | number literal =>
    if (NumberReader.read? literal).isSome then .shape .invalidType else .malformed
  | unpaired _ => .malformed
  | broken f => f.fault
  | _ => .shape .invalidType

def list (items : List Tree) : Tree := array items .closed

def record (members : List (String × Tree)) : Tree :=
  object (members.map fun m => (.named m.1, m.2)) .closed

end Tree

end BinGrade.Json
