import BinGrade.Json.Tree

/-!
# Printing documents

The compact text of a tree: no blanks, members in their order, and strings with as few escapes as the
format allows.
-/

namespace BinGrade.Json

def hexDigit (n : Nat) : Char :=
  if n < 10 then Char.ofNat ('0'.toNat + n) else Char.ofNat ('a'.toNat + (n - 10))

/-- A character of a string: the quote, the backslash and the control characters are escaped. -/
def escape (c : Char) : List Char :=
  if c = '"' then ['\\', '"']
  else if c = '\\' then ['\\', '\\']
  else if c = '\x08' then ['\\', 'b']
  else if c = '\x0c' then ['\\', 'f']
  else if c = '\n' then ['\\', 'n']
  else if c = '\r' then ['\\', 'r']
  else if c = '\t' then ['\\', 't']
  else if c.toNat < 0x20 then ['\\', 'u', '0', '0', hexDigit (c.toNat / 16), hexDigit (c.toNat % 16)]
  else [c]

def printString (s : String) : List Char :=
  '"' :: s.toList.flatMap escape ++ ['"']

namespace Tree

mutual

/-- The text of a tree; flaws have none. -/
def print : Tree → List Char
  | null => ['n', 'u', 'l', 'l']
  | bool true => ['t', 'r', 'u', 'e']
  | bool false => ['f', 'a', 'l', 's', 'e']
  | number literal => literal
  | text s => printString s
  | array items _ => '[' :: printItems items ++ [']']
  | object members _ => '\x7b' :: printMembers members ++ ['\x7d']
  | unpaired _ => []
  | broken _ => []

def printItems : List Tree → List Char
  | [] => []
  | [t] => print t
  | t :: ts => print t ++ ',' :: printItems ts

def printMembers : List (Label × Tree) → List Char
  | [] => []
  | [(name, t)] => printLabel name ++ ':' :: print t
  | (name, t) :: ms => printLabel name ++ ':' :: print t ++ ',' :: printMembers ms

def printLabel : Label → List Char
  | .named name => printString name
  | .unpaired => []

end

def render (t : Tree) : String := String.ofList t.print

end Tree

end BinGrade.Json
