import BinGrade.Json.Tree

/-!
# Scanning documents

From a text to its tree. Blanks may stand between the parts; the leaves are words, numerals and
strings; lists and objects nest. The scanner always gives a tree and the text after it.
-/

namespace BinGrade.Json

def isBlank (c : Char) : Bool :=
  c = ' ' || c = '\t' || c = '\n' || c = '\r'

def skipBlanks (cs : List Char) : List Char := cs.dropWhile isBlank

/-! ### Words -/

/-- The text after the letters of a word with this initial, which must stand here. -/
def scanWord (initial : Char) : List Char → List Char → Except Flaw (List Char)
  | [], cs => .ok cs
  | _ :: _, [] => .error (.cutWord initial)
  | w :: ws, c :: cs => if c = w then scanWord initial ws cs else .error .malformed

/-! ### Strings -/

/-- One unit of a string: a character, or a code unit given by its number. -/
inductive StringUnit where
  | char (c : Char)
  | code (n : Nat)
deriving DecidableEq

def hexValue? (c : Char) : Option Nat :=
  if '0' ≤ c && c ≤ '9' then some (c.toNat - '0'.toNat)
  else if 'a' ≤ c && c ≤ 'f' then some (c.toNat - 'a'.toNat + 10)
  else if 'A' ≤ c && c ≤ 'F' then some (c.toNat - 'A'.toNat + 10)
  else none

def hexQuad? (a b c d : Char) : Option Nat := do
  let a ← hexValue? a
  let b ← hexValue? b
  let c ← hexValue? c
  let d ← hexValue? d
  pure (((a * 16 + b) * 16 + c) * 16 + d)

/-- The flaw of a text that should begin with four hexadecimal digits: with fewer than four bytes it
is cut, else malformed. -/
def shortQuad (cs : List Char) : Flaw :=
  if (String.ofList cs).utf8ByteSize < 4 then .cut else .malformed

def escaped? : Char → Option Char
  | '"' => some '"'
  | '\\' => some '\\'
  | '/' => some '/'
  | 'b' => some '\x08'
  | 'f' => some '\x0c'
  | 'n' => some '\n'
  | 'r' => some '\r'
  | 't' => some '\t'
  | _ => none

/-- The units of a string up to its closing quote, and the text after it or the flaw that ends the
string early. -/
def scanUnits : List Char → List StringUnit × Except Flaw (List Char)
  | [] => ([], .error .cut)
  | '"' :: cs => ([], .ok cs)
  | ['\\'] => ([], .error .cut)
  | '\\' :: 'u' :: a :: b :: c :: d :: cs =>
    match hexQuad? a b c d with
    | some n =>
      let (units, stop) := scanUnits cs
      (.code n :: units, stop)
    | none => ([], .error (shortQuad (a :: b :: c :: d :: cs)))
  | '\\' :: 'u' :: cs => ([], .error (shortQuad cs))
  | '\\' :: e :: cs =>
    match escaped? e with
    | some c =>
      let (units, stop) := scanUnits cs
      (.char c :: units, stop)
    | none => ([], .error .malformed)
  | c :: cs =>
    if c.toNat < 0x20 then ([], .error .malformed)
    else
      let (units, stop) := scanUnits cs
      (.char c :: units, stop)

def isLeading (n : Nat) : Bool := 0xD800 ≤ n && n ≤ 0xDBFF

def isTrailing (n : Nat) : Bool := 0xDC00 ≤ n && n ≤ 0xDFFF

def joinPair (leading trailing : Nat) : Char :=
  Char.ofNat ((leading - 0xD800) * 0x400 + (trailing - 0xDC00) + 0x10000)

/-- The characters of the units of a string that goes on or ends as told; none if a surrogate stands
without its other half. A leading half at the very end of a string that was cut is not yet alone. -/
def joinUnits (ended : Bool) : List StringUnit → Option (List Char)
  | [] => some []
  | .char c :: us => (joinUnits ended us).map (c :: ·)
  | [.code n] =>
    if isTrailing n then none
    else if isLeading n then (if ended then none else some [])
    else some [Char.ofNat n]
  | .code n :: .code m :: us =>
    if isTrailing n then none
    else if isLeading n then
      if isTrailing m then (joinUnits ended us).map (joinPair n m :: ·) else none
    else (joinUnits ended (.code m :: us)).map (Char.ofNat n :: ·)
  | .code n :: .char c :: us =>
    if isTrailing n || isLeading n then none
    else (joinUnits ended us).map fun cs => Char.ofNat n :: c :: cs

def scanString (cs : List Char) : Tree × List Char :=
  match scanUnits cs with
  | (units, .ok rest) =>
    match joinUnits true units with
    | some chars => (.text (String.ofList chars), rest)
    | none => (.unpaired none, rest)
  | (units, .error flaw) =>
    match joinUnits false units with
    | some _ => (.broken flaw, [])
    | none => (.unpaired (some flaw), [])

/-! ### Nesting -/

def scanLiteral (initial : Char) (letters : List Char) (value : Tree) (cs : List Char) :
    Tree × List Char :=
  match scanWord initial letters cs with
  | .ok rest => (value, rest)
  | .error flaw => (.broken flaw, [])

def scanNumber (cs : List Char) : Tree × List Char :=
  match Numeral.scan cs with
  | .ok (literal, rest) => (.number literal, rest)
  | .error flaw => (.broken flaw, [])

mutual

/-- The value at the start of a text; the first argument bounds the nesting that is followed. -/
def scanValue : Nat → List Char → Tree × List Char
  | 0, _ => (.broken .malformed, [])
  | fuel + 1, cs =>
    match skipBlanks cs with
    | [] => (.broken .cut, [])
    | '[' :: cs =>
      match skipBlanks cs with
      | [] => (.array [] .cut, [])
      | ']' :: cs => (.array [] .closed, cs)
      | cs =>
        let (items, ending, rest) := scanItems fuel cs
        (.array items ending, rest)
    | '\x7b' :: cs =>
      match skipBlanks cs with
      | [] => (.object [] .cut, [])
      | '\x7d' :: cs => (.object [] .closed, cs)
      | '"' :: cs =>
        let (members, ending, rest) := scanMembers fuel cs
        (.object members ending, rest)
      | _ => (.object [] .malformed, [])
    | '"' :: cs => scanString cs
    | 'n' :: cs => scanLiteral 'n' ['u', 'l', 'l'] .null cs
    | 't' :: cs => scanLiteral 't' ['r', 'u', 'e'] (.bool true) cs
    | 'f' :: cs => scanLiteral 'f' ['a', 'l', 's', 'e'] (.bool false) cs
    | c :: cs =>
      if c = '-' || Numeral.isDigit c then scanNumber (c :: cs) else (.broken .malformed, [])

def scanItems : Nat → List Char → List Tree × Ending × List Char
  | 0, _ => ([], .malformed, [])
  | fuel + 1, cs =>
    let (item, rest) := scanValue fuel cs
    match skipBlanks rest with
    | [] => ([item], .cut, [])
    | ']' :: rest => ([item], .closed, rest)
    | ',' :: rest =>
      match skipBlanks rest with
      | [] => ([item], .cutAfterComma, [])
      | ']' :: _ => ([item], .malformed, [])
      | rest =>
        let (items, ending, rest) := scanItems fuel rest
        (item :: items, ending, rest)
    | _ => ([item], .malformed, [])

/-- The members of an object from the first one on, whose opening quote has been passed. -/
def scanMembers : Nat → List Char → List (Label × Tree) × Ending × List Char
  | 0, _ => ([], .malformed, [])
  | fuel + 1, cs =>
    match scanString cs with
    | (.text name, rest) => scanMember fuel (.named name) rest
    | (.unpaired none, rest) => scanMember fuel .unpaired rest
    | (.unpaired (some flaw), _) => ([(.unpaired, .broken flaw)], .cut, [])
    | (.broken flaw, _) => ([], .badName flaw, [])
    | _ => ([], .malformed, [])

def scanMember : Nat → Label → List Char → List (Label × Tree) × Ending × List Char
  | 0, _, _ => ([], .malformed, [])
  | fuel + 1, name, cs =>
    match skipBlanks cs with
    | [] => ([(name, .broken .cut)], .cut, [])
    | ':' :: cs =>
      let (value, rest) := scanValue fuel cs
      match skipBlanks rest with
      | [] => ([(name, value)], .cut, [])
      | '\x7d' :: rest => ([(name, value)], .closed, rest)
      | ',' :: rest =>
        match skipBlanks rest with
        | [] => ([(name, value)], .cutAfterComma, [])
        | '"' :: rest =>
          let (members, ending, rest) := scanMembers fuel rest
          ((name, value) :: members, ending, rest)
        | _ => ([(name, value)], .malformed, [])
      | _ => ([(name, value)], .malformed, [])
    | _ => ([(name, .broken .malformed)], .malformed, [])

end

/-- The tree of a text, and what follows it. Each step of the scanner passes a character, so twice
the length of the text is as much nesting as there can be. -/
def scan (s : String) : Tree × List Char :=
  let cs := s.toList
  scanValue (2 * cs.length + 2) cs

end BinGrade.Json
