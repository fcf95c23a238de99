import BinGrade.Json.Form
import Mathlib.Data.List.DropRight
import Mathlib.Data.List.Forall2

/-!
# The grammar of documents

What a tree may look like as a text: numerals and strings in any of their spellings, and blanks
wherever two parts meet. The leaves are scanned as they are spelled, and the scanner stops right
behind them.
-/

namespace BinGrade.Json

/-! ### Blanks -/

/-- A run of blanks. -/
abbrev Blanks := {cs : List Char // ∀ c ∈ cs, isBlank c = true}

theorem skipBlanks_append (bs : Blanks) (cs : List Char) : skipBlanks (bs ++ cs) = skipBlanks cs :=
  List.dropWhile_append_of_pos bs.property

theorem skipBlanks_cons {c : Char} (h : isBlank c = false) (cs : List Char) :
    skipBlanks (c :: cs) = c :: cs := by
  unfold skipBlanks
  rw [List.dropWhile_cons, h, if_neg Bool.false_ne_true]

/-- Blanks before a sign that is none. -/
theorem skipBlanks_upTo (bs : Blanks) {c : Char} (h : isBlank c = false) (cs : List Char) :
    skipBlanks (bs ++ c :: cs) = c :: cs := by
  rw [skipBlanks_append, skipBlanks_cons h]

theorem skipBlanks_idem (cs : List Char) : skipBlanks (skipBlanks cs) = skipBlanks cs :=
  List.dropWhile_idempotent _ _

/-! ### Numerals -/

namespace Numeral

/-- One digit or more. -/
def IsDigits (ds : List Char) : Prop := ds ≠ [] ∧ ∀ c ∈ ds, isDigit c = true

/-- A single zero, or digits of which the first is another one. -/
def IsWhole (ds : List Char) : Prop := IsDigits ds ∧ ∀ d ts, ds ≠ '0' :: d :: ts

inductive IsFraction : List Char → Prop
  | none : IsFraction []
  | point {ds : List Char} (h : IsDigits ds) : IsFraction ('.' :: ds)

inductive IsExponent : List Char → Prop
  | none : IsExponent []
  | mark {e : Char} {sign ds : List Char} (he : e = 'e' ∨ e = 'E')
    (hsign : sign = [] ∨ sign = ['+'] ∨ sign = ['-']) (h : IsDigits ds) :
    IsExponent (e :: (sign ++ ds))

inductive IsNumeral : List Char → Prop
  | unsigned {ds fs es : List Char} (hd : IsWhole ds) (hf : IsFraction fs) (he : IsExponent es) :
    IsNumeral (ds ++ (fs ++ es))
  | minus {ds fs es : List Char} (hd : IsWhole ds) (hf : IsFraction fs) (he : IsExponent es) :
    IsNumeral ('-' :: (ds ++ (fs ++ es)))

/-- What follows a numeral and cannot belong to it. -/
def Stops (rest : List Char) : Prop :=
  ∀ c, rest.head? = some c → isDigit c = false ∧ c ≠ '.' ∧ c ≠ 'e' ∧ c ≠ 'E'

variable {ds fs es rest : List Char}

theorem IsDigits.exists_eq (h : IsDigits ds) : ∃ c cs, ds = c :: cs ∧ isDigit c = true := by
  obtain ⟨hne, hds⟩ := h
  cases ds with
  | nil => exact absurd rfl hne
  | cons c cs => exact ⟨c, cs, rfl, hds c List.mem_cons_self⟩

theorem IsNumeral.exists_eq {cs : List Char} (h : IsNumeral cs) :
    ∃ c more, cs = c :: more ∧ (c = '-' ∨ isDigit c = true) := by
  cases h with
  | unsigned hd hf he =>
    obtain ⟨c, more, rfl, hc⟩ := hd.1.exists_eq
    exact ⟨c, _, rfl, .inr hc⟩
  | minus hd hf he => exact ⟨'-', _, rfl, .inl rfl⟩

theorem IsExponent.stops (he : IsExponent es) (hrest : Stops rest) {c : Char}
    (hc : (es ++ rest).head? = some c) : isDigit c = false ∧ c ≠ '.' := by
  cases he with
  | none => exact ⟨(hrest c hc).1, (hrest c hc).2.1⟩
  | mark he hsign h =>
    cases hc
    rcases he with rfl | rfl
    · decide
    · decide

theorem IsFraction.stops (hf : IsFraction fs) (hrest : ∀ c, rest.head? = some c → isDigit c = false)
    {c : Char} (hc : (fs ++ rest).head? = some c) : isDigit c = false := by
  cases hf with
  | none => exact hrest c hc
  | point h =>
    cases hc
    rfl

theorem span_digits (hds : ∀ c ∈ ds, isDigit c = true)
    (hrest : ∀ c, rest.head? = some c → isDigit c = false) :
    (ds ++ rest).takeWhile isDigit = ds ∧ (ds ++ rest).dropWhile isDigit = rest := by
  induction ds with
  | nil =>
    cases rest with
    | nil => exact ⟨rfl, rfl⟩
    | cons c rest => simp [hrest c rfl]
  | cons c ds ih =>
    obtain ⟨htake, hdrop⟩ := ih fun t ht => hds t (List.mem_cons_of_mem c ht)
    simp [hds c List.mem_cons_self, htake, hdrop]

theorem someDigits_of (h : IsDigits ds) (hrest : ∀ c, rest.head? = some c → isDigit c = false) :
    someDigits (ds ++ rest) = .ok (ds, rest) := by
  obtain ⟨htake, hdrop⟩ := span_digits h.2 hrest
  unfold someDigits
  rw [htake, hdrop]
  cases ds with
  | nil => exact absurd rfl h.1
  | cons c ds => rfl

theorem scanWhole_of (h : IsWhole ds) (hrest : ∀ c, rest.head? = some c → isDigit c = false) :
    scanWhole (ds ++ rest) = .ok (ds, rest) := by
  have hzero := h.2
  unfold scanWhole
  rw [someDigits_of h.1 hrest]
  simp only [bind, Except.bind]

theorem scanFraction_of (h : IsFraction fs)
    (hrest : ∀ c, rest.head? = some c → isDigit c = false ∧ c ≠ '.') :
    scanFraction (fs ++ rest) = .ok (fs, rest) := by
  cases h with
  | none =>
    rw [List.nil_append]
    unfold scanFraction
    split
    · exact absurd rfl (hrest '.' rfl).2
    · rfl
  | point h =>
    have hdigits := someDigits_of h fun c hc => (hrest c hc).1
    simp only [List.cons_append, scanFraction, hdigits, bind, Except.bind]

theorem scanMinus_of (h : IsDigits ds) (rest : List Char) :
    scanMinus (ds ++ rest) = ([], ds ++ rest) := by
  obtain ⟨c, cs, rfl, hc⟩ := h.exists_eq
  rw [List.cons_append]
  unfold scanMinus
  split
  · next heq =>
    cases heq
    cases hc
  · rfl

theorem scanSign_of {sign : List Char} (hsign : sign = [] ∨ sign = ['+'] ∨ sign = ['-'])
    (h : IsDigits ds) : scanSign (sign ++ (ds ++ rest)) = (sign, ds ++ rest) := by
  rcases hsign with rfl | rfl | rfl
  · obtain ⟨c, cs, rfl, hc⟩ := h.exists_eq
    rw [List.nil_append, List.cons_append]
    unfold scanSign
    split
    · next heq =>
      cases heq
      cases hc
    · next heq =>
      cases heq
      cases hc
    · rfl
  · rfl
  · rfl

theorem scanExponent_of (h : IsExponent es) (hrest : Stops rest) :
    scanExponent (es ++ rest) = .ok (es, rest) := by
  cases h with
  | none =>
    cases rest with
    | nil => rfl
    | cons c rest =>
      obtain ⟨_, _, hlower, hupper⟩ := hrest c rfl
      simp [scanExponent, hlower, hupper]
  | @mark e sign ds he hsign h =>
    have hmark : (e = 'e' || e = 'E') = true := by simpa using he
    have hdigits := someDigits_of h fun c hc => (hrest c hc).1
    rw [List.cons_append, List.append_assoc, scanExponent, if_pos hmark, scanSign_of hsign h]
    simp only [hdigits, bind, Except.bind, List.cons_append]

/-- A numeral is scanned as a whole, wherever the text goes on with something that cannot belong to
it. -/
theorem scan_of {cs : List Char} (h : IsNumeral cs) (hrest : Stops rest) :
    scan (cs ++ rest) = .ok (cs, rest) := by
  have hrun {ds fs es : List Char} (hd : IsWhole ds) (hf : IsFraction fs) (he : IsExponent es) :
      scanWhole (ds ++ (fs ++ (es ++ rest))) = .ok (ds, fs ++ (es ++ rest))
        ∧ scanFraction (fs ++ (es ++ rest)) = .ok (fs, es ++ rest)
        ∧ scanExponent (es ++ rest) = .ok (es, rest) := by
    have htail (c : Char) (hc : (es ++ rest).head? = some c) := he.stops hrest hc
    refine ⟨?_, scanFraction_of hf htail, scanExponent_of he hrest⟩
    exact scanWhole_of hd fun c hc => hf.stops (fun c hc => (htail c hc).1) hc
  cases h with
  | unsigned hd hf he =>
    obtain ⟨hwhole, hfraction, hexponent⟩ := hrun hd hf he
    unfold scan
    rw [List.append_assoc, List.append_assoc, scanMinus_of hd.1]
    simp only [hwhole, hfraction, hexponent, bind, Except.bind, List.append_assoc, List.nil_append]
  | minus hd hf he =>
    obtain ⟨hwhole, hfraction, hexponent⟩ := hrun hd hf he
    unfold scan
    rw [List.cons_append, List.append_assoc, List.append_assoc, scanMinus]
    simp only [hwhole, hfraction, hexponent, bind, Except.bind, List.append_assoc, List.cons_append,
      List.nil_append]

end Numeral

/-! ### Strings -/

/-- How a unit of a string may stand between the quotes. -/
inductive StringUnit.SpelledAs : StringUnit → List Char → Prop
  | plain {c : Char} (hquote : c ≠ '"') (hslash : c ≠ '\\') (h : ¬c.toNat < 0x20) :
    SpelledAs (.char c) [c]
  | short {e c : Char} (h : escaped? e = some c) : SpelledAs (.char c) ['\\', e]
  | quad {a b c d : Char} {n : ℕ} (h : hexQuad? a b c d = some n) :
    SpelledAs (.code n) ['\\', 'u', a, b, c, d]

/-- A string: its units and how each of them stands there. -/
structure Quoted where
  units : List StringUnit
  parts : List (List Char)
  spelled : List.Forall₂ StringUnit.SpelledAs units parts

namespace Quoted

def text (q : Quoted) : List Char := '"' :: (q.parts.flatten ++ ['"'])

def tree (q : Quoted) : Tree :=
  match joinUnits true q.units with
  | some cs => .text (String.ofList cs)
  | none => .unpaired none

def label (q : Quoted) : Label :=
  match joinUnits true q.units with
  | some cs => .named (String.ofList cs)
  | none => .unpaired

end Quoted

theorem scanUnits_plain {c : Char} (hquote : c ≠ '"') (hslash : c ≠ '\\') (h : ¬c.toNat < 0x20)
    (cs : List Char) : scanUnits (c :: cs) = (.char c :: (scanUnits cs).1, (scanUnits cs).2) := by
  rw [scanUnits.eq_def]
  split
  all_goals simp_all

theorem scanUnits_short {e c : Char} (h : escaped? e = some c) (cs : List Char) :
    scanUnits ('\\' :: e :: cs) = (.char c :: (scanUnits cs).1, (scanUnits cs).2) := by
  have hu : e ≠ 'u' := by
    rintro rfl
    cases h
  rw [scanUnits, h]
  all_goals simp [hu]

theorem scanUnits_unit {u : StringUnit} {part : List Char} (h : u.SpelledAs part) (cs : List Char) :
    scanUnits (part ++ cs) = (u :: (scanUnits cs).1, (scanUnits cs).2) := by
  cases h with
  | plain hquote hslash h => exact scanUnits_plain hquote hslash h cs
  | short h => exact scanUnits_short h cs
  | @quad a b c d n h =>
    change scanUnits ('\\' :: 'u' :: a :: b :: c :: d :: cs) = _
    rw [scanUnits, h]

theorem scanUnits_units {units : List StringUnit} {parts : List (List Char)}
    (h : List.Forall₂ StringUnit.SpelledAs units parts) (rest : List Char) :
    scanUnits (parts.flatten ++ '"' :: rest) = (units, .ok rest) := by
  induction h with
  | nil => rfl
  | cons hu _ ih =>
    rw [List.flatten_cons, List.append_assoc, scanUnits_unit hu, ih]

theorem scanString_quoted (q : Quoted) (rest : List Char) :
    scanString (q.parts.flatten ++ '"' :: rest) = (q.tree, rest) := by
  unfold scanString Quoted.tree
  rw [scanUnits_units q.spelled]
  dsimp only
  cases joinUnits true q.units with
  | none => rfl
  | some cs => rfl

/-! ### Trees -/

/-- Texts with commas between them. -/
def commas : List (List Char) → List Char
  | [] => []
  | [cs] => cs
  | cs :: more => cs ++ ',' :: commas more

theorem commas_cons (cs : List Char) {more : List (List Char)} (h : more ≠ []) :
    commas (cs :: more) = cs ++ ',' :: commas more := by
  cases more with
  | nil => exact absurd rfl h
  | cons => rfl

/-- A value with its text and the blanks around it. -/
structure Placed where
  before : Blanks
  value : Tree
  text : List Char
  after : Blanks

def Placed.full (p : Placed) : List Char := p.before ++ (p.text ++ p.after)

/-- A named value with the blanks around the name. -/
structure Named where
  before : Blanks
  name : Quoted
  between : Blanks
  placed : Placed

def Named.full (m : Named) : List Char :=
  m.before ++ (m.name.text ++ (m.between ++ ':' :: m.placed.full))

def Named.member (m : Named) : Label × Tree := (m.name.label, m.placed.value)

/-- The texts of a tree, without blanks at either end. -/
inductive Tree.SpelledAs : Tree → List Char → Prop
  | null : SpelledAs .null ['n', 'u', 'l', 'l']
  | bool (b : Bool) :
    SpelledAs (.bool b) (if b then ['t', 'r', 'u', 'e'] else ['f', 'a', 'l', 's', 'e'])
  | number {cs : List Char} (h : Numeral.IsNumeral cs) : SpelledAs (.number cs) cs
  | string (q : Quoted) : SpelledAs q.tree q.text
  | emptyArray (bs : Blanks) : SpelledAs (.array [] .closed) ('[' :: (bs ++ [']']))
  | array {items : List Placed} (hne : items ≠ []) (h : ∀ p ∈ items, SpelledAs p.value p.text) :
    SpelledAs (.array (items.map Placed.value) .closed)
      ('[' :: (commas (items.map Placed.full) ++ [']']))
  | emptyObject (bs : Blanks) : SpelledAs (.object [] .closed) ('\x7b' :: (bs ++ ['\x7d']))
  | object {members : List Named} (hne : members ≠ [])
    (h : ∀ m ∈ members, SpelledAs m.placed.value m.placed.text) :
    SpelledAs (.object (members.map Named.member) .closed)
      ('\x7b' :: (commas (members.map Named.full) ++ ['\x7d']))

/-- A text is a document of a tree, with blanks at either end. -/
def Tree.IsDocument (t : Tree) (s : String) : Prop :=
  ∃ p : Placed, p.value = t ∧ t.SpelledAs p.text ∧ s.toList = p.full

end BinGrade.Json
