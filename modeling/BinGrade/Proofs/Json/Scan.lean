import BinGrade.Proofs.Json.Literal

/-!
# Scanning and printing

Every text of the grammar is scanned as its tree, by induction on the tree: the scanner runs through
lists and objects item by item and stops right behind the value. The text that a tree without flaws is
printed as belongs to the grammar: strings come back through their escapes, and numbers are literals.
-/

namespace BinGrade.Json

open Numeral

/-! ### Values -/

/-- A tree is scanned from a text, with fuel for twice the length. -/
def Tree.ScannedFrom (t : Tree) (cs : List Char) : Prop :=
  ∀ fuel rest, 2 * cs.length ≤ fuel → Stops rest → scanValue fuel (cs ++ rest) = (t, rest)

theorem stops_cons {c : Char} (h : isDigit c = false ∧ c ≠ '.' ∧ c ≠ 'e' ∧ c ≠ 'E')
    (cs : List Char) : Stops (c :: cs) := by
  intro d hd
  cases hd
  exact h

theorem stops_blanks (bs : Blanks) {cs : List Char} (h : Stops cs) : Stops (bs ++ cs) := by
  obtain ⟨bs, hbs⟩ := bs
  cases bs with
  | nil => exact h
  | cons b bs =>
    have hb := hbs b List.mem_cons_self
    simp only [isBlank, Bool.or_eq_true, decide_eq_true_eq] at hb
    refine stops_cons ?_ _
    rcases hb with ((rfl | rfl) | rfl) | rfl
    all_goals decide

theorem ne_of_numeral {c d : Char} (h : c = '-' ∨ isDigit c = true) (hd : d ≠ '-')
    (hdigit : isDigit d = false) : c ≠ d := by
  rintro rfl
  rcases h with h | h
  · exact hd h
  · rw [hdigit] at h
    cases h

theorem isBlank_of_numeral {c : Char} (h : c = '-' ∨ isDigit c = true) : isBlank c = false := by
  have hspace := ne_of_numeral (d := ' ') h (by decide) (by decide)
  have htab := ne_of_numeral (d := '\t') h (by decide) (by decide)
  have hline := ne_of_numeral (d := '\n') h (by decide) (by decide)
  have hreturn := ne_of_numeral (d := '\r') h (by decide) (by decide)
  simp [isBlank, hspace, htab, hline, hreturn]

/-- A value begins with something that is neither blank nor the end of a list. -/
theorem Tree.SpelledAs.exists_eq {t : Tree} {cs : List Char} (h : t.SpelledAs cs) :
    ∃ c more, cs = c :: more ∧ isBlank c = false ∧ c ≠ ']' := by
  cases h with
  | null => exact ⟨'n', _, rfl, by decide, by decide⟩
  | bool b =>
    cases b with
    | true => exact ⟨'t', _, rfl, by decide, by decide⟩
    | false => exact ⟨'f', _, rfl, by decide, by decide⟩
  | number h =>
    obtain ⟨c, more, heq, hc⟩ := h.exists_eq
    exact ⟨c, more, heq, isBlank_of_numeral hc, ne_of_numeral hc (by decide) (by decide)⟩
  | string q => exact ⟨'"', _, rfl, by decide, by decide⟩
  | emptyArray bs => exact ⟨'[', _, rfl, by decide, by decide⟩
  | array hne h => exact ⟨'[', _, rfl, by decide, by decide⟩
  | emptyObject bs => exact ⟨'\x7b', _, rfl, by decide, by decide⟩
  | object hne h => exact ⟨'\x7b', _, rfl, by decide, by decide⟩

theorem scanValue_numeral {c : Char} (hc : c = '-' ∨ isDigit c = true) (fuel : ℕ)
    (cs : List Char) : scanValue (fuel + 1) (c :: cs) = scanNumber (c :: cs) := by
  have hlist := ne_of_numeral (d := '[') hc (by decide) (by decide)
  have hobject := ne_of_numeral (d := '\x7b') hc (by decide) (by decide)
  have hquote := ne_of_numeral (d := '"') hc (by decide) (by decide)
  have hnull := ne_of_numeral (d := 'n') hc (by decide) (by decide)
  have htrue := ne_of_numeral (d := 't') hc (by decide) (by decide)
  have hfalse := ne_of_numeral (d := 'f') hc (by decide) (by decide)
  have hnumber : (c = '-' || isDigit c) = true := by simpa using hc
  rw [scanValue, skipBlanks_cons (isBlank_of_numeral hc)]
  split
  all_goals
    rename_i heq
    cases heq
  exacts [absurd rfl hlist, absurd rfl hobject, absurd rfl hquote, absurd rfl hnull,
    absurd rfl htrue, absurd rfl hfalse, if_pos hnumber]

theorem scannedFrom_of_succ {t : Tree} {cs : List Char} (hpos : 0 < cs.length)
    (h : ∀ fuel rest, 2 * cs.length ≤ fuel + 1 → Stops rest →
      scanValue (fuel + 1) (cs ++ rest) = (t, rest)) : t.ScannedFrom cs := by
  intro fuel rest hfuel hrest
  obtain ⟨f, rfl⟩ := Nat.exists_eq_add_of_le' (show 1 ≤ fuel by omega)
  exact h f rest hfuel hrest

theorem scannedFrom_number {cs : List Char} (h : IsNumeral cs) : (Tree.number cs).ScannedFrom cs := by
  obtain ⟨c, more, rfl, hc⟩ := h.exists_eq
  refine scannedFrom_of_succ (by simp) fun fuel rest _ hrest => ?_
  have hscan := scan_of h hrest
  rw [List.cons_append] at hscan ⊢
  rw [scanValue_numeral hc]
  unfold scanNumber
  rw [hscan]

theorem scannedFrom_string (q : Quoted) : q.tree.ScannedFrom q.text := by
  refine scannedFrom_of_succ (by simp [Quoted.text]) fun fuel rest _ _ => ?_
  have htext : q.text ++ rest = '"' :: (q.parts.flatten ++ '"' :: rest) := by simp [Quoted.text]
  rw [htext]
  exact scanString_quoted q rest

theorem scanValue_skipBlanks (fuel : ℕ) (cs : List Char) :
    scanValue fuel (skipBlanks cs) = scanValue fuel cs := by
  cases fuel with
  | zero => rfl
  | succ fuel => rw [scanValue, scanValue, skipBlanks_idem]

theorem scanItems_skipBlanks (fuel : ℕ) (cs : List Char) :
    scanItems fuel (skipBlanks cs) = scanItems fuel cs := by
  cases fuel with
  | zero => rfl
  | succ fuel => rw [scanItems, scanItems, scanValue_skipBlanks]

/-! ### Lists -/

section Lists

/-- A value in its place is scanned up to its last blanks. -/
theorem Placed.scan {p : Placed} (hscan : p.value.ScannedFrom p.text) {fuel : ℕ}
    (hfuel : 2 * p.full.length ≤ fuel) {rest : List Char} (hrest : Stops rest) :
    scanValue fuel (p.full ++ rest) = (p.value, p.after ++ rest) := by
  have hlength : p.text.length ≤ p.full.length := by
    simp only [Placed.full, List.length_append]
    omega
  have htext : p.full ++ rest = p.before ++ (p.text ++ (p.after ++ rest)) := by simp [Placed.full]
  rw [htext, ← scanValue_skipBlanks, skipBlanks_append, scanValue_skipBlanks]
  exact hscan fuel _ (by omega) (stops_blanks p.after hrest)

theorem scanItems_last {fuel : ℕ} {cs rest : List Char} {t : Tree} {bs : Blanks}
    (h : scanValue fuel cs = (t, bs ++ ']' :: rest)) :
    scanItems (fuel + 1) cs = ([t], .closed, rest) := by
  rw [scanItems, h]
  simp only [skipBlanks_upTo bs (show isBlank ']' = false by decide)]

theorem scanItems_next {fuel : ℕ} {cs rest : List Char} {t : Tree} {bs : Blanks}
    (h : scanValue fuel cs = (t, bs ++ ',' :: rest))
    (hrest : ∃ c more, skipBlanks rest = c :: more ∧ c ≠ ']') :
    scanItems (fuel + 1) cs = (t :: (scanItems fuel rest).1, (scanItems fuel rest).2) := by
  obtain ⟨c, more, hskip, hc⟩ := hrest
  rw [← scanItems_skipBlanks fuel rest, scanItems, h]
  simp only [skipBlanks_upTo bs (show isBlank ',' = false by decide), hskip]
  split
  all_goals
    rename_i heq
  · cases heq
  · cases heq
    exact absurd rfl hc
  · rfl

theorem exists_skipBlanks_commas {items : List Placed} (hne : items ≠ [])
    (h : ∀ p ∈ items, p.value.SpelledAs p.text) (rest : List Char) :
    ∃ c more, skipBlanks (commas (items.map Placed.full) ++ rest) = c :: more ∧ c ≠ ']' := by
  cases items with
  | nil => exact absurd rfl hne
  | cons p items =>
    obtain ⟨c, more, htext, hblank, hc⟩ := (h p List.mem_cons_self).exists_eq
    have hfirst (cs : List Char) :
        skipBlanks (p.full ++ cs) = c :: (more ++ (p.after ++ cs)) := by
      simp only [Placed.full, htext, List.append_assoc, List.cons_append]
      exact skipBlanks_upTo p.before hblank _
    rcases eq_or_ne items [] with rfl | hitems
    · exact ⟨c, _, hfirst rest, hc⟩
    · rw [List.map_cons, commas_cons _ (List.map_eq_nil_iff.not.mpr hitems), List.append_assoc]
      exact ⟨c, _, hfirst _, hc⟩

/-- The run of the scanner through a list, item by item. -/
theorem scanItems_commas {items : List Placed} (hne : items ≠ [])
    (h : ∀ p ∈ items, p.value.SpelledAs p.text) (hscan : ∀ p ∈ items, p.value.ScannedFrom p.text)
    {fuel : ℕ} (hfuel : 2 * (commas (items.map Placed.full)).length + 1 ≤ fuel) (rest : List Char) :
    scanItems fuel (commas (items.map Placed.full) ++ ']' :: rest)
      = (items.map Placed.value, .closed, rest) := by
  induction items generalizing fuel with
  | nil => exact absurd rfl hne
  | cons p items ih =>
    obtain ⟨hp, hmore⟩ := List.forall_mem_cons.mp h
    obtain ⟨hpscan, hmorescan⟩ := List.forall_mem_cons.mp hscan
    obtain ⟨f, rfl⟩ := Nat.exists_eq_add_of_le' (show 1 ≤ fuel by omega)
    rcases eq_or_ne items [] with rfl | hitems
    · change 2 * p.full.length + 1 ≤ f + 1 at hfuel
      exact scanItems_last (p.scan hpscan (by omega) (stops_cons (by decide) rest))
    · -- an item takes one step of the fuel, which its comma pays for
      rw [List.map_cons, commas_cons _ (List.map_eq_nil_iff.not.mpr hitems)] at hfuel ⊢
      rw [List.length_append, List.length_cons] at hfuel
      rw [List.append_assoc, List.cons_append]
      have hitem := p.scan hpscan (show 2 * p.full.length ≤ f by omega)
        (stops_cons (c := ',') (by decide) (commas (items.map Placed.full) ++ ']' :: rest))
      rw [scanItems_next hitem (exists_skipBlanks_commas hitems hmore _),
        ih hitems hmore hmorescan (show _ ≤ f by omega)]
      rfl

theorem scannedFrom_emptyArray (bs : Blanks) :
    (Tree.array [] .closed).ScannedFrom ('[' :: (bs ++ [']'])) := by
  refine scannedFrom_of_succ (by simp) fun fuel rest _ _ => ?_
  have htext : '[' :: (bs ++ [']']) ++ rest = '[' :: (bs ++ ']' :: rest) := by simp
  rw [htext, scanValue, skipBlanks_cons (by decide)]
  simp only [skipBlanks_upTo bs (show isBlank ']' = false by decide)]

theorem scannedFrom_array {items : List Placed} (hne : items ≠ [])
    (h : ∀ p ∈ items, p.value.SpelledAs p.text) (hscan : ∀ p ∈ items, p.value.ScannedFrom p.text) :
    (Tree.array (items.map Placed.value) .closed).ScannedFrom
      ('[' :: (commas (items.map Placed.full) ++ [']'])) := by
  refine scannedFrom_of_succ (by simp) fun fuel rest hfuel _ => ?_
  rw [List.length_cons, List.length_append, List.length_singleton] at hfuel
  have htext : '[' :: (commas (items.map Placed.full) ++ [']']) ++ rest
      = '[' :: (commas (items.map Placed.full) ++ ']' :: rest) := by simp
  have hrun := scanItems_commas hne h hscan (show _ ≤ fuel by omega) rest
  rw [← scanItems_skipBlanks] at hrun
  obtain ⟨c, cs, hskip, hc⟩ := exists_skipBlanks_commas hne h (']' :: rest)
  rw [htext, scanValue, skipBlanks_cons (by decide)]
  rw [hskip] at hrun
  simp only [hskip]
  split
  all_goals
    rename_i heq
  · cases heq
  · cases heq
    exact absurd rfl hc
  · rw [hrun]

end Lists

/-! ### Objects -/

section Objects

/-- The text of a member behind the first quote, and what follows it. -/
def Named.tail (m : Named) (more : List Char) : List Char :=
  m.name.parts.flatten ++ '"' :: (m.between ++ ':' :: (m.placed.full ++ more))

theorem Named.skipBlanks_full (m : Named) (more : List Char) :
    skipBlanks (m.full ++ more) = '"' :: m.tail more := by
  have htext : m.full ++ more = m.before ++ '"' :: m.tail more := by
    simp [Named.full, Named.tail, Quoted.text]
  rw [htext]
  exact skipBlanks_upTo m.before (by decide) _

theorem scanMembers_quoted (fuel : ℕ) (q : Quoted) (rest : List Char) :
    scanMembers (fuel + 1) (q.parts.flatten ++ '"' :: rest) = scanMember fuel q.label rest := by
  rw [scanMembers, scanString_quoted]
  unfold Quoted.tree Quoted.label
  cases joinUnits true q.units with
  | none => rfl
  | some cs => rfl

theorem scanMember_last {fuel : ℕ} {name : Label} {bs gap : Blanks} {cs rest : List Char} {t : Tree}
    (h : scanValue fuel cs = (t, bs ++ '\x7d' :: rest)) :
    scanMember (fuel + 1) name (gap ++ ':' :: cs) = ([(name, t)], .closed, rest) := by
  rw [scanMember]
  simp only [skipBlanks_upTo gap (show isBlank ':' = false by decide), h,
    skipBlanks_upTo bs (show isBlank '\x7d' = false by decide)]

theorem scanMember_next {fuel : ℕ} {name : Label} {bs gap : Blanks} {cs rest more : List Char}
    {t : Tree} (h : scanValue fuel cs = (t, bs ++ ',' :: rest))
    (hrest : skipBlanks rest = '"' :: more) :
    scanMember (fuel + 1) name (gap ++ ':' :: cs)
      = ((name, t) :: (scanMembers fuel more).1, (scanMembers fuel more).2) := by
  rw [scanMember]
  simp only [skipBlanks_upTo gap (show isBlank ':' = false by decide), h,
    skipBlanks_upTo bs (show isBlank ',' = false by decide), hrest]

/-- The run of the scanner through an object, member by member. -/
theorem scanMembers_commas {members : List Named} (hne : members ≠ [])
    (hscan : ∀ m ∈ members, m.placed.value.ScannedFrom m.placed.text) {fuel : ℕ}
    (hfuel : 2 * (commas (members.map Named.full)).length + 1 ≤ fuel) (rest : List Char) :
    ∃ cs, skipBlanks (commas (members.map Named.full) ++ '\x7d' :: rest) = '"' :: cs
      ∧ scanMembers fuel cs = (members.map Named.member, .closed, rest) := by
  induction members generalizing fuel with
  | nil => exact absurd rfl hne
  | cons m members ih =>
    obtain ⟨hm, hmore⟩ := List.forall_mem_cons.mp hscan
    -- the name and the value of a member take one step each; quotes and colon pay for them
    have hlength : m.placed.full.length + 3 ≤ m.full.length := by
      simp only [Named.full, Quoted.text, List.length_append, List.length_cons]
      omega
    rcases eq_or_ne members [] with rfl | hmembers
    · change 2 * m.full.length + 1 ≤ fuel at hfuel
      obtain ⟨f, rfl⟩ := Nat.exists_eq_add_of_le' (show 2 ≤ fuel by omega)
      refine ⟨_, m.skipBlanks_full _, ?_⟩
      rw [Named.tail, scanMembers_quoted]
      exact scanMember_last (m.placed.scan hm (by omega) (stops_cons (by decide) rest))
    · rw [List.map_cons, commas_cons _ (List.map_eq_nil_iff.not.mpr hmembers)] at hfuel ⊢
      rw [List.length_append, List.length_cons] at hfuel
      obtain ⟨f, rfl⟩ := Nat.exists_eq_add_of_le' (show 2 ≤ fuel by omega)
      obtain ⟨cs, hskip, hrun⟩ := ih hmembers hmore (show _ ≤ f by omega)
      rw [List.append_assoc, List.cons_append]
      refine ⟨_, m.skipBlanks_full _, ?_⟩
      have hvalue := m.placed.scan hm (show 2 * m.placed.full.length ≤ f by omega)
        (stops_cons (c := ',') (by decide) (commas (members.map Named.full) ++ '\x7d' :: rest))
      rw [Named.tail, scanMembers_quoted, scanMember_next hvalue hskip, hrun]
      rfl

theorem scannedFrom_emptyObject (bs : Blanks) :
    (Tree.object [] .closed).ScannedFrom ('\x7b' :: (bs ++ ['\x7d'])) := by
  refine scannedFrom_of_succ (by simp) fun fuel rest _ _ => ?_
  have htext : '\x7b' :: (bs ++ ['\x7d']) ++ rest = '\x7b' :: (bs ++ '\x7d' :: rest) := by simp
  rw [htext, scanValue, skipBlanks_cons (by decide)]
  simp only [skipBlanks_upTo bs (show isBlank '\x7d' = false by decide)]

theorem scannedFrom_object {members : List Named} (hne : members ≠ [])
    (hscan : ∀ m ∈ members, m.placed.value.ScannedFrom m.placed.text) :
    (Tree.object (members.map Named.member) .closed).ScannedFrom
      ('\x7b' :: (commas (members.map Named.full) ++ ['\x7d'])) := by
  refine scannedFrom_of_succ (by simp) fun fuel rest hfuel _ => ?_
  rw [List.length_cons, List.length_append, List.length_singleton] at hfuel
  have htext : '\x7b' :: (commas (members.map Named.full) ++ ['\x7d']) ++ rest
      = '\x7b' :: (commas (members.map Named.full) ++ '\x7d' :: rest) := by simp
  obtain ⟨cs, hskip, hrun⟩ := scanMembers_commas hne hscan (show _ ≤ fuel by omega) rest
  rw [htext, scanValue, skipBlanks_cons (by decide)]
  simp only [hskip, hrun]

end Objects

theorem Tree.SpelledAs.scannedFrom {t : Tree} {cs : List Char} (h : t.SpelledAs cs) :
    t.ScannedFrom cs := by
  induction h with
  | null => exact scannedFrom_of_succ (by decide) fun _ _ _ _ => rfl
  | bool b =>
    cases b with
    | true => exact scannedFrom_of_succ (by decide) fun _ _ _ _ => rfl
    | false => exact scannedFrom_of_succ (by decide) fun _ _ _ _ => rfl
  | number h => exact scannedFrom_number h
  | string q => exact scannedFrom_string q
  | emptyArray bs => exact scannedFrom_emptyArray bs
  | array hne h ih => exact scannedFrom_array hne h ih
  | emptyObject bs => exact scannedFrom_emptyObject bs
  | object hne h ih => exact scannedFrom_object hne ih

/-- Of a document, only blanks are left. -/
theorem Tree.IsDocument.scan {t : Tree} {s : String} (h : t.IsDocument s) :
    ∃ bs : Blanks, scan s = (t, bs.val) := by
  obtain ⟨p, rfl, hspelled, hs⟩ := h
  have hstop : Stops [] := by
    intro c hc
    cases hc
  have hrun := p.scan hspelled.scannedFrom (show _ ≤ 2 * p.full.length + 2 by omega) hstop
  rw [List.append_nil, List.append_nil] at hrun
  refine ⟨p.after, ?_⟩
  unfold Json.scan
  rw [hs]
  exact hrun

/-! ### Printing -/

/-- The unit that an escaped character is scanned as. -/
def unitOf (c : Char) : StringUnit :=
  if c.toNat < 0x20 ∧ c ≠ '\x08' ∧ c ≠ '\x0c' ∧ c ≠ '\n' ∧ c ≠ '\r' ∧ c ≠ '\t' then .code c.toNat
  else .char c

theorem hexValue?_hexDigit : ∀ n < 16, hexValue? (hexDigit n) = some n := by decide

theorem hexQuad?_of_lt {n : ℕ} (h : n < 0x20) :
    hexQuad? '0' '0' (hexDigit (n / 16)) (hexDigit (n % 16)) = some n := by
  have hzero : hexValue? '0' = some 0 := rfl
  unfold hexQuad?
  rw [hzero, hexValue?_hexDigit _ (by omega), hexValue?_hexDigit _ (by omega)]
  change some (((0 * 16 + 0) * 16 + n / 16) * 16 + n % 16) = some n
  congr 1
  omega

theorem spelledAs_escape (c : Char) : (unitOf c).SpelledAs (escape c) := by
  unfold escape
  split_ifs with hquote hslash hback hfeed hline hreturn htab hcontrol
  · subst hquote; exact .short rfl
  · subst hslash; exact .short rfl
  · subst hback; exact .short rfl
  · subst hfeed; exact .short rfl
  · subst hline; exact .short rfl
  · subst hreturn; exact .short rfl
  · subst htab; exact .short rfl
  · have hunit : unitOf c = .code c.toNat := if_pos ⟨hcontrol, hback, hfeed, hline, hreturn, htab⟩
    rw [hunit]
    exact .quad (hexQuad?_of_lt hcontrol)
  · have hunit : unitOf c = .char c := if_neg fun h => hcontrol h.1
    rw [hunit]
    exact .plain hquote hslash hcontrol

theorem joinUnits_code {n : ℕ} (h : n < 0x20) (ended : Bool) (us : List StringUnit) :
    joinUnits ended (.code n :: us) = (joinUnits ended us).map (Char.ofNat n :: ·) := by
  have htrailing : isTrailing n = false := by
    simp [isTrailing]
    omega
  have hleading : isLeading n = false := by
    simp [isLeading]
    omega
  cases us with
  | nil => simp [joinUnits, htrailing, hleading]
  | cons u us =>
    cases u with
    | code m => simp [joinUnits, htrailing, hleading]
    | char c => simp [joinUnits, htrailing, hleading, Option.map_map, Function.comp_def]

theorem joinUnits_map (ended : Bool) (cs : List Char) :
    joinUnits ended (cs.map unitOf) = some cs := by
  induction cs with
  | nil => rfl
  | cons c cs ih =>
    rw [List.map_cons]
    by_cases h : c.toNat < 0x20 ∧ c ≠ '\x08' ∧ c ≠ '\x0c' ∧ c ≠ '\n' ∧ c ≠ '\r' ∧ c ≠ '\t'
    · have hunit : unitOf c = .code c.toNat := if_pos h
      rw [hunit, joinUnits_code h.1, ih, Option.map_some, Char.ofNat_toNat]
    · have hunit : unitOf c = .char c := if_neg h
      rw [hunit, joinUnits, ih, Option.map_some]

namespace Quoted

def ofString (s : String) : Quoted where
  units := s.toList.map unitOf
  parts := s.toList.map escape
  spelled := by
    rw [List.forall₂_map_left_iff, List.forall₂_map_right_iff, List.forall₂_same]
    exact fun c _ => spelledAs_escape c

theorem text_ofString (s : String) : (ofString s).text = printString s := by
  simp [text, ofString, printString, List.flatMap_def]

theorem tree_ofString (s : String) : (ofString s).tree = .text s := by
  simp [tree, ofString, joinUnits_map]

theorem label_ofString (s : String) : (ofString s).label = .named s := by
  simp [label, ofString, joinUnits_map]

end Quoted

/-- Trees without flaws, whose numbers are literals. -/
inductive Tree.Written : Tree → Prop
  | null : Written .null
  | bool (b : Bool) : Written (.bool b)
  | number (l : Literal) : Written (.number l.text)
  | text (s : String) : Written (.text s)
  | array {items : List Tree} (h : ∀ t ∈ items, Written t) : Written (.list items)
  | object {members : List (String × Tree)} (h : ∀ m ∈ members, Written m.2) :
    Written (.record members)

/-- A member with its name, which is printed between quotes. -/
def Tree.member (m : String × Tree) : Label × Tree := (.named m.1, m.2)

def noBlanks : Blanks := ⟨[], by simp⟩

/-- A tree as it is printed, without blanks. -/
def Placed.printed (t : Tree) : Placed := ⟨noBlanks, t, t.print, noBlanks⟩

def Named.printed (m : String × Tree) : Named := ⟨noBlanks, .ofString m.1, noBlanks, .printed m.2⟩

theorem Placed.full_printed (t : Tree) : (printed t).full = t.print := by
  simp [printed, full, noBlanks]

theorem Named.full_printed (m : String × Tree) :
    (printed m).full = printString m.1 ++ ':' :: m.2.print := by
  simp [printed, full, noBlanks, Quoted.text_ofString, Placed.full_printed]

theorem Named.member_printed (m : String × Tree) : (printed m).member = Tree.member m := by
  simp [printed, member, Tree.member, Quoted.label_ofString, Placed.printed]

theorem printItems_eq_commas (ts : List Tree) :
    Tree.printItems ts = commas (ts.map fun t => (Placed.printed t).full) := by
  induction ts with
  | nil => rfl
  | cons t ts ih =>
    cases ts with
    | nil => exact (Placed.full_printed t).symm
    | cons u us =>
      change t.print ++ ',' :: Tree.printItems (u :: us) = _
      rw [ih, ← Placed.full_printed t]
      rfl

theorem printMembers_eq_commas (ms : List (String × Tree)) :
    Tree.printMembers (ms.map Tree.member) = commas (ms.map fun m => (Named.printed m).full) := by
  induction ms with
  | nil => rfl
  | cons m ms ih =>
    cases ms with
    | nil => exact (Named.full_printed m).symm
    | cons m' ms =>
      change printString m.1 ++ ':' :: m.2.print
        ++ ',' :: Tree.printMembers ((m' :: ms).map Tree.member) = _
      rw [ih, ← Named.full_printed m]
      rfl

theorem Tree.Written.spelledAs {t : Tree} (h : t.Written) : t.SpelledAs t.print := by
  induction h with
  | null => exact .null
  | bool b =>
    cases b with
    | true => exact .bool true
    | false => exact .bool false
  | number l => exact .number (isNumeral_text l)
  | text s =>
    have hstring := SpelledAs.string (.ofString s)
    rwa [Quoted.tree_ofString, Quoted.text_ofString] at hstring
  | @array items h ih =>
    have hprint : (Tree.list items).print
        = '[' :: (commas ((items.map Placed.printed).map Placed.full) ++ [']']) := by
      rw [Tree.list, Tree.print, printItems_eq_commas, List.map_map]
      rfl
    rw [hprint]
    rcases eq_or_ne items [] with rfl | hne
    · exact .emptyArray noBlanks
    · have hvalues : (items.map Placed.printed).map Placed.value = items := by
        rw [List.map_map]
        exact List.map_id items
      have hitems : ∀ p ∈ items.map Placed.printed, p.value.SpelledAs p.text :=
        List.forall_mem_map.mpr ih
      have hspelled := SpelledAs.array (List.map_eq_nil_iff.not.mpr hne) hitems
      rwa [hvalues] at hspelled
  | @object members h ih =>
    have hprint : (Tree.record members).print
        = '\x7b' :: (commas ((members.map Named.printed).map Named.full) ++ ['\x7d']) := by
      change '\x7b' :: Tree.printMembers (members.map Tree.member) ++ ['\x7d'] = _
      rw [printMembers_eq_commas, List.map_map]
      rfl
    rw [hprint]
    rcases eq_or_ne members [] with rfl | hne
    · exact .emptyObject noBlanks
    · have hlabelled : (members.map Named.printed).map Named.member = members.map Tree.member := by
        rw [List.map_map]
        exact List.map_congr_left fun m _ => Named.member_printed m
      have hmembers : ∀ m ∈ members.map Named.printed, m.placed.value.SpelledAs m.placed.text :=
        List.forall_mem_map.mpr ih
      have hspelled := SpelledAs.object (List.map_eq_nil_iff.not.mpr hne) hmembers
      rwa [hlabelled] at hspelled

theorem Tree.Written.isDocument {t : Tree} (h : t.Written) : t.IsDocument t.render :=
  ⟨.printed t, rfl, h.spelledAs, by simp [Placed.full_printed, Tree.render]⟩

end BinGrade.Json
