import Mathlib.Data.List.Forall2
import Mathlib.Data.List.TakeWhile
import BinGrade.Threshold.Tables

/-!
# Spellings of keys

A key may be spelled freely, but not arbitrarily: between blanks stands its name, character by
character up to case, where any separator stands for any other. Reading a key accepts exactly its
spellings. Reading a slot accepts exactly the word of a table, a colon, and a spelling of a key of that
table; what it refuses, it refuses with the part of the text that was not understood.
-/

namespace BinGrade

/-! ### Blanks around a text -/

namespace Text

/-- A text is another one without the blanks at its ends. -/
structure Trimmed (s core : String) : Prop where
  exists_blanks : ∃ before after : List Char, s.toList = before ++ (core.toList ++ after)
    ∧ (∀ c ∈ before, isBlank c = true) ∧ ∀ c ∈ after, isBlank c = true
  head : ∀ c ∈ core.toList.head?, isBlank c = false
  last : ∀ c ∈ core.toList.getLast?, isBlank c = false

theorem dropWhile_of_head {cs : List Char} (h : ∀ c ∈ cs.head?, isBlank c = false) :
    cs.dropWhile isBlank = cs := by
  cases cs with
  | nil => rfl
  | cons c cs => exact List.dropWhile_cons_of_neg (by simp [h c rfl])

theorem head_dropWhile {cs : List Char} {c : Char} (h : c ∈ (cs.dropWhile isBlank).head?) :
    isBlank c = false := by
  have hfirst := List.head?_dropWhile_not isBlank cs
  rwa [Option.mem_def.mp h] at hfirst

theorem trimChars_of_trimmed {s core : String} (h : Trimmed s core) :
    trimChars s.toList = core.toList := by
  obtain ⟨⟨before, after, hsplit, hbefore, hafter⟩, hhead, hlast⟩ := h
  unfold trimChars
  rw [hsplit, List.dropWhile_append_of_pos hbefore]
  cases hcore : core.toList with
  | nil =>
    rw [List.nil_append, List.dropWhile_eq_nil_iff.mpr hafter]
    rfl
  | cons c cs =>
    rw [hcore] at hhead hlast
    have hfront : (c :: cs ++ after).dropWhile isBlank = c :: cs ++ after :=
      dropWhile_of_head fun d hd => hhead d hd
    have hblanks : ∀ d ∈ after.reverse, isBlank d = true := fun d hd =>
      hafter d (List.mem_reverse.mp hd)
    have hback : ∀ d ∈ (c :: cs).reverse.head?, isBlank d = false := by
      rwa [List.head?_reverse]
    rw [hfront, List.reverse_append, List.dropWhile_append_of_pos hblanks,
      dropWhile_of_head hback, List.reverse_reverse]

theorem trimmed_trim (s : String) : Trimmed s (trim s) := by
  have hchars : (trim s).toList = trimChars s.toList := String.toList_ofList
  generalize hback : (s.toList.dropWhile isBlank).reverse.takeWhile isBlank = back
  have hrest : s.toList.dropWhile isBlank = (trim s).toList ++ back.reverse := by
    rw [hchars, trimChars, ← List.reverse_append, ← hback, List.takeWhile_append_dropWhile,
      List.reverse_reverse]
  refine ⟨⟨s.toList.takeWhile isBlank, back.reverse, ?_, ?_, ?_⟩, ?_, ?_⟩
  · rw [← hrest, List.takeWhile_append_dropWhile]
  · exact fun c hc => List.mem_takeWhile_imp hc
  · intro c hc
    rw [List.mem_reverse, ← hback] at hc
    exact List.mem_takeWhile_imp hc
  · intro c hc
    have hhead : c ∈ (s.toList.dropWhile isBlank).head? := by
      rw [hrest, List.head?_append, Option.mem_def.mp hc]
      rfl
    exact head_dropWhile hhead
  · intro c hc
    rw [hchars, trimChars, List.getLast?_reverse] at hc
    exact head_dropWhile hc

theorem trimmed_iff {s core : String} : Trimmed s core ↔ trim s = core := by
  constructor
  · intro h
    rw [trim, trimChars_of_trimmed h, String.ofList_toList]
  · rintro rfl
    exact trimmed_trim s

end Text

/-! ### Characters of a spelling -/

namespace Key

def separators : List Char := ['-', ' ', '_']

/-- Two characters are the same up to the case of a letter, or both are separators. -/
def Alike (c d : Char) : Prop :=
  c.toLower = d.toLower ∨ (c ∈ separators ∧ d ∈ separators)

theorem mem_separators {c : Char} :
    c ∈ separators ↔ c.toNat = 45 ∨ c.toNat = 32 ∨ c.toNat = 95 := by
  simp [separators, ← Char.toNat_inj]

theorem toNat_toLower (c : Char) :
    c.toLower.toNat = if 65 ≤ c.toNat ∧ c.toNat ≤ 90 then c.toNat + 32 else c.toNat := by
  by_cases h : c.val ≥ 'A'.val ∧ c.val ≤ 'Z'.val
  · have hrange : 65 ≤ c.toNat ∧ c.toNat ≤ 90 := h
    have hsum : (c.val + ('a'.val - 'A'.val)).toNat = c.toNat + 32 := by
      rw [UInt32.toNat_add]
      change (c.toNat + 32) % 2 ^ 32 = _
      omega
    have hlower : c.toLower.val = c.val + ('a'.val - 'A'.val) := congrArg Char.val (dif_pos h)
    rw [if_pos hrange, ← hsum, ← hlower]
    rfl
  · have hrange : ¬(65 ≤ c.toNat ∧ c.toNat ≤ 90) := h
    have hlower : c.toLower = c := dif_neg h
    rw [hlower, if_neg hrange]

theorem toLower_mem_separators {c : Char} : c.toLower ∈ separators ↔ c ∈ separators := by
  rw [mem_separators, mem_separators, toNat_toLower]
  split <;> omega

/-- A character as it is compared. -/
def foldChar (c : Char) : Char := foldSeparator c.toLower

theorem foldChar_of_mem {c : Char} (h : c ∈ separators) : foldChar c = '_' := by
  simp only [separators, List.mem_cons, List.not_mem_nil, or_false] at h
  rcases h with rfl | rfl | rfl <;> decide

theorem foldChar_of_not_mem {c : Char} (h : c ∉ separators) : foldChar c = c.toLower := by
  rw [← toLower_mem_separators] at h
  simp only [separators, List.mem_cons, List.not_mem_nil, or_false, not_or] at h
  simp [foldChar, foldSeparator, h]

theorem foldChar_mem_separators {c : Char} : foldChar c ∈ separators ↔ c ∈ separators := by
  by_cases h : c ∈ separators
  · rw [foldChar_of_mem h]
    exact iff_of_true (by decide) h
  · rw [foldChar_of_not_mem h, toLower_mem_separators]

theorem alike_iff {c d : Char} : Alike c d ↔ foldChar c = foldChar d := by
  constructor
  · rintro (h | ⟨hc, hd⟩)
    · rw [foldChar, h, foldChar]
    · rw [foldChar_of_mem hc, foldChar_of_mem hd]
  · intro h
    have hsame : c ∈ separators ↔ d ∈ separators := by
      rw [← foldChar_mem_separators, h, foldChar_mem_separators]
    by_cases hc : c ∈ separators
    · exact .inr ⟨hc, hsame.mp hc⟩
    · rw [foldChar_of_not_mem hc, foldChar_of_not_mem (mt hsame.mpr hc)] at h
      exact .inl h

theorem forall₂_alike_iff {cs ds : List Char} :
    List.Forall₂ Alike cs ds ↔ cs.map foldChar = ds.map foldChar := by
  rw [← List.forall₂_eq_eq_eq, List.forall₂_map_left_iff, List.forall₂_map_right_iff]
  constructor
  · exact List.Forall₂.imp fun c d h => alike_iff.mp h
  · exact List.Forall₂.imp fun c d h => alike_iff.mpr h

/-! ### Spellings -/

section Spelling

variable {κ : Type} [Key κ] {s : String} {k : κ}

/-- Between blanks, a text has the characters of the name of a key. -/
def Spells (s : String) (k : κ) : Prop :=
  ∃ core, Text.Trimmed s core ∧ List.Forall₂ Alike core.toList (name k).toList

/-- Keys that go by one name each, in which no character is changed when names are compared. -/
structure Plain (κ : Type) [Key κ] : Prop where
  ofName?_name : ∀ k : κ, ofName? κ (name k) = some k
  aliases_eq : ∀ k : κ, aliases k = []
  separatorsAlike_eq : separatorsAlike κ = true
  fold_name : ∀ k : κ, (name k).toList.map foldChar = (name k).toList

theorem toList_fold (s : String) : (fold true s).toList = (Text.trim s).toList.map foldChar := by
  simp only [fold, Text.trim, if_true, String.toList_ofList, List.map_map]
  rfl

theorem Plain.spells_iff (h : Plain κ) : Spells s k ↔ fold true s = name k := by
  have hcore : Spells s k ↔ List.Forall₂ Alike (Text.trim s).toList (name k).toList := by
    simp only [Spells, Text.trimmed_iff, exists_eq_left']
  rw [hcore, forall₂_alike_iff, ← toList_fold, h.fold_name, String.toList_inj]

theorem Plain.find?_answersTo (h : Plain κ) (folded : String) :
    (all : List κ).find? (answersTo folded) = ofName? κ folded := by
  have hanswers : answersTo folded = fun k : κ => name k == folded := by
    funext k
    rw [answersTo, h.aliases_eq, List.contains_cons, List.contains_nil, Bool.or_false, BEq.comm]
  rw [hanswers]
  rfl

theorem Plain.ofName?_eq_some_iff (h : Plain κ) {folded : String} :
    ofName? κ folded = some k ↔ folded = name k := by
  constructor
  · intro hfound
    have hname := List.find?_some (p := fun k : κ => name k == folded) hfound
    exact (beq_iff_eq.mp hname).symm
  · rintro rfl
    exact h.ofName?_name k

theorem Plain.parse_eq (h : Plain κ) (s : String) :
    parse κ s = (ofName? κ (fold true s)).elim (.error ⟨kind κ, s⟩) .ok := by
  rw [parse, h.separatorsAlike_eq, h.find?_answersTo]
  cases ofName? κ (fold true s) <;> rfl

theorem Plain.parse_eq_ok_iff (h : Plain κ) : parse κ s = .ok k ↔ Spells s k := by
  rw [h.spells_iff, ← h.ofName?_eq_some_iff, h.parse_eq]
  cases ofName? κ (fold true s) with
  | none => simp
  | some j => simp

theorem Plain.parse_eq_error (h : Plain κ) (hnone : ∀ k : κ, ¬Spells s k) :
    parse κ s = .error ⟨kind κ, s⟩ := by
  cases hread : parse κ s with
  | ok k => exact absurd (h.parse_eq_ok_iff.mp hread) (hnone k)
  | error fault =>
    rw [h.parse_eq] at hread
    cases hfound : ofName? κ (fold true s) with
    | none =>
      rw [hfound] at hread
      exact hread.symm
    | some k =>
      rw [hfound] at hread
      cases hread

/-- What reading a key gives: the key that is spelled, or the text itself if none is. -/
inductive Outcome (κ : Type) [Key κ] (s : String) : Except UnknownKey κ → Prop
  | spelled {k : κ} (h : Spells s k) : Outcome κ s (.ok k)
  | unknown (h : ∀ k : κ, ¬Spells s k) : Outcome κ s (.error ⟨kind κ, s⟩)

theorem Plain.parse_eq_iff (h : Plain κ) {r : Except UnknownKey κ} :
    parse κ s = r ↔ Outcome κ s r := by
  constructor
  · rintro rfl
    by_cases hsome : ∃ k : κ, Spells s k
    · obtain ⟨k, hk⟩ := hsome
      rw [h.parse_eq_ok_iff.mpr hk]
      exact .spelled hk
    · rw [h.parse_eq_error fun k hk => hsome ⟨k, hk⟩]
      exact .unknown fun k hk => hsome ⟨k, hk⟩
  · rintro (hk | hnone)
    · exact h.parse_eq_ok_iff.mpr hk
    · exact h.parse_eq_error hnone

end Spelling

theorem plain_distribution : Plain Distribution where
  ofName?_name d := by cases d <;> decide
  aliases_eq _ := rfl
  separatorsAlike_eq := rfl
  fold_name d := by cases d <;> decide

theorem plain_context : Plain Context where
  ofName?_name c := by cases c <;> decide
  aliases_eq _ := rfl
  separatorsAlike_eq := rfl
  fold_name c := by cases c <;> decide

theorem plain_precision : Plain Precision where
  ofName?_name p := by cases p <;> decide
  aliases_eq _ := rfl
  separatorsAlike_eq := rfl
  fold_name p := by cases p <;> decide

theorem plain_objective : Plain Objective where
  ofName?_name o := by cases o <;> decide
  aliases_eq _ := rfl
  separatorsAlike_eq := rfl
  fold_name o := by cases o <;> decide

end Key

/-! ### Slots -/

namespace Slot

/-- A text split at its first colon. -/
def Splits (s before rest : String) : Prop :=
  s = before ++ ":" ++ rest ∧ ':' ∉ before.toList

/-- The tables that slots belong to. -/
inductive Table where
  | distribution
  | context
  | precision

/-- The word for a table in front of a colon. -/
def Table.word : Table → String
  | distribution => "distribution"
  | context => "context"
  | precision => "precision"

/-- What a key of a table is called. -/
def Table.kind : Table → String
  | distribution => Key.kind Distribution
  | context => Key.kind Context
  | precision => Key.kind Precision

def table : Slot → Table
  | distribution _ => .distribution
  | context _ => .context
  | precision _ => .precision

/-- A text spells the key of a slot. -/
def Spelled (s : String) : Slot → Prop
  | distribution d => Key.Spells s d
  | context c => Key.Spells s c
  | precision p => Key.Spells s p

/-- What reading a slot gives: the slot whose table stands before the first colon and whose key is
spelled after it, or the part that is not understood. -/
inductive Outcome (s : String) : Except UnknownKey Slot → Prop
  | spelled {before rest : String} {slot : Slot} (split : Splits s before rest)
    (word : Text.Trimmed before slot.table.word) (key : slot.Spelled rest) : Outcome s (.ok slot)
  | unknownTable (h : ∀ before rest, Splits s before rest →
    ∀ t : Table, ¬Text.Trimmed before t.word) : Outcome s (.error ⟨"registry", s⟩)
  | unknownKey {before rest : String} {t : Table} (split : Splits s before rest)
    (word : Text.Trimmed before t.word) (key : ∀ slot : Slot, slot.table = t → ¬slot.Spelled rest) :
    Outcome s (.error ⟨t.kind, rest⟩)

theorem splitColon_cons {c : Char} (hc : c ≠ ':') (cs : List Char) :
    splitColon (c :: cs) = (splitColon cs).map fun s => (c :: s.1, s.2) := by
  rw [splitColon]
  exact hc

theorem splitColon_eq_some_iff {cs before rest : List Char} :
    splitColon cs = some (before, rest) ↔ cs = before ++ ':' :: rest ∧ ':' ∉ before := by
  induction cs generalizing before with
  | nil => simp [splitColon]
  | cons c cs ih =>
    by_cases hc : c = ':'
    · subst hc
      cases before with
      | nil => simp [splitColon]
      | cons b bs =>
        simp only [splitColon, List.cons_append, List.cons.injEq, List.mem_cons, not_or]
        grind
    · rw [splitColon_cons hc]
      cases before with
      | nil => simp [hc]
      | cons b bs =>
        have htail : splitColon cs = some (bs, rest) ↔ cs = bs ++ ':' :: rest ∧ ':' ∉ bs := ih
        simp only [Option.map_eq_some_iff, List.cons_append, List.cons.injEq, List.mem_cons, not_or]
        grind

theorem splits_iff {s before rest : String} :
    Splits s before rest ↔ splitColon s.toList = some (before.toList, rest.toList) := by
  rw [splitColon_eq_some_iff, Splits, ← String.toList_inj, String.toList_append,
    String.toList_append, List.append_assoc]
  rfl

/-- The slot in a table that a text spells the key of. -/
def Table.parseKey : Table → String → Except UnknownKey Slot
  | distribution, s => Slot.distribution <$> Key.parse Distribution s
  | context, s => Slot.context <$> Key.parse Context s
  | precision, s => Slot.precision <$> Key.parse Precision s

theorem parse_of_splits {s before rest : String} {t : Table} (h : Splits s before rest)
    (hword : Text.Trimmed before t.word) : parse s = t.parseKey rest := by
  have htrim : String.ofList (Text.trimChars before.toList) = t.word := Text.trimmed_iff.mp hword
  unfold parse
  rw [splits_iff.mp h]
  simp only [htrim, String.ofList_toList]
  cases t <;> rfl

theorem parse_of_unknown_table {s : String}
    (h : ∀ before rest, Splits s before rest → ∀ t : Table, ¬Text.Trimmed before t.word) :
    parse s = .error ⟨"registry", s⟩ := by
  unfold parse
  cases hsplit : splitColon s.toList with
  | none => rfl
  | some parts =>
    obtain ⟨before, rest⟩ := parts
    have hnone (t : Table) : ¬String.ofList (Text.trimChars before) = t.word := by
      intro hword
      refine h (String.ofList before) (String.ofList rest) ?_ t (Text.trimmed_iff.mpr ?_)
      · rw [splits_iff, hsplit, String.toList_ofList, String.toList_ofList]
      · rw [Text.trim, String.toList_ofList, hword]
    exact (if_neg (hnone .distribution)).trans
      ((if_neg (hnone .context)).trans (if_neg (hnone .precision)))

theorem map_parse_eq_ok_iff {κ : Type} [Key κ] (h : Key.Plain κ) {f : κ → Slot} {s : String}
    {slot : Slot} : f <$> Key.parse κ s = .ok slot ↔ ∃ k, f k = slot ∧ Key.Spells s k := by
  simp only [← h.parse_eq_ok_iff]
  cases Key.parse κ s with
  | error fault => simp
  | ok j => simp [eq_comm, and_comm]

theorem Table.parseKey_eq_ok_iff {t : Table} {s : String} {slot : Slot} :
    t.parseKey s = .ok slot ↔ slot.table = t ∧ slot.Spelled s := by
  cases t with
  | distribution =>
    rw [parseKey, map_parse_eq_ok_iff Key.plain_distribution]
    cases slot <;> simp [table, Spelled]
  | context =>
    rw [parseKey, map_parse_eq_ok_iff Key.plain_context]
    cases slot <;> simp [table, Spelled]
  | precision =>
    rw [parseKey, map_parse_eq_ok_iff Key.plain_precision]
    cases slot <;> simp [table, Spelled]

theorem Table.parseKey_eq_error {t : Table} {s : String}
    (h : ∀ slot : Slot, slot.table = t → ¬slot.Spelled s) :
    t.parseKey s = .error ⟨t.kind, s⟩ := by
  cases t with
  | distribution =>
    rw [parseKey, Key.plain_distribution.parse_eq_error fun d => h (.distribution d) rfl]
    rfl
  | context =>
    rw [parseKey, Key.plain_context.parse_eq_error fun c => h (.context c) rfl]
    rfl
  | precision =>
    rw [parseKey, Key.plain_precision.parse_eq_error fun p => h (.precision p) rfl]
    rfl

theorem outcome_parse (s : String) : Outcome s (parse s) := by
  by_cases hword : ∃ before rest, Splits s before rest ∧ ∃ t : Table, Text.Trimmed before t.word
  · obtain ⟨before, rest, hsplit, t, hword⟩ := hword
    rw [parse_of_splits hsplit hword]
    by_cases hkey : ∃ slot : Slot, slot.table = t ∧ slot.Spelled rest
    · obtain ⟨slot, rfl, hkey⟩ := hkey
      rw [Table.parseKey_eq_ok_iff.mpr ⟨rfl, hkey⟩]
      exact .spelled hsplit hword hkey
    · have hnone : ∀ slot : Slot, slot.table = t → ¬slot.Spelled rest :=
        fun slot htable hspelled => hkey ⟨slot, htable, hspelled⟩
      rw [Table.parseKey_eq_error hnone]
      exact .unknownKey hsplit hword hnone
  · have hnone : ∀ before rest, Splits s before rest → ∀ t : Table, ¬Text.Trimmed before t.word :=
      fun before rest hsplit t ht => hword ⟨before, rest, hsplit, t, ht⟩
    rw [parse_of_unknown_table hnone]
    exact .unknownTable hnone

theorem parse_eq_iff {s : String} {r : Except UnknownKey Slot} : parse s = r ↔ Outcome s r := by
  constructor
  · rintro rfl
    exact outcome_parse s
  · intro h
    cases h with
    | spelled hsplit hword hkey =>
      rw [parse_of_splits hsplit hword]
      exact Table.parseKey_eq_ok_iff.mpr ⟨rfl, hkey⟩
    | unknownTable hnone => exact parse_of_unknown_table hnone
    | unknownKey hsplit hword hkey =>
      rw [parse_of_splits hsplit hword]
      exact Table.parseKey_eq_error hkey

example : parse " context\t:Anomaly detection" = .ok (.context .anomalyDetection) := by rfl

example : parse "context:default:x" = .error ⟨"analysis context", "default:x"⟩ := by rfl

/-- Reading a key or a slot gives exactly what the grammar says of the text. -/
theorem parse_eq_iff_outcome :
    (∀ s r, Key.parse Distribution s = r ↔ Key.Outcome Distribution s r)
      ∧ (∀ s r, Key.parse Context s = r ↔ Key.Outcome Context s r)
      ∧ (∀ s r, Key.parse Precision s = r ↔ Key.Outcome Precision s r)
      ∧ (∀ s r, Key.parse Objective s = r ↔ Key.Outcome Objective s r)
      ∧ ∀ s r, parse s = r ↔ Outcome s r :=
  ⟨fun _ _ => Key.plain_distribution.parse_eq_iff, fun _ _ => Key.plain_context.parse_eq_iff,
    fun _ _ => Key.plain_precision.parse_eq_iff, fun _ _ => Key.plain_objective.parse_eq_iff,
    fun _ _ => parse_eq_iff⟩

end Slot

end BinGrade
