import BinGrade.Error
import BinGrade.Json.Record
import BinGrade.Proofs.Json.Number
import BinGrade.Proofs.Json.Scan

/-!
# Reading what was written

A value is written as a tree. If the tree has no flaws, scanning the document of the value gives it
back, and the document is read as the tree is; what a form makes of its own trees is then told by its
parts.
-/

namespace BinGrade.Json

open NumberReader (ReadsAs)

variable {β γ σ τ : Type}

namespace Form

/-- A document is read as its tree is, however it is spelled. -/
theorem parse_of_isDocument {f : Form β} {t : Tree} {s : String} (h : t.IsDocument s) :
    f.parse s = f.read t := by
  obtain ⟨bs, hscan⟩ := h.scan
  have hrest : skipBlanks bs = [] := List.dropWhile_eq_nil_iff.mpr bs.property
  unfold parse
  rw [hscan]
  dsimp only
  rw [hrest]
  cases f.read t with
  | error fault => rfl
  | ok b => rfl

theorem parse_print {f : Form β} {b : β} (h : (f.write b).Written) :
    f.parse (f.print b) = f.read (f.write b) :=
  parse_of_isDocument h.isDocument

theorem exists_read_of_parse {f : Form β} {s : String} {b : β} (h : f.parse s = .ok b) :
    ∃ t, f.read t = .ok b := by
  unfold parse at h
  obtain ⟨c, hread, hrest⟩ := exists_of_bind_eq_ok h
  split at hrest
  · cases hrest
    exact ⟨_, hread⟩
  · cases hrest

section Number

variable [NumberReader]

theorem write_number_of_not_isFinite {x : Float} (h : ¬x.isFinite = true) :
    number.write x = .null := by
  simp only [number, Numeral.document?_of_not_isFinite h]

theorem written_number (x : Float) : (number.write x).Written := by
  by_cases h : x.isFinite = true
  · obtain ⟨l, hdocument, _⟩ := Numeral.exists_document h
    have hwrite : number.write x = .number l.text := by
      simp only [number, hdocument, String.toList_ofList]
    exact hwrite ▸ .number l
  · rw [write_number_of_not_isFinite h]
    exact .null

/-- What is not finite has no text, and is not read back as anything. -/
theorem read_write_number_iff {x y : Float} :
    number.read (number.write x) = .ok y ↔ ReadsAs x y := by
  by_cases h : x.isFinite = true
  · obtain ⟨l, hdocument, _⟩ := Numeral.exists_document h
    have hreads : ReadsAs x y ↔ NumberReader.read? l.text = some y := by
      simp [ReadsAs, hdocument]
    rw [hreads]
    simp only [number, hdocument, String.toList_ofList]
    cases NumberReader.read? l.text with
    | none => simp
    | some z => simp
  · rw [write_number_of_not_isFinite h]
    simp only [ReadsAs, Numeral.document?_of_not_isFinite h]
    exact iff_of_false nofun nofun

end Number

theorem read_via_eq_ok_iff {f : Form γ} {make : γ → β} {back : β → γ}
    (hmake : ∀ b, make (back b) = b) (hback : ∀ c, back (make c) = c) {t : Tree} {b : β} :
    (f.via make back).read t = .ok b ↔ f.read t = .ok (back b) := by
  change make <$> f.read t = .ok b ↔ _
  cases f.read t with
  | error fault =>
    constructor
    · intro h
      cases h
    · intro h
      cases h
  | ok c =>
    constructor
    · intro h
      cases h
      rw [hback c]
    · intro h
      obtain rfl := Except.ok.inj h
      exact congrArg Except.ok (hmake b)

/-- What is read completely is then checked. -/
theorem read_checked {f : Form γ} {check : γ → Except String β} {back : β → γ} {t : Tree} {c : γ}
    (h : f.read t = .ok c) : (f.checked check back).read t
      = (check c).mapError fun reason => .shape (.rejected reason) := by
  unfold checked
  dsimp only
  rw [h]
  simp only [bind, Except.bind]
  cases check c <;> rfl

theorem read_checked_eq_ok_iff {f : Form γ} {check : γ → Except String β} {back : β → γ} {t : Tree}
    {b : β} : (f.checked check back).read t = .ok b ↔ ∃ c, f.read t = .ok c ∧ check c = .ok b := by
  constructor
  · intro h
    obtain ⟨c, hread, hcheck⟩ := exists_of_bind_eq_ok h
    split at hcheck
    · cases hcheck
      exact ⟨c, hread, ‹_›⟩
    · cases hcheck
  · rintro ⟨c, hread, hcheck⟩
    rw [read_checked hread, hcheck]
    rfl

end Form

namespace Record

theorem row_field_eq_ok_iff {name : String} {f : Form β} {r : Record σ τ} {t : Tree} {b : β} {v : τ}
    {items rest : List Tree} {ending : Ending} :
    (field name f r).row (t :: items) ending = .ok ((b, v), rest)
      ↔ f.read t = .ok b ∧ r.row items ending = .ok (v, rest) := by
  constructor
  · intro h
    obtain ⟨c, hread, h⟩ := exists_of_bind_eq_ok h
    obtain ⟨⟨w, left⟩, hrow, hpure⟩ := exists_of_bind_eq_ok h
    cases hpure
    exact ⟨hread, hrow⟩
  · rintro ⟨hread, hrow⟩
    simp only [field, cons, hread, hrow]
    rfl

/-- The fields are read from the list of their values, and nothing may be left of it. -/
theorem read_tuple_eq_ok_iff [NumberReader] {r : Record σ τ} {v : τ} {items : List Tree} :
    r.tuple.read (.list items) = .ok v ↔ r.row items .closed = .ok (v, []) := by
  constructor
  · intro h
    obtain ⟨⟨w, rest⟩, hrow, h⟩ := exists_of_bind_eq_ok h
    obtain ⟨_, hend, hpure⟩ := exists_of_bind_eq_ok h
    cases hpure
    cases rest with
    | nil => exact hrow
    | cons t rest => cases hend
  · intro hrow
    change r.readList items .closed = .ok v
    unfold readList
    rw [hrow]
    rfl

theorem written_tuple [NumberReader] {r : Record σ τ} {v : τ} (h : ∀ m ∈ r.members v, m.2.Written) :
    (r.tuple.write v).Written := by
  refine .array ?_
  intro t ht
  obtain ⟨m, hm, rfl⟩ := List.mem_map.mp ht
  exact h m hm

end Record

end BinGrade.Json
