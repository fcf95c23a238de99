import BinGrade.Form.Shape
import BinGrade.Proofs.Json.Carried

/-!
# Documents of region tables

If finite doubles read back, a table comes back from its document if all bounds of its bands are
finite. A band may be open at either end, but an infinite bound has no numeral: it is written as null,
which is not of the type of a bound, and the document of such a table is refused for that.
-/

namespace BinGrade

open Json Json.Record
open NumberReader (ReadsBack)

/-! ### Refused values -/

/-- If all faults are the same, it does not matter where the first one stands. -/
theorem mapM_eq_error {ε β γ : Type} {f : β → Except ε γ} {fault : ε} {bs : List β}
    (hall : ∀ b ∈ bs, (∃ c, f b = .ok c) ∨ f b = .error fault) (hsome : ∃ b ∈ bs, f b = .error fault) :
    bs.mapM f = .error fault := by
  induction bs with
  | nil => simp at hsome
  | cons b bs ih =>
    obtain ⟨hb, hbs⟩ := List.forall_mem_cons.mp hall
    rw [List.mapM_cons]
    rcases hb with ⟨c, hc⟩ | hb
    · have hmore : ∃ b ∈ bs, f b = .error fault := by simpa [hc] using hsome
      rw [hc, ih hbs hmore]
      rfl
    · rw [hb]
      rfl

theorem read_infinite [NumberReader] {x : Float} (h : ¬x.isFinite = true) :
    Form.number.read (Form.number.write x) = .error (.shape .invalidType) := by
  rw [Form.write_number_of_not_isFinite h]
  rfl

namespace RegionBand

variable [NumberReader] [ReadsBack]

/-- Closed at both ends. -/
def Closed (b : RegionBand Float) : Prop := b.lower.isFinite = true ∧ b.upper.isFinite = true

theorem carries_form : form.Carries Closed := by
  have hbound := Form.carries_number
  refine (Form.carries_via (carries_lenient <|
    carries_field (by simp) Form.carries_text <| carries_field (by simp) hbound <|
    carries_field (by simp) hbound carries_nil) fun b => rfl).congr ?_
  intro b
  simp [Closed]

theorem read_of_open {b : RegionBand Float} (h : ¬b.Closed) :
    form.read (form.write b) = .error (.shape .invalidType) := by
  have hupper : (field "upper" Form.number nil).Carries _ :=
    carries_field (by simp) Form.carries_number carries_nil
  have hlower : (field "lower" Form.number <| field "upper" Form.number nil).Carries _ :=
    carries_field (by simp) Form.carries_number hupper
  have hfields : form.read (form.write b) = (fun v => ⟨v.1, v.2.1, v.2.2.1⟩) <$>
      (field "name" Form.text <| field "lower" Form.number <| field "upper" Form.number nil).reread
        false (b.name, b.lower, b.upper, ()) := rfl
  rw [hfields, field, reread_cons (by simp) hlower, field, reread_cons (by simp) hupper, field,
    reread_cons (by simp) carries_nil]
  by_cases hl : b.lower.isFinite = true
  · have hu : ¬b.upper.isFinite = true := fun hu => h ⟨hl, hu⟩
    rw [Form.read_write_number_iff.mpr (ReadsBack.keeps hl), read_infinite hu]
    rfl
  · rw [read_infinite hl]
    rfl

end RegionBand

namespace RegionTable

variable {bands : List (RegionBand Float)} {t : RegionTable Float}

theorem eq_of_ofBands (ok : ofBands bands = .ok t) : t = ⟨bands⟩ := by
  obtain ⟨_, _, hpure⟩ := exists_of_bind_eq_ok ok
  cases hpure
  rfl

theorem ofBands_of_toBool (h : (ofBands bands).toBool = true) : ofBands bands = .ok ⟨bands⟩ := by
  obtain ⟨t, ok⟩ := exists_ok_of_toBool h
  rwa [eq_of_ofBands ok] at ok

section Document

variable [NumberReader] [ReadsBack]

theorem ofDocument_of_closed (ok : ofBands t.bands = .ok t) (h : ∀ b ∈ t.bands, b.Closed) :
    ofDocument (form.print t) = .ok t := by
  have hread : RegionBand.form.list.parse (form.print t) = .ok t.bands :=
    ((Form.carries_list RegionBand.carries_form).parse_print t.bands).ok h
  unfold ofDocument
  rw [hread]
  change (ofBands t.bands).mapError _ = _
  rw [ok]
  rfl

theorem ofDocument_of_open (h : ∃ b ∈ t.bands, ¬b.Closed) :
    ofDocument (form.print t) = .error (.document (.shape .invalidType)) := by
  have hwritten := (Form.carries_list RegionBand.carries_form).written t.bands
  have hbands : (t.bands.map RegionBand.form.write).mapM RegionBand.form.read
      = .error (.shape .invalidType) := by
    obtain ⟨b, hb, hopen⟩ := h
    refine mapM_eq_error ?_ ⟨_, List.mem_map_of_mem hb, RegionBand.read_of_open hopen⟩
    refine List.forall_mem_map.mpr fun b _ => ?_
    by_cases hclosed : b.Closed
    · exact .inl ⟨b, (RegionBand.carries_form.settles b).ok hclosed⟩
    · exact .inr (RegionBand.read_of_open hclosed)
  have hread : RegionBand.form.list.parse (form.print t) = .error (.shape .invalidType) := by
    refine (Form.parse_print hwritten).trans ?_
    change ((t.bands.map RegionBand.form.write).mapM RegionBand.form.read >>= _) = _
    rw [hbands]
    rfl
  unfold ofDocument
  rw [hread]
  rfl

/-- If finite doubles read back, then of the tables that can be made exactly those without an open end
come back from their documents, whatever the names of their bands are; the documents of all others are
refused. -/
theorem ofDocument_print_iff (ok : ofBands bands = .ok t) :
    (ofDocument (form.print t) = .ok t ↔ ∀ b ∈ bands, b.Closed)
      ∧ ((∃ b ∈ bands, ¬b.Closed) →
        ofDocument (form.print t) = .error (.document (.shape .invalidType))) := by
  obtain rfl := eq_of_ofBands ok
  refine ⟨⟨?_, ofDocument_of_closed ok⟩, ofDocument_of_open⟩
  intro hread b hb
  by_contra hopen
  rw [ofDocument_of_open ⟨b, hb, hopen⟩] at hread
  cases hread

end Document

/-- Names of all kinds of characters, and bounds at the ends of the range of doubles. -/
def awkward : List (RegionBand Float) :=
  [⟨"a \"quoted\" \\ name\n\x01\t", -1.7976931348623157e308, -0.0⟩, ⟨"größer 𝄞", 0.0, 5e-324⟩]

theorem awkward_returned :
    ofBands awkward = .ok ⟨awkward⟩ ∧ ofDocument (form.print ⟨awkward⟩) = .ok ⟨awkward⟩ := by
  have ok : ofBands awkward = .ok ⟨awkward⟩ := ofBands_of_toBool (by decide +kernel)
  refine ⟨ok, (ofDocument_print_iff ok).1.mpr ?_⟩
  simp only [awkward, List.forall_mem_cons, RegionBand.Closed]
  decide +kernel

/-- A single band without an upper end. -/
def unbounded : List (RegionBand Float) := [⟨"high", 1.0, 1.0 / 0.0⟩]

theorem unbounded_refused :
    ofBands unbounded = .ok ⟨unbounded⟩
      ∧ ofDocument (form.print ⟨unbounded⟩) = .error (.document (.shape .invalidType)) := by
  have ok : ofBands unbounded = .ok ⟨unbounded⟩ := ofBands_of_toBool (by decide +kernel)
  refine ⟨ok, ofDocument_of_open ⟨_, List.mem_cons_self, ?_⟩⟩
  simp only [RegionBand.Closed]
  decide +kernel

end RegionTable

end BinGrade
