import BinGrade.Form.Histogram
import BinGrade.Proofs.Binary64.Order
import BinGrade.Proofs.Histogram.Validity
import BinGrade.Proofs.Json.Members

/-!
# Documents of histograms

Every histogram comes back from its document if finite doubles do, and only valid ones are read. The
fields may stand in any order, among fields of other names, or be a list of two: in each case the edges
and the counts are those of the document, and they are checked as when a histogram is built from them.
-/

namespace BinGrade

open Json Json.Record
open NumberReader (ReadsBack)

/-! ### Lists of numbers -/

namespace Json.Tree

/-- A list of numerals that stand for some values, one by one. -/
def IsNumerals {β : Type} (value : List Char → β → Prop) (t : Tree) (bs : List β) : Prop :=
  ∃ literals, t = .list (literals.map .number) ∧ List.Forall₂ value literals bs

def IsNumbers [NumberReader] : Tree → List Float → Prop :=
  IsNumerals fun literal x => NumberReader.read? literal = some x

def IsCounts : Tree → List ℕ → Prop :=
  IsNumerals fun literal n => Numeral.toCount literal = .count n

theorem IsNumerals.read [NumberReader] {β : Type} {value : List Char → β → Prop} {t : Tree}
    {bs : List β} (h : t.IsNumerals value bs) {f : Form β}
    (hf : ∀ {literal b}, value literal b → f.read (.number literal) = .ok b) :
    f.list.read t = .ok bs := by
  obtain ⟨literals, rfl, hvalues⟩ := h
  have hread : (literals.map Tree.number).mapM f.read = .ok bs :=
    mapM_eq_ok_iff.mpr (List.forall₂_map_left_iff.mpr (hvalues.imp fun _ _ => hf))
  change (_ >>= _) = _
  rw [hread]
  rfl

variable [NumberReader] {t : Tree}

theorem IsNumbers.read {xs : List Float} (h : t.IsNumbers xs) :
    Form.number.list.read t = .ok xs :=
  IsNumerals.read h fun hx => by simp only [Form.number, hx]

theorem IsCounts.read {ns : List ℕ} (h : t.IsCounts ns) : Form.count.list.read t = .ok ns :=
  IsNumerals.read h fun hn => by simp only [Form.count, hn]

end Json.Tree

namespace Histogram

/-! ### Counts that a document can hold -/

/-- Valid, with counts that a document can hold. -/
structure Storable (h : Histogram Float) : Prop where
  valid : h.IsValid
  counts_le : ∀ n ∈ h.counts, n ≤ Numeral.maxCount

section Samples

variable {st : Strategy} {bins : ℕ} {xs : List Float} {h : Histogram Float}

theorem storable_of_histogram (hsize : xs.length ≤ Numeral.maxCount)
    (ok : st.histogram bins xs = .ok h) : h.Storable := by
  have hcounts := Binning.counts_histogram ok
  exact ⟨hcounts.1, fun n hn => (hcounts.le_length n hn).trans hsize⟩

theorem length_sorted_le (hsize : xs.length ≤ Numeral.maxCount) :
    (Sample.sorted xs).length ≤ Numeral.maxCount :=
  (Sample.perm_sorted xs).length_eq.trans_le hsize

end Samples

section Reader

variable [NumberReader]

/-! ### Documents that hold edges and counts -/

/-- The fields of a histogram. -/
def fields : Record (Option (List Float) × Option (List ℕ) × Unit) (List Float × List ℕ × Unit) :=
  field "bin_edges" Form.number.list <| field "bin_counts" Form.count.list nil

/-- Trees in which some edges and counts stand. -/
inductive Holds (edges : List Float) (counts : List ℕ) : Tree → Prop
  | object {e c : Tree} {members others : List (String × Tree)} (he : e.IsNumbers edges)
    (hc : c.IsCounts counts)
    (hmembers : members.Perm (("bin_edges", e) :: ("bin_counts", c) :: others))
    (hothers : ∀ m ∈ others, m.1 ≠ "bin_edges" ∧ m.1 ≠ "bin_counts") :
    Holds edges counts (.record members)
  | array {e c : Tree} (he : e.IsNumbers edges) (hc : c.IsCounts counts) :
    Holds edges counts (.list [e, c])

variable {edges : List Float} {counts : List ℕ} {t : Tree} {s : String} {h : Histogram Float}

theorem read_fields_of_holds (hdocument : t.IsDocument s) (hholds : Holds edges counts t) :
    fields.lenient.read t = .ok (edges, counts, ()) := by
  cases hholds with
  | @object e c members others he hc hmembers hothers =>
    have hskip : ∀ m ∈ others, m.2.skip = .ok () := fun m hm =>
      hdocument.skip_members m (hmembers.mem_iff.mpr (by simp [hm]))
    have hcounts : (field "bin_counts" Form.count.list nil).Takes (("bin_counts", c) :: others)
        (counts, ()) :=
      takes_field hc.read (fun m hm => (hothers m hm).2) (takes_nil hskip)
    have hfields : fields.Takes (("bin_edges", e) :: ("bin_counts", c) :: others)
        (edges, counts, ()) := by
      refine takes_field he.read ?_ hcounts
      exact List.forall_mem_cons.mpr ⟨by simp, fun m hm => (hothers m hm).1⟩
    exact Takes.read fun arranged hperm => hfields arranged (hperm.trans hmembers)
  | array he hc =>
    have hrow : fields.row [_, _] .closed = .ok ((edges, counts, ()), []) :=
      row_field_eq_ok_iff.mpr ⟨he.read, row_field_eq_ok_iff.mpr ⟨hc.read, rfl⟩⟩
    change fields.readList _ .closed = _
    unfold readList
    rw [hrow]
    rfl

/-- The document is accepted exactly if a histogram can be built from its edges and counts. -/
theorem parse_of_holds (hdocument : t.IsDocument s) (hholds : Holds edges counts t) :
    form.parse s = (ofEdges edges counts).mapError fun f => .shape (.rejected f.message) := by
  rw [Form.parse_of_isDocument hdocument]
  refine (Form.read_checked (read_fields_of_holds hdocument hholds)).trans ?_
  dsimp only
  cases ofEdges edges counts with
  | error f => rfl
  | ok h => rfl

/-! ### Histograms of documents -/

theorem yields_fields : fields.lenient.Yields fun v => ∀ n ∈ v.2.1, n ≤ Numeral.maxCount := by
  have hedges : Form.number.list.Yields fun _ => True := fun _ _ _ => trivial
  have hfields : fields.Yields _ _ :=
    yields_field hedges (yields_field (Form.yields_list Form.yields_count) yields_nil)
  exact fun t v h => (yields_lenient hfields t v h).2.1

theorem storable_of_parse (ok : form.parse s = .ok h) : h.Storable := by
  obtain ⟨t, hread⟩ := Form.exists_read_of_parse ok
  obtain ⟨⟨edges, counts, _⟩, hfields, hcheck⟩ := Form.read_checked_eq_ok_iff.mp hread
  obtain ⟨rfl, hvalid⟩ := ofEdges_eq_ok_iff.mp (eq_ok_of_mapError_eq_ok hcheck)
  exact ⟨hvalid, yields_fields t _ hfields⟩

/-! ### Histograms that come back -/

theorem carries_fields [ReadsBack] : fields.lenient.Carries fun v =>
    (∀ x ∈ v.1, x.isFinite = true) ∧ ∀ n ∈ v.2.1, n ≤ Numeral.maxCount := by
  refine (carries_lenient <| carries_field (by simp) (Form.carries_list Form.carries_number) <|
    carries_field (by simp) (Form.carries_list Form.carries_count) carries_nil).congr ?_
  intro v
  simp

theorem Storable.parse_print [ReadsBack] (hs : h.Storable) : form.parse (form.print h) = .ok h := by
  have hfinite : ∀ x ∈ h.edges, x.isFinite = true := List.all_eq_true.mp hs.valid.finite
  have hwritten : (form.write h).Written := carries_fields.written (h.edges, h.counts, ())
  have hread : fields.lenient.read (form.write h) = .ok (h.edges, h.counts, ()) :=
    (carries_fields.settles (h.edges, h.counts, ())).ok ⟨hfinite, hs.counts_le⟩
  rw [Form.parse_print hwritten]
  refine (Form.read_checked hread).trans ?_
  dsimp only
  rw [hs.valid.ofEdges_eq]
  rfl

/-- The histograms that can be made: from edges, from a sample, by a strategy or a binning, or from a
document. Samples and counts are no larger than a machine word tells. -/
inductive Obtained : Histogram Float → Prop
  | edges {edges : List Float} {counts : List ℕ} {h : Histogram Float}
    (hcounts : ∀ n ∈ counts, n ≤ Numeral.maxCount) (ok : ofEdges edges counts = .ok h) : Obtained h
  | sample {edges xs : List Float} {h : Histogram Float} (hsize : xs.length ≤ Numeral.maxCount)
    (ok : ofSample edges xs = .ok h) : Obtained h
  | sorted {s : Strategy} {bins : ℕ} {xs : List Float} {h : Histogram Float}
    (hsize : xs.length ≤ Numeral.maxCount) (ok : s.histogram bins xs = .ok h) : Obtained h
  | strategy {s : Strategy} {bins : ℕ} {xs : List Float} {h : Histogram Float}
    (hsize : xs.length ≤ Numeral.maxCount) (ok : Binning.onSorted (s.histogram bins) xs = .ok h) :
    Obtained h
  | binningSorted {b : Binning} {xs : List Float} {h : Histogram Float}
    (hsize : xs.length ≤ Numeral.maxCount) (ok : b.buildSorted xs = .ok h) : Obtained h
  | binning {b : Binning} {xs : List Float} {h : Histogram Float}
    (hsize : xs.length ≤ Numeral.maxCount) (ok : b.build xs = .ok h) : Obtained h
  | document {s : String} {h : Histogram Float} (ok : form.parse s = .ok h) : Obtained h

theorem Obtained.storable (hobtained : Obtained h) : h.Storable := by
  cases hobtained with
  | edges hcounts ok =>
    obtain ⟨rfl, hvalid⟩ := ofEdges_eq_ok_iff.mp ok
    exact ⟨hvalid, hcounts⟩
  | sample hsize ok =>
    obtain ⟨hvalid, hcounts⟩ := isValid_of_ofSample ok
    exact ⟨hvalid, fun n hn => (hcounts n hn).trans hsize⟩
  | sorted hsize ok => exact storable_of_histogram hsize ok
  | strategy hsize ok =>
    obtain ⟨_, _, ok⟩ := exists_of_bind_eq_ok ok
    exact storable_of_histogram (length_sorted_le hsize) ok
  | binningSorted hsize ok =>
    obtain ⟨_, _, ok⟩ := exists_of_bind_eq_ok ok
    exact storable_of_histogram hsize ok
  | binning hsize ok =>
    obtain ⟨_, _, ok⟩ := exists_of_bind_eq_ok ok
    obtain ⟨_, _, ok⟩ := exists_of_bind_eq_ok ok
    exact storable_of_histogram (length_sorted_le hsize) ok
  | document ok => exact storable_of_parse ok

/-- However a histogram is made, it comes back from its document if finite doubles do; whatever is read
is valid; and a document with edges and counts, however it is spelled and arranged, is read as the
histogram that is built from them, or refused with the words for which that fails. -/
theorem form_faithful :
    (ReadsBack → ∀ h, Obtained h → form.parse (form.print h) = .ok h)
      ∧ (∀ s h, form.parse s = .ok h → h.IsValid)
      ∧ ∀ s t edges counts, t.IsDocument s → Holds edges counts t →
        form.parse s = (ofEdges edges counts).mapError fun f => .shape (.rejected f.message) := by
  refine ⟨?_, ?_, ?_⟩
  · intro _ h hobtained
    exact hobtained.storable.parse_print
  · exact fun s h ok => (storable_of_parse ok).valid
  · exact fun s t edges counts hdocument hholds => parse_of_holds hdocument hholds

end Reader

/-- The counts first, then a field that no histogram has, then the edges. -/
def scrambled : Tree :=
  .record [("bin_counts", .list [.number ['3'], .number ['0']]), ("note", .list [.null]),
    ("bin_edges", .list [.number ['0'], .number ['1'], .number ['7']])]

def scrambledText : String :=
  "\x7b\"bin_counts\" :[3,0],\n\"note\":[null], \"bin_edges\" : [0,1,7]\n\x7d"

def space : Blanks := ⟨[' '], by simp [isBlank]⟩

def line : Blanks := ⟨['\n'], by simp [isBlank]⟩

def scrambledMembers : List Named :=
  [⟨noBlanks, .ofString "bin_counts", space, .printed (Form.count.list.write [3, 0])⟩,
    ⟨line, .ofString "note", noBlanks, .printed (.list [.null])⟩,
    ⟨space, .ofString "bin_edges", space, { Placed.printed (Form.count.list.write [0, 1, 7]) with
      before := space
      after := line }⟩]

theorem isDocument_scrambled : scrambled.IsDocument scrambledText := by
  have hnumerals (ns : List ℕ) :
      (Form.count.list.write ns).SpelledAs (Form.count.list.write ns).print :=
    ((Form.carries_list Form.carries_count).written ns).spelledAs
  have hnote : (Tree.list [.null]).SpelledAs (Tree.list [.null]).print :=
    (Tree.Written.array (by simp [Tree.Written.null])).spelledAs
  have hmembers : ∀ m ∈ scrambledMembers, m.placed.value.SpelledAs m.placed.text := by
    simp only [scrambledMembers, List.forall_mem_cons]
    exact ⟨hnumerals _, hnote, hnumerals _, by simp⟩
  exact ⟨⟨noBlanks, scrambled, _, noBlanks⟩, rfl,
    Tree.SpelledAs.object (List.cons_ne_nil _ _) hmembers, by decide +kernel⟩

theorem holds_scrambled : Holds [0.0, 1.0, 7.0] [3, 0] scrambled := by
  have hedges : (Tree.list [.number ['0'], .number ['1'], .number ['7']]).IsNumbers
      [0.0, 1.0, 7.0] :=
    ⟨[['0'], ['1'], ['7']], rfl, .cons (by decide +kernel) (.cons (by decide +kernel)
      (.cons (by decide +kernel) .nil))⟩
  have hcounts : (Tree.list [.number ['3'], .number ['0']]).IsCounts [3, 0] :=
    ⟨[['3'], ['0']], rfl, .cons (by decide +kernel) (.cons (by decide +kernel) .nil)⟩
  have hrotated (a b c : String × Tree) : [a, b, c].Perm [c, a, b] :=
    List.perm_append_singleton c [a, b]
  exact .object hedges hcounts (hrotated _ _ _) (by simp)

theorem scrambled_read :
    form.parse scrambledText = .ok ⟨[0.0, 1.0, 7.0], [3, 0]⟩
      ∧ IsValid (⟨[0.0, 1.0, 7.0], [3, 0]⟩ : Histogram Float)
      ∧ form.parse (form.print ⟨[0.0, 1.0, 7.0], [3, 0]⟩) = .ok ⟨[0.0, 1.0, 7.0], [3, 0]⟩ := by
  obtain ⟨hback, hvalid, hread⟩ := form_faithful
  have hbuilt : ofEdges [0.0, 1.0, 7.0] [3, 0]
      = .ok (⟨[0.0, 1.0, 7.0], [3, 0]⟩ : Histogram Float) :=
    ofEdges_eq_ok_iff.mpr ⟨rfl, by decide, by decide +kernel, by decide +kernel, rfl⟩
  have ok := hread scrambledText _ _ _ isDocument_scrambled holds_scrambled
  rw [hbuilt] at ok
  exact ⟨ok, hvalid _ _ ok, hback inferInstance _ (.document ok)⟩

end Histogram

end BinGrade
