import BinGrade.Proofs.Json.Carried
import BinGrade.Proofs.Threshold.Resolved

/-!
# Overrides and their documents

Overrides can be handed to a registry as they are or as a document. The document says the same: if
finite doubles read back, so do overrides whose numbers are finite. Numbers that are not finite cannot
be written, so such a document is refused, and the check of the entries refuses the same overrides.
-/

namespace BinGrade

open Json Json.Form Json.Record
open NumberReader (ReadsBack)

/-! ### Numbers and sizes of entries -/

def MetricCeilings.numbers (c : MetricCeilings Float) : List Float :=
  c.moments.toList.flatMap PerTier.toList ++ c.total.toList

/-- All numbers that an entry is made of. -/
def Entry.numbers : Entry Float → List Float
  | .thresholds set => set.ceilings.numbers
  | .multipliers factors => factors.toList

/-- All minima of the sample size in an entry. -/
def Entry.sizes : Entry Float → List Nat
  | .thresholds set => set.sizes.toList
  | .multipliers _ => []

/-- What a document can hold of an entry. -/
def Entry.Fits (e : Entry Float) : Prop :=
  (∀ x ∈ e.numbers, x.isFinite = true) ∧ ∀ n ∈ e.sizes, n ≤ Numeral.maxCount

namespace Overrides

def numbers (o : Overrides Float) : List Float := o.entries.flatMap fun x => x.2.numbers

def sizes (o : Overrides Float) : List Nat := o.entries.flatMap fun x => x.2.sizes

end Overrides

/-! ### What the forms of thresholds carry -/

theorem PerTier.carries_form [NumberReader] {β : Type} {f : Form β} {P : β → Prop}
    (hf : f.Carries P) : (PerTier.form f).Carries fun p => ∀ b ∈ p.toList, P b := by
  refine Carries.congr (carries_via (carries_strict <|
    carries_field (by simp) hf <| carries_field (by simp) hf <| carries_field (by simp) hf <|
    carries_field (by simp) hf carries_nil) fun p => rfl) ?_
  intro p
  simp [PerTier.toList]

theorem MetricCeilings.carries_form [NumberReader] [ReadsBack] :
    MetricCeilings.form.Carries fun c => ∀ x ∈ c.numbers, x.isFinite = true := by
  have hf : Ceilings.form.Carries fun c => ∀ x ∈ c.toList, x.isFinite = true :=
    PerTier.carries_form carries_number
  refine Carries.congr (carries_via (carries_strict <|
    carries_field (by simp) hf <| carries_field (by simp) hf <| carries_field (by simp) hf <|
    carries_field (by simp) hf <| carries_field (by simp) hf carries_nil) fun c => rfl) ?_
  intro c
  simp only [numbers, PerMoment.toList, List.flatMap_cons, List.flatMap_nil,
    List.forall_mem_append]
  tauto

theorem ThresholdSet.carries_form [NumberReader] [ReadsBack] :
    ThresholdSet.form.Carries fun s => (Entry.thresholds s).Fits := by
  have hsizes : SizeMinima.form.Carries fun s => ∀ n ∈ s.toList, n ≤ Numeral.maxCount :=
    PerTier.carries_form carries_count
  refine Carries.congr (carries_via (carries_strict <|
    carries_field (by simp) MetricCeilings.carries_form <|
    carries_field (by simp) hsizes carries_nil) fun s => rfl) ?_
  intro s
  simp only [and_true]
  exact Iff.rfl

theorem Multipliers.carries_form [NumberReader] [ReadsBack] :
    Multipliers.form.Carries fun m => (Entry.multipliers m).Fits := by
  have hf := carries_number
  refine Carries.congr (carries_via (carries_strict <|
    carries_field (by simp) hf <| carries_field (by simp) hf <| carries_field (by simp) hf <|
    carries_field (by simp) hf <| carries_field (by simp) hf carries_nil) fun m => rfl) ?_
  intro m
  simp [Entry.Fits, Entry.numbers, Entry.sizes, Multipliers.toList, PerMoment.toList]

theorem distinctNames_distribution : DistinctNames Distribution where
  mem_all d := by cases d <;> decide
  ofName?_name d := by cases d <;> decide

theorem distinctNames_context : DistinctNames Context where
  mem_all c := by cases c <;> decide
  ofName?_name c := by cases c <;> decide

theorem distinctNames_precision : DistinctNames Precision where
  mem_all p := by cases p <;> decide
  ofName?_name p := by cases p <;> decide

namespace Overrides

theorem forall_entries_iff {o : Overrides Float} {P : Entry Float → Prop} :
    (∀ x ∈ o.entries, P x.2)
      ↔ (∀ d set, o.distributions d = some set → P (.thresholds set))
        ∧ (∀ c factors, o.contexts c = some factors → P (.multipliers factors))
        ∧ ∀ p set, o.precisions p = some set → P (.thresholds set) := by
  constructor
  · intro h
    refine ⟨fun d set hd => ?_, fun c factors hc => ?_, fun p set hp => ?_⟩
    · exact h (.distribution d, _) (mem_entries.mpr (by simp [find?, hd]))
    · exact h (.context c, _) (mem_entries.mpr (by simp [find?, hc]))
    · exact h (.precision p, _) (mem_entries.mpr (by simp [find?, hp]))
  · rintro ⟨hdistributions, hcontexts, hprecisions⟩ ⟨slot, e⟩ hx
    have hfind := mem_entries.mp hx
    cases slot with
    | distribution d =>
      obtain ⟨set, hset, rfl⟩ := Option.map_eq_some_iff.mp hfind
      exact hdistributions d set hset
    | context c =>
      obtain ⟨factors, hfactors, rfl⟩ := Option.map_eq_some_iff.mp hfind
      exact hcontexts c factors hfactors
    | precision p =>
      obtain ⟨set, hset, rfl⟩ := Option.map_eq_some_iff.mp hfind
      exact hprecisions p set hset

theorem carries_form [NumberReader] [ReadsBack] : Overrides.form.Carries fun o =>
    (∀ x ∈ o.numbers, x.isFinite = true) ∧ ∀ n ∈ o.sizes, n ≤ Numeral.maxCount := by
  refine Carries.congr (carries_via (carries_strict <|
    carries_defaulted (by simp) (carries_table distinctNames_distribution ThresholdSet.carries_form) <|
    carries_defaulted (by simp) (carries_table distinctNames_context Multipliers.carries_form) <|
    carries_defaulted (by simp) (carries_table distinctNames_precision ThresholdSet.carries_form)
      carries_nil) fun o => rfl) ?_
  intro o
  have hentries : (∀ x ∈ o.entries, x.2.Fits) ↔ _ := forall_entries_iff
  simp only [and_true]
  rw [← hentries]
  simp only [Entry.Fits, numbers, sizes, List.forall_mem_flatMap, forall_and]

end Overrides

/-! ### What the check of an entry refuses -/

theorem Entry.isFinite_of_check {e : Entry Float} {path : String} (h : e.check path = .ok ()) :
    ∀ x ∈ e.numbers, x.isFinite = true := by
  cases e with
  | thresholds set =>
    have hset : set.Sound := ThresholdSet.check_eq_ok_iff.mp h
    simp only [numbers, MetricCeilings.numbers, List.forall_mem_append, List.forall_mem_flatMap,
      PerMoment.forall_mem_toList]
    exact ⟨fun m x hx => ((hset.moments m).positive x hx).1,
      fun x hx => (hset.total.positive x hx).1⟩
  | multipliers factors =>
    obtain ⟨hmoments, htotal, _⟩ := Multipliers.positive_of_check h
    simp only [numbers, Multipliers.toList, List.forall_mem_append, List.forall_mem_singleton,
      PerMoment.forall_mem_toList]
    exact ⟨fun m => (hmoments m).1, htotal⟩

namespace Registry

section Reader

variable [NumberReader] {r : Registry Float} {o : Overrides Float}

theorem isFinite_of_override_ok {next : Registry Float} (h : r.apply (.override o) = .ok next) :
    ∀ x ∈ o.numbers, x.isFinite = true := by
  have hsound : next.tables.check = .ok () := (atomic_perform (.override o)).sound h
  simp only [Overrides.numbers, List.forall_mem_flatMap]
  rintro ⟨slot, e⟩ hmem
  have hentry := (r.writes_override o).entry h slot
  rw [Overrides.mem_entries.mp hmem] at hentry
  have hcheck := (Tables.check_eq_ok_iff next.tables).mp hsound slot
  rw [hentry] at hcheck
  exact Entry.isFinite_of_check hcheck

/-! ### Loading -/

theorem perform_load_of_ok {s : String} (h : Overrides.ofDocument s = .ok o) :
    perform (.load s) = perform (.override o) := by
  simp only [perform, load, h]

theorem apply_load_of_error {s : String} {fault : Error Float}
    (h : Overrides.ofDocument s = .error fault) : r.apply (.load s) = .error fault := by
  unfold apply
  simp only [perform, load, h]
  rfl

theorem ofDocument_print [ReadsBack] (hsizes : ∀ n ∈ o.sizes, n ≤ Numeral.maxCount) :
    Settles (Overrides.ofDocument (Overrides.form.print o)) o
      (∀ x ∈ o.numbers, x.isFinite = true) :=
  ((Overrides.carries_form.parse_print o).congr (and_iff_left hsizes)).mapError Error.document

theorem exists_override_error (h : ¬∀ x ∈ o.numbers, x.isFinite = true) :
    ∃ fault, r.apply (.override o) = .error fault := by
  cases happly : r.apply (.override o) with
  | ok next => exact absurd (isFinite_of_override_ok happly) h
  | error fault => exact ⟨fault, rfl⟩

theorem exists_load_error [ReadsBack] (hsizes : ∀ n ∈ o.sizes, n ≤ Numeral.maxCount)
    (h : ¬∀ x ∈ o.numbers, x.isFinite = true) :
    ∃ fault, r.apply (.load (Overrides.form.print o)) = .error fault := by
  obtain ⟨fault, hfault⟩ := (ofDocument_print hsizes).refused h
  exact ⟨fault, apply_load_of_error hfault⟩

/-- If finite doubles read back, a registry does the same with overrides and with their document:
either both are carried out and leave the same tables, or both are refused. (The minima are machine
words, as all counts of documents are.) -/
theorem load_print_eq_override [ReadsBack] (r : Registry Float) (o : Overrides Float)
    (hsizes : ∀ n ∈ o.sizes, n ≤ Numeral.maxCount) :
    (r.after (.load (Overrides.form.print o))).tables = (r.after (.override o)).tables
      ∧ ((∃ next, r.apply (.load (Overrides.form.print o)) = .ok next)
        ↔ ∃ next, r.apply (.override o) = .ok next)
      ∧ ((∀ x ∈ o.numbers, x.isFinite = true) →
        Overrides.ofDocument (Overrides.form.print o) = .ok o)
      ∧ ((∃ x ∈ o.numbers, x.isFinite = false) →
        (∃ fault, r.apply (.load (Overrides.form.print o)) = .error fault)
          ∧ (∃ fault, r.apply (.override o) = .error fault)
          ∧ r.after (.load (Overrides.form.print o)) = r ∧ r.after (.override o) = r) := by
  by_cases hfinite : ∀ x ∈ o.numbers, x.isFinite = true
  · -- the document is read as the overrides, so both operations are one and the same change
    have hread := (ofDocument_print hsizes).ok hfinite
    have hsame := perform_load_of_ok hread
    unfold after apply
    rw [hsame]
    refine ⟨rfl, Iff.rfl, fun _ => hread, ?_⟩
    rintro ⟨x, hx, hinfinite⟩
    rw [hfinite x hx] at hinfinite
    cases hinfinite
  · obtain ⟨fault, hload⟩ := exists_load_error (r := r) hsizes hfinite
    obtain ⟨cause, hoverride⟩ := exists_override_error (r := r) hfinite
    have hleft := after_of_error hload
    have hleft' := after_of_error hoverride
    refine ⟨by rw [hleft, hleft'], ?_, fun h => absurd h hfinite, ?_⟩
    · simp [hload, hoverride]
    · exact fun _ => ⟨⟨fault, hload⟩, ⟨cause, hoverride⟩, hleft, hleft'⟩

end Reader

/-- Factors of one use, and a strictness with the largest minimum that there is. -/
def largestMinimum : Overrides Float where
  distributions _ := none
  contexts
    | .monitoring => some ⟨.all 2.0, 1e-3⟩
    | _ => none
  precisions
    | .high => some ⟨⟨.all ⟨0.1, 0.2, 0.3, 4.0⟩, ⟨1.0, 2.0, 3.0, 1e300⟩⟩, ⟨2 ^ 64 - 1, 30, 20, 0⟩⟩
    | _ => none

theorem largestMinimum_loaded_and_halfSound_refused :
    (∃ next, standard.apply (.load (Overrides.form.print largestMinimum)) = .ok next)
      ∧ Overrides.ofDocument (Overrides.form.print largestMinimum) = .ok largestMinimum
      ∧ (∃ fault, standard.apply (.load (Overrides.form.print halfSound)) = .error fault)
      ∧ standard.after (.load (Overrides.form.print halfSound)) = standard := by
  obtain ⟨_, hok, hread, _⟩ := load_print_eq_override standard largestMinimum (by decide +kernel)
  obtain ⟨_, _, _, hrefused⟩ := load_print_eq_override standard halfSound (by decide +kernel)
  have hcarriedOut : (standard.apply (.override largestMinimum)).toBool = true := by
    decide +kernel
  obtain ⟨hload, _, hleft, _⟩ := hrefused (by decide +kernel)
  exact ⟨hok.mpr (exists_ok_of_toBool hcarriedOut), hread (by decide +kernel), hload, hleft⟩

end Registry

end BinGrade
