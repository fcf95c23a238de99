import BinGrade.Proofs.Json.Members
import BinGrade.Proofs.Weight.Normalization

/-!
# Documents of weight tables

There are two ways to the same check: every row of a document is checked when it is read, and tables as
a whole are checked row by row before an engine is made of them. Both accept the same tables. Whatever
a document holds passes the check, and if finite doubles read back, tables come back from their own
document if and only if they pass it.
-/

namespace BinGrade

open Json Json.Form Json.Record
open NumberReader (ReadsBack)

/-! ### Weights -/

namespace Weights

variable [NumberReader]

theorem carries_rawForm [ReadsBack] : rawForm.Carries fun w => ∀ m, (w.get m).isFinite = true := by
  have hf := carries_number
  refine (carries_via (carries_tuple <| carriesRow_field hf <| carriesRow_field hf <|
    carriesRow_field hf <| carriesRow_field hf carriesRow_nil) fun w => rfl).congr ?_
  intro w
  simp [Moment.forall_iff, PerMoment.get, PerMoment.toFields]

theorem carries_form [ReadsBack] : form.Carries fun w => w.check = .ok w := by
  have hself : ∀ w v : Weights Float, w.check.mapError ParameterFault.sentence = .ok v → v = w :=
    fun w v h => (eq_of_check (eq_ok_of_mapError_eq_ok h)).1
  refine (carries_checked carries_rawForm hself).congr ?_
  intro w
  constructor
  · rintro ⟨_, hcheck⟩
    exact eq_ok_of_mapError_eq_ok hcheck
  · intro hcheck
    refine ⟨fun m => (isUsable_iff.mp (isUsable_of_check hcheck m)).1, ?_⟩
    rw [id, hcheck]
    rfl

theorem yields_form : form.Yields fun w => w.check = .ok w := fun _ _ h => check_of_read h

end Weights

/-! ### Tables of keys -/

section Tables

variable [NumberReader] {β : Type} {f : Form β} {P : β → Prop}

theorem carries_quintet {a b c d e : String} (hnames : [a, b, c, d, e].Nodup) (hf : f.Carries P) :
    (field a f <| field b f <| field c f <| field d f <| field e f nil).strict.Carries fun v =>
      P v.1 ∧ P v.2.1 ∧ P v.2.2.1 ∧ P v.2.2.2.1 ∧ P v.2.2.2.2.1 ∧ True := by
  simp only [List.nodup_cons] at hnames
  obtain ⟨ha, hb, hc, hd, he, -⟩ := hnames
  exact carries_strict <| carries_field ha hf <| carries_field hb hf <| carries_field hc hf <|
    carries_field hd hf <| carries_field he hf carries_nil

theorem yields_quintet (a b c d e : String) (hf : f.Yields P) :
    (field a f <| field b f <| field c f <| field d f <| field e f nil).strict.Yields fun v =>
      P v.1 ∧ P v.2.1 ∧ P v.2.2.1 ∧ P v.2.2.2.1 ∧ P v.2.2.2.2.1 ∧ True :=
  yields_strict <| yields_field hf <| yields_field hf <| yields_field hf <| yields_field hf <|
    yields_field hf yields_nil

theorem Context.carries_tableForm (hf : f.Carries P) :
    (tableForm f).Carries fun t => ∀ c, P (t c) := by
  refine (carries_via (carries_quintet (by decide) hf) fun t => ?_).congr fun t => ?_
  · funext c
    cases c <;> rfl
  · refine ⟨?_, fun h => ⟨h _, h _, h _, h _, h _, trivial⟩⟩
    rintro ⟨_, _, _, _, _, _⟩ c
    cases c <;> assumption

theorem Context.yields_tableForm (hf : f.Yields P) :
    (tableForm f).Yields fun t => ∀ c, P (t c) := by
  refine yields_via (yields_quintet _ _ _ _ _ hf) ?_
  rintro v ⟨_, _, _, _, _, _⟩ c
  cases c <;> assumption

theorem Distribution.carries_tableForm (hf : f.Carries P) :
    (tableForm f).Carries fun t => ∀ d, P (t d) := by
  refine (carries_via (carries_quintet (by decide) hf) fun t => ?_).congr fun t => ?_
  · funext d
    cases d <;> rfl
  · refine ⟨?_, fun h => ⟨h _, h _, h _, h _, h _, trivial⟩⟩
    rintro ⟨_, _, _, _, _, _⟩ d
    cases d <;> assumption

theorem Distribution.yields_tableForm (hf : f.Yields P) :
    (tableForm f).Yields fun t => ∀ d, P (t d) := by
  refine yields_via (yields_quintet _ _ _ _ _ hf) ?_
  rintro v ⟨_, _, _, _, _, _⟩ d
  cases d <;> assumption

theorem Objective.carries_tableForm (hf : f.Carries P) :
    (tableForm f).Carries fun t => ∀ o, P (t o) := by
  refine (carries_via (carries_quintet (by decide) hf) fun t => ?_).congr fun t => ?_
  · funext o
    cases o <;> rfl
  · refine ⟨?_, fun h => ⟨h _, h _, h _, h _, h _, trivial⟩⟩
    rintro ⟨_, _, _, _, _, _⟩ o
    cases o <;> assumption

theorem Objective.yields_tableForm (hf : f.Yields P) :
    (tableForm f).Yields fun t => ∀ o, P (t o) := by
  refine yields_via (yields_quintet _ _ _ _ _ hf) ?_
  rintro v ⟨_, _, _, _, _, _⟩ o
  cases o <;> assumption

end Tables

/-! ### Weight tables -/

namespace WeightTables

variable {t : WeightTables Float}

theorem checkRow_eq_ok_iff {r : WeightRow} :
    t.checkRow r = .ok () ↔ (t.row r).check = .ok (t.row r) := by
  unfold checkRow
  cases hcheck : (t.row r).check with
  | error fault => simp
  | ok w => simp [(Weights.eq_of_check hcheck).1]

theorem check_eq_ok_iff : t.check = .ok () ↔
    (∀ c, (t.contexts c).check = .ok (t.contexts c)) ∧
    (∀ d, (t.distributions d).check = .ok (t.distributions d)) ∧
    ∀ o, (t.objectives o).check = .ok (t.objectives o) := by
  rw [check, checkRows_eq_ok_iff]
  constructor
  · intro h
    have hrow (r : WeightRow) := checkRow_eq_ok_iff.mp (h r (mem_all_rows r))
    exact ⟨fun c => hrow (.context c), fun d => hrow (.distribution d), fun o => hrow (.objective o)⟩
  · rintro ⟨hcontexts, hdistributions, hobjectives⟩ r -
    apply checkRow_eq_ok_iff.mpr
    cases r with
    | context c => exact hcontexts c
    | distribution d => exact hdistributions d
    | objective o => exact hobjectives o

section Reader

variable [NumberReader]

/-- The check of every row on the way through a document is the check of the tables. -/
theorem carries_form [ReadsBack] : form.Carries fun t => t.check = .ok () := by
  have hw := Weights.carries_form
  refine (carries_via (carries_strict <| carries_field (by simp) (Context.carries_tableForm hw) <|
    carries_field (by simp) (Distribution.carries_tableForm hw) <|
    carries_field (by simp) (Objective.carries_tableForm hw) carries_nil) fun t => rfl).congr ?_
  intro t
  simp only [check_eq_ok_iff, and_true]

theorem yields_form : form.Yields fun t => t.check = .ok () := by
  have hw := Weights.yields_form
  refine yields_via (yields_strict <| yields_field (Context.yields_tableForm hw) <|
    yields_field (Distribution.yields_tableForm hw) <|
    yields_field (Objective.yields_tableForm hw) yields_nil) ?_
  rintro v ⟨hcontexts, hdistributions, hobjectives, -⟩
  exact check_eq_ok_iff.mpr ⟨hcontexts, hdistributions, hobjectives⟩

theorem check_of_ofDocument {s : String} (h : ofDocument s = .ok t) : t.check = .ok () := by
  obtain ⟨tree, hread⟩ := exists_read_of_parse (eq_ok_of_mapError_eq_ok h)
  exact yields_form tree t hread

theorem settles_ofDocument_print [ReadsBack] (t : WeightTables Float) :
    Settles (ofDocument (form.print t)) t (t.check = .ok ()) := by
  unfold ofDocument
  exact (carries_form.parse_print t).mapError _

end Reader

end WeightTables

theorem WeightEngine.ofTables_of_check {t : WeightTables Float} (h : t.check = .ok ())
    (i : Influence Float) : ofTables t i = .ok ⟨t, i.sanitized⟩ := by
  unfold ofTables
  rw [h]
  rfl

/-- Documents hold tables that pass the check, and all of them: whatever is read passes it and makes
an engine with any influence, and if finite doubles read back, printed tables can be read if and only
if they pass it. -/
theorem WeightTables.ofDocument_usable_and_print_iff [NumberReader] :
    (∀ s t, ofDocument s = .ok t → t.check = .ok () ∧
      ∀ i, WeightEngine.ofTables t i = .ok ⟨t, i.sanitized⟩) ∧
    (ReadsBack → ∀ t, ((∃ u, ofDocument (form.print t) = .ok u) ↔ t.check = .ok ()) ∧
      ∀ u, ofDocument (form.print t) = .ok u → u = t) := by
  refine ⟨?_, ?_⟩
  · intro s t h
    have hcheck := check_of_ofDocument h
    exact ⟨hcheck, WeightEngine.ofTables_of_check hcheck⟩
  · intro _ t
    have hback := settles_ofDocument_print t
    have hcheck {u : WeightTables Float} (hu : ofDocument (form.print t) = .ok u) :
        t.check = .ok () := by
      by_contra hnot
      obtain ⟨fault, hfault⟩ := hback.refused hnot
      rw [hfault] at hu
      cases hu
    refine ⟨⟨fun ⟨u, hu⟩ => hcheck hu, fun h => ⟨t, hback.ok h⟩⟩, ?_⟩
    intro u hu
    rw [hback.ok (hcheck hu)] at hu
    exact (Except.ok.inj hu).symm

/-- The built-in tables come back and make an engine, with a negative zero in a row as well; with a row
that sums to two they do not come back. -/
theorem WeightTables.signedZero_returns_overweight_refused :
    (∃ u, ofDocument (form.print (builtin.setRow ⟨1.0, -0.0, 0.0, 0.0⟩ (.objective .balanced))) = .ok u ∧
      u = builtin.setRow ⟨1.0, -0.0, 0.0, 0.0⟩ (.objective .balanced) ∧
      ∀ i, WeightEngine.ofTables u i = .ok ⟨u, i.sanitized⟩) ∧
    ¬∃ u, ofDocument (form.print (builtin.setRow (.all 0.5) (.context .general))) = .ok u := by
  obtain ⟨husable, hreturns⟩ := ofDocument_usable_and_print_iff
  have hprint := hreturns inferInstance
  refine ⟨?_, ?_⟩
  · have hpass : (builtin.setRow (⟨1.0, -0.0, 0.0, 0.0⟩ : Weights Float)
        (.objective .balanced)).check.toBool = true := by decide +kernel
    obtain ⟨_, hcheck⟩ := exists_ok_of_toBool hpass
    obtain ⟨u, hu⟩ := (hprint _).1.mpr hcheck
    exact ⟨u, hu, (hprint _).2 u hu, (husable _ u hu).2⟩
  · have hfail : (builtin.setRow (.all 0.5 : Weights Float) (.context .general)).check.toBool = false := by
      decide +kernel
    intro h
    rw [(hprint _).1.mp h] at hfail
    cases hfail

end BinGrade
