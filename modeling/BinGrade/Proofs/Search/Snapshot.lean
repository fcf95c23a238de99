import BinGrade.Form.Threshold
import BinGrade.Proofs.Search.Order
import Mathlib.Data.List.Forall2

/-!
# One snapshot for a search

Making a histogram may change the registry, any number of times and in any way. A search reads the
tables once, before the first histogram is made, so each of its attempts is what a plain evaluation
gives on a registry that still holds them.
-/

namespace BinGrade

variable {σ α : Type}

/-! ### Calls of a workshop -/

/-- What a workshop was asked for, what it gave, and the states before and after. -/
inductive Workshop.Calls (w : Workshop σ α) (xs : List α) :
    σ → List (Binning × Except (Error α) (Histogram α)) → σ → Prop
  | nil (s : σ) : Calls w xs s [] s
  | cons {s mid last : σ} {b : Binning} {made : Except (Error α) (Histogram α)}
      {calls : List (Binning × Except (Error α) (Histogram α))}
      (first : w.make b xs s = (made, mid)) (more : Calls w xs mid calls last) :
      Calls w xs s ((b, made) :: calls) last

/-- The histograms that were made, with their candidates. -/
def built (calls : List (Binning × Except (Error α) (Histogram α))) :
    List (Binning × Histogram α) :=
  calls.filterMap fun c => c.2.toOption.map fun h => (c.1, h)

@[simp] theorem built_cons_ok (b : Binning) (h : Histogram α)
    (calls : List (Binning × Except (Error α) (Histogram α))) :
    built ((b, .ok h) :: calls) = (b, h) :: built calls := rfl

@[simp] theorem built_cons_error (b : Binning) (fault : Error α)
    (calls : List (Binning × Except (Error α) (Histogram α))) :
    built ((b, .error fault) :: calls) = built calls := rfl

theorem map_fst_built_sublist (calls : List (Binning × Except (Error α) (Histogram α))) :
    ((built calls).map Prod.fst).Sublist (calls.map Prod.fst) := by
  induction calls with
  | nil => exact List.Sublist.slnil
  | cons c calls ih =>
    obtain ⟨b, made⟩ := c
    cases made with
    | error fault => exact ih.cons b
    | ok hist => exact ih.cons_cons b

/-- The attempt at a candidate is the verdict on the histogram that was made for it. -/
def Attempt.Grades (grade : Histogram α → Except (Error α) (Verdict α))
    (c : Binning × Histogram α) (a : Attempt α) : Prop :=
  a.binning = c.1 ∧ grade c.2 = .ok a.verdict

theorem map_binning_of_grades {grade : Histogram α → Except (Error α) (Verdict α)}
    {cs : List (Binning × Histogram α)} {graded : List (Attempt α)}
    (h : List.Forall₂ (Attempt.Grades grade) cs graded) :
    graded.map (·.binning) = cs.map Prod.fst := by
  induction h with
  | nil => rfl
  | cons hca _ ih => rw [List.map_cons, List.map_cons, ih, hca.1]

theorem exists_mem_of_forall₂ {β γ : Type} {rel : β → γ → Prop} {bs : List β} {cs : List γ}
    (h : List.Forall₂ rel bs cs) {c : γ} (hc : c ∈ cs) : ∃ b ∈ bs, rel b c := by
  induction h with
  | nil => cases hc
  | @cons b c' bs cs hbc _ ih =>
    rcases List.mem_cons.mp hc with rfl | hc
    · exact ⟨b, List.mem_cons_self .., hbc⟩
    · obtain ⟨b', hb', hrel⟩ := ih hc
      exact ⟨b', List.mem_cons_of_mem _ hb', hrel⟩

variable [Scalar α]

namespace Search

/-- The attempts go along with the calls: one verdict for each histogram that was made, in order. -/
theorem attempts_grade_calls {w : Workshop σ α} {e : Evaluator α} {p : Prepared α} {xs : List α}
    {r : SearchRequest α} {bs : List Binning} {s last : σ} {trace : List (Attempt α)}
    (h : attempts w e p xs r bs s = (.ok trace, last)) :
    ∃ calls, w.Calls xs s calls last ∧ calls.map Prod.fst <+: bs
      ∧ List.Forall₂ (Attempt.Grades fun h => e.evaluatePrepared p h r.evaluation)
        (built calls) trace := by
  induction bs generalizing s trace with
  | nil =>
    cases h
    exact ⟨[], .nil _, List.nil_prefix, .nil⟩
  | cons b bs ih =>
    unfold attempts at h
    cases hm : w.make b xs s with
    | mk made mid =>
      rw [hm] at h
      cases made with
      | error fault =>
        obtain ⟨calls, hcalls, hprefix, hgrades⟩ := ih h
        refine ⟨(b, .error fault) :: calls, .cons hm hcalls, ?_, hgrades⟩
        exact (List.prefix_cons_inj b).mpr hprefix
      | ok hist =>
        dsimp only at h
        cases hv : e.evaluatePrepared p hist r.evaluation with
        | error fault =>
          rw [hv] at h
          cases h
        | ok v =>
          rw [hv] at h
          dsimp only at h
          split at h
          · cases h
            refine ⟨[(b, .ok hist)], .cons hm (.nil _), ?_, .cons ⟨rfl, hv⟩ .nil⟩
            exact (List.prefix_cons_inj b).mpr List.nil_prefix
          · cases hrest : attempts w e p xs r bs mid with
            | mk more after =>
              rw [hrest] at h
              cases more with
              | error fault => cases h
              | ok rest =>
                cases h
                obtain ⟨calls, hcalls, hprefix, hgrades⟩ := ih hrest
                refine ⟨(b, .ok hist) :: calls, .cons hm hcalls, ?_, .cons ⟨rfl, hv⟩ hgrades⟩
                exact (List.prefix_cons_inj b).mpr hprefix

theorem mem_of_best (first : Attempt α) (more : List (Attempt α)) :
    best first more ∈ first :: more := by
  unfold best
  induction more generalizing first with
  | nil => exact List.mem_cons_self ..
  | cons a more ih =>
    rw [List.foldl_cons]
    split
    · exact List.mem_cons_of_mem _ (ih a)
    · rcases List.mem_cons.mp (ih first) with heq | hmem
      · rw [heq]
        exact List.mem_cons_self ..
      · exact List.mem_cons_of_mem _ (List.mem_cons_of_mem _ hmem)

/-- A search keeps its attempts as they are and chooses one of them. -/
theorem chosen_mem_of_conclude {target : Tier} {trace : List (Attempt α)} {res : SearchResult α}
    (h : conclude target trace = .ok res) :
    res.trace = trace ∧ ∃ a ∈ trace, a.binning = res.chosen ∧ a.verdict = res.verdict := by
  unfold conclude at h
  cases trace with
  | nil => cases h
  | cons first more =>
    rw [List.head?_cons] at h
    cases hlast : (first :: more).getLast? with
    | none =>
      rw [hlast] at h
      cases h
    | some last =>
      rw [hlast] at h
      dsimp only [List.tail_cons] at h
      split at h
      · cases h
        exact ⟨rfl, last, List.mem_of_getLast? hlast, rfl, rfl⟩
      · cases h
        exact ⟨rfl, best first more, mem_of_best first more, rfl, rfl⟩

section Start

variable {tables : Tables α} {e : Evaluator α} {xs : List α} {r : SearchRequest α}

theorem start_of_space_error {fault : ParameterFault α} (h : r.space = .error fault) :
    start tables e xs r = .error (.invalidParameter fault) := by
  unfold start
  rw [h]
  rfl

theorem start_of_prepare_error {space : List Strategy × List Nat} {fault : Error α}
    (hspace : r.space = .ok space) (hprep : e.prepare tables xs r.evaluation = .error fault) :
    start tables e xs r = .error fault := by
  unfold start
  rw [hspace]
  simp only [Except.mapError, bind, Except.bind, hprep]

theorem start_of_prepare_ok {space : List Strategy × List Nat} {p : Prepared α}
    (hspace : r.space = .ok space) (hprep : e.prepare tables xs r.evaluation = .ok p) :
    start tables e xs r = .ok (r.order, p) := by
  rw [← SearchRequest.candidates_of_space_eq_ok hspace]
  unfold start
  rw [hspace]
  simp only [Except.mapError, bind, Except.bind, hprep]
  rfl

theorem exists_of_start_ok {started : List Binning × Prepared α}
    (h : start tables e xs r = .ok started) :
    ∃ space p, r.space = .ok space ∧ e.prepare tables xs r.evaluation = .ok p := by
  obtain ⟨space, hspace, h⟩ := exists_of_bind_eq_ok h
  obtain ⟨p, hp, _⟩ := exists_of_bind_eq_ok h
  exact ⟨space, p, eq_ok_of_mapError_eq_ok hspace, hp⟩

theorem run_of_start_error {w : Workshop σ α} {s : σ} {fault : Error α}
    (h : start (w.registry s).tables e xs r = .error fault) :
    run w e xs r s = (.error fault, s) := by
  unfold run
  rw [h]

end Start

/-- What a search that has a result has done on its way. -/
theorem run_eq_ok {w : Workshop σ α} {e : Evaluator α} {xs : List α} {r : SearchRequest α}
    {s last : σ} {res : SearchResult α} (h : run w e xs r s = (.ok res, last)) :
    ∃ p, e.prepare (w.registry s).tables xs r.evaluation = .ok p
      ∧ attempts w e p xs r r.order s = (.ok res.trace, last)
      ∧ conclude r.target res.trace = .ok res := by
  unfold run at h
  cases hspace : r.space with
  | error fault =>
    rw [start_of_space_error hspace] at h
    cases h
  | ok space =>
    cases hprep : e.prepare (w.registry s).tables xs r.evaluation with
    | error fault =>
      rw [start_of_prepare_error hspace hprep] at h
      cases h
    | ok p =>
      rw [start_of_prepare_ok hspace hprep] at h
      dsimp only at h
      cases hatt : attempts w e p xs r r.order s with
      | mk trace after =>
        rw [hatt] at h
        cases trace with
        | error fault => cases h
        | ok trace =>
          obtain ⟨hconclude, rfl⟩ := Prod.mk.inj h
          have htrace := (chosen_mem_of_conclude hconclude).1
          subst htrace
          exact ⟨p, rfl, hatt, hconclude⟩

end Search

theorem Evaluator.evaluate_of_prepare {e : Evaluator α} {reg : Registry α} {xs : List α}
    {q : Request α} {p : Prepared α} (h : e.prepare reg.tables xs q = .ok p) (hist : Histogram α) :
    e.evaluate reg xs hist q = e.evaluatePrepared p hist q := by
  unfold evaluate
  rw [h]
  rfl

namespace Search

theorem calls_standard {xs : List α} {reg last : Registry α}
    {calls : List (Binning × Except (Error α) (Histogram α))}
    (h : (Workshop.standard : Workshop (Registry α) α).Calls xs reg calls last) :
    ∀ c ∈ built calls, c.1.build xs = .ok c.2 := by
  induction h with
  | nil s => simp [built]
  | @cons s mid last b made calls first more ih =>
    have hmade : b.build xs = made := congrArg Prod.fst first
    cases made with
    | error fault => exact ih
    | ok hist =>
      intro c hc
      rw [built_cons_ok] at hc
      rcases List.mem_cons.mp hc with rfl | hc
      · exact hmade
      · exact ih c hc

theorem grades_calls_of_run {w : Workshop σ α} {e : Evaluator α} {xs : List α}
    {r : SearchRequest α} {s last : σ} {res : SearchResult α}
    (h : run w e xs r s = (.ok res, last)) :
    ∃ calls, w.Calls xs s calls last ∧ calls.map Prod.fst <+: r.order
      ∧ ∀ reg : Registry α, reg.tables = (w.registry s).tables →
        List.Forall₂ (Attempt.Grades fun h => e.evaluate reg xs h r.evaluation)
          (built calls) res.trace := by
  obtain ⟨p, hprep, hatt, hconclude⟩ := run_eq_ok h
  obtain ⟨calls, hcalls, hprefix, hgrades⟩ := attempts_grade_calls hatt
  refine ⟨calls, hcalls, hprefix, ?_⟩
  intro reg hreg
  rw [← hreg] at hprep
  refine hgrades.imp ?_
  intro c a hc
  exact ⟨hc.1, (Evaluator.evaluate_of_prepare hprep c.2).trans hc.2⟩

theorem chosen_mem_of_run {w : Workshop σ α} {e : Evaluator α} {xs : List α}
    {r : SearchRequest α} {s last : σ} {res : SearchResult α}
    (h : run w e xs r s = (.ok res, last)) :
    ∃ a ∈ res.trace, a.binning = res.chosen ∧ a.verdict = res.verdict := by
  obtain ⟨_, _, _, hconclude⟩ := run_eq_ok h
  exact (chosen_mem_of_conclude hconclude).2

/-- Building the chosen binning again and evaluating it gives the verdict of the search. -/
theorem evaluate_chosen_of_run_standard {e : Evaluator α} {xs : List α} {r : SearchRequest α}
    {reg last : Registry α} {res : SearchResult α}
    (h : run .standard e xs r reg = (.ok res, last)) :
    ∃ h, res.chosen.build xs = .ok h ∧ e.evaluate reg xs h r.evaluation = .ok res.verdict := by
  obtain ⟨calls, hcalls, _, hgrades⟩ := grades_calls_of_run h
  obtain ⟨a, ha, hchosen, hverdict⟩ := chosen_mem_of_run h
  obtain ⟨c, hc, hgrade⟩ := exists_mem_of_forall₂ (hgrades reg rfl) ha
  refine ⟨c.2, ?_, ?_⟩
  · rw [← hchosen, hgrade.1]
    exact calls_standard hcalls c hc
  · rw [← hverdict]
    exact hgrade.2

/-- Each attempt of a search is the verdict that an evaluation gives on a registry with the tables
at the start, for the histogram that was made at that attempt. -/
theorem run_grades_against_start (e : Evaluator α) (xs : List α) (r : SearchRequest α) :
    (∀ (σ : Type) (w : Workshop σ α) (s last : σ) (res : SearchResult α),
      run w e xs r s = (.ok res, last) →
      (∃ calls, w.Calls xs s calls last ∧ calls.map Prod.fst <+: r.order
        ∧ ∀ reg : Registry α, reg.tables = (w.registry s).tables →
          List.Forall₂ (Attempt.Grades fun h => e.evaluate reg xs h r.evaluation)
            (built calls) res.trace)
      ∧ ∃ a ∈ res.trace, a.binning = res.chosen ∧ a.verdict = res.verdict)
    ∧ ∀ (reg : Registry α) (res : SearchResult α), (run .standard e xs r reg).1 = .ok res →
      ∃ h, res.chosen.build xs = .ok h ∧ e.evaluate reg xs h r.evaluation = .ok res.verdict := by
  refine ⟨?_, ?_⟩
  · intro σ w s last res h
    exact ⟨grades_calls_of_run h, chosen_mem_of_run h⟩
  · intro reg res h
    exact evaluate_chosen_of_run_standard (Prod.ext h rfl)

/-- Tightens the thresholds with every histogram that it makes. -/
def tightening : Workshop (Registry Float) Float where
  registry := id
  make b xs reg :=
    (b.build xs, reg.after (.update (.context .general) (.multipliers ⟨.all 1e-3, 1e-3⟩)))

/-- One bin of any quality. -/
def oneBin : SearchRequest Float := ⟨.unacceptable, [.uniform], [1], .plain⟩

theorem tightening_grades_against_start :
    ∃ res last calls, run tightening .standard [5.0] oneBin .standard = (.ok res, last)
      ∧ tightening.Calls [5.0] .standard calls last
      ∧ List.Forall₂ (Attempt.Grades fun h => Evaluator.standard.evaluate .standard [5.0] h .plain)
        (built calls) res.trace := by
  have hrun : (run tightening .standard [5.0] oneBin .standard).1.toBool = true := by
    decide +kernel
  cases hpair : run tightening .standard [5.0] oneBin .standard with
  | mk outcome last =>
    rw [hpair] at hrun
    obtain ⟨res, rfl⟩ := exists_ok_of_toBool hrun
    obtain ⟨⟨calls, hcalls, _, hgrades⟩, _⟩ :=
      (run_grades_against_start .standard [5.0] oneBin).1 _ tightening .standard last res hpair
    exact ⟨res, last, calls, rfl, hcalls, hgrades .standard rfl⟩

end Search

end BinGrade
