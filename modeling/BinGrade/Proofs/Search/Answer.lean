import BinGrade.Proofs.Search.Snapshot
import BinGrade.Proofs.Verdict.Score
import BinGrade.Proofs.Weight.Usable

/-!
# The answer of a search

What a search answers is said of the list of all candidates that can be built, each with its
verdict, in the order of the search. If one of them reaches the target, the answer is the first that
does, and the trace ends there. Otherwise the trace is the whole list, and the answer is the first
of those with the highest score.
-/

namespace BinGrade

open Binary64

namespace Search

/-! ### The highest score -/

/-- The first of the highest scores: those before are lower, and none after is higher. -/
structure FirstBest (before : List (Attempt Float)) (a : Attempt Float)
    (after : List (Attempt Float)) : Prop where
  before_lt : ∀ b ∈ before, b.verdict.score < a.verdict.score
  after_le : ∀ b ∈ after, b.verdict.score ≤ a.verdict.score

/-- The answer to graded candidates. -/
inductive Answer (target : Tier) (graded : List (Attempt Float)) :
    Except (Error Float) (SearchResult Float) → Prop
  | nothing (h : graded = []) : Answer target graded (.error (.invalidInput .nothingBuilt))
  | met {before after : List (Attempt Float)} {a : Attempt Float}
      (h : graded = before ++ a :: after) (hbefore : ∀ b ∈ before, b.verdict.meets target = false)
      (ha : a.verdict.meets target = true) :
      Answer target graded (.ok ⟨a.binning, a.verdict, before ++ [a], true⟩)
  | missed {before after : List (Attempt Float)} {a : Attempt Float}
      (h : graded = before ++ a :: after) (hnone : ∀ b ∈ graded, b.verdict.meets target = false)
      (hbest : FirstBest before a after) :
      Answer target graded (.ok ⟨a.binning, a.verdict, graded, false⟩)

theorem scoresHigher_iff {a b : Attempt Float} (ha : a.verdict.score.isNaN = false)
    (hb : b.verdict.score.isNaN = false) :
    scoresHigher a b = true ↔ value b.verdict.score < value a.verdict.score := by
  have hlt := lt_iff hb ha
  change (!b.verdict.score.isNaN
    && (a.verdict.score.isNaN || decide (b.verdict.score < a.verdict.score))) = true ↔ _
  rw [ha, hb, ← hlt]
  simp

/-- The fold over the attempts keeps the first of the highest scores that it has met. -/
theorem exists_split_best {first : Attempt Float} {more : List (Attempt Float)}
    (h : ∀ a ∈ first :: more, a.verdict.score.isNaN = false) :
    ∃ before after, first :: more = before ++ best first more :: after
      ∧ (∀ b ∈ before, value b.verdict.score < value (best first more).verdict.score)
      ∧ ∀ b ∈ after, value b.verdict.score ≤ value (best first more).verdict.score := by
  induction more generalizing first with
  | nil => exact ⟨[], [], rfl, by simp, by simp⟩
  | cons next more ih =>
    have hfirst := h first (by simp)
    have hnext := h next (by simp)
    have hmore : ∀ a ∈ more, a.verdict.score.isNaN = false := fun a ha => h a (by simp [ha])
    have hbest : best first (next :: more)
        = best (if scoresHigher next first then next else first) more := rfl
    by_cases hhigher : scoresHigher next first = true
    · rw [hbest, if_pos hhigher]
      obtain ⟨before, after, hsplit, hlt, hle⟩ := ih (List.forall_mem_cons.mpr ⟨hnext, hmore⟩)
      refine ⟨first :: before, after, congrArg (first :: ·) hsplit, ?_, hle⟩
      -- the next attempt is at most the best one, and the first attempt is below it
      have hnextle : value next.verdict.score ≤ value (best next more).verdict.score := by
        have hmem : next ∈ before ++ best next more :: after := by
          rw [← hsplit]
          exact List.mem_cons_self ..
        rcases List.mem_append.mp hmem with hmem | hmem
        · exact (hlt next hmem).le
        rcases List.mem_cons.mp hmem with heq | hmem
        · rw [← heq]
        · exact hle next hmem
      refine List.forall_mem_cons.mpr ⟨?_, hlt⟩
      exact lt_of_lt_of_le ((scoresHigher_iff hnext hfirst).mp hhigher) hnextle
    · rw [hbest, if_neg hhigher]
      have hnextle : value next.verdict.score ≤ value first.verdict.score :=
        not_lt.mp fun hlt => hhigher ((scoresHigher_iff hnext hfirst).mpr hlt)
      obtain ⟨before, after, hsplit, hlt, hle⟩ := ih (List.forall_mem_cons.mpr ⟨hfirst, hmore⟩)
      cases before with
      | nil =>
        obtain ⟨heq, rfl⟩ := List.cons.inj hsplit
        refine ⟨[], next :: more, by rw [← heq]; rfl, by simp, ?_⟩
        refine List.forall_mem_cons.mpr ⟨?_, hle⟩
        rw [← heq]
        exact hnextle
      | cons _ before =>
        obtain ⟨rfl, hrest⟩ := List.cons.inj hsplit
        refine ⟨first :: next :: before, after, congrArg (first :: next :: ·) hrest, ?_, hle⟩
        obtain ⟨hfirstlt, hbefore⟩ := List.forall_mem_cons.mp hlt
        exact List.forall_mem_cons.mpr
          ⟨hfirstlt, List.forall_mem_cons.mpr ⟨hnextle.trans_lt hfirstlt, hbefore⟩⟩

theorem exists_firstBest {first : Attempt Float} {more : List (Attempt Float)}
    (h : ∀ a ∈ first :: more, a.verdict.score.isNaN = false) :
    ∃ before after, first :: more = before ++ best first more :: after
      ∧ FirstBest before (best first more) after := by
  obtain ⟨before, after, hsplit, hlt, hle⟩ := exists_split_best h
  rw [hsplit] at h
  have hbest := h (best first more) (by simp)
  refine ⟨before, after, hsplit, ?_, ?_⟩
  · intro b hb
    exact (lt_iff (h b (by simp [hb])) hbest).mpr (hlt b hb)
  · intro b hb
    exact (le_iff (h b (by simp [hb])) hbest).mpr (hle b hb)

/-! ### The trace -/

/-- A trace goes along graded candidates up to the first one that reaches the target. -/
inductive UpToTarget (target : Tier) : List (Attempt Float) → List (Attempt Float) → Prop
  | nil : UpToTarget target [] []
  | hit {a : Attempt Float} {rest : List (Attempt Float)} (h : a.verdict.meets target = true) :
      UpToTarget target (a :: rest) [a]
  | pass {a : Attempt Float} {rest trace : List (Attempt Float)}
      (h : a.verdict.meets target = false) (more : UpToTarget target rest trace) :
      UpToTarget target (a :: rest) (a :: trace)

theorem UpToTarget.cases_split {target : Tier} {graded trace : List (Attempt Float)}
    (h : UpToTarget target graded trace) :
    (∃ before a after, graded = before ++ a :: after ∧ trace = before ++ [a]
      ∧ (∀ b ∈ before, b.verdict.meets target = false) ∧ a.verdict.meets target = true)
    ∨ trace = graded ∧ ∀ b ∈ graded, b.verdict.meets target = false := by
  induction h with
  | nil => exact .inr ⟨rfl, by simp⟩
  | @hit a rest h => exact .inl ⟨[], a, rest, rfl, rfl, by simp, h⟩
  | @pass a rest trace h _ ih =>
    rcases ih with ⟨before, b, after, rfl, rfl, hbefore, hb⟩ | ⟨rfl, hnone⟩
    · exact .inl ⟨a :: before, b, after, rfl, rfl, List.forall_mem_cons.mpr ⟨h, hbefore⟩, hb⟩
    · exact .inr ⟨rfl, List.forall_mem_cons.mpr ⟨h, hnone⟩⟩

/-- Concluding from the trace gives the answer to the graded candidates. -/
theorem UpToTarget.answer {target : Tier} {graded trace : List (Attempt Float)}
    (h : UpToTarget target graded trace)
    (hscores : ∀ a ∈ graded, a.verdict.score.isNaN = false) :
    Answer target graded (conclude target trace) := by
  rcases h.cases_split with ⟨before, a, after, rfl, rfl, hbefore, ha⟩ | ⟨rfl, hnone⟩
  · have hconclude : conclude target (before ++ [a])
        = .ok ⟨a.binning, a.verdict, before ++ [a], true⟩ := by
      unfold conclude
      rw [List.getLast?_append_cons, List.getLast?_singleton]
      cases before <;> simp [ha]
    rw [hconclude]
    exact .met rfl hbefore ha
  · cases trace with
    | nil => exact .nothing rfl
    | cons first more =>
      obtain ⟨before, after, hsplit, hbest⟩ := exists_firstBest hscores
      have hconclude : conclude target (first :: more)
          = .ok ⟨(best first more).binning, (best first more).verdict, first :: more, false⟩ := by
        unfold conclude
        cases hlast : (first :: more).getLast? with
        | none => simp at hlast
        | some last =>
          have hmiss := hnone last (List.mem_of_getLast? hlast)
          simp [hmiss]
      rw [hconclude]
      exact .missed hsplit hnone hbest

/-! ### Graded candidates -/

/-- The candidates of which histograms can be made, in the order of the search, with these. -/
def buildable (make : Binning → List Float → Except (Error Float) (Histogram Float))
    (xs : List Float) (r : SearchRequest Float) : List (Binning × Histogram Float) :=
  built (r.order.map fun b => (b, make b xs))

theorem exists_graded {grade : Histogram Float → Except (Error Float) (Verdict Float)}
    (h : ∀ hist, ∃ v, grade hist = .ok v) (cs : List (Binning × Histogram Float)) :
    ∃ graded, List.Forall₂ (Attempt.Grades grade) cs graded := by
  induction cs with
  | nil => exact ⟨[], .nil⟩
  | cons c cs ih =>
    obtain ⟨graded, hgraded⟩ := ih
    obtain ⟨v, hv⟩ := h c.2
    exact ⟨⟨c.1, v⟩ :: graded, .cons ⟨rfl, hv⟩ hgraded⟩

section Pure

variable {make : Binning → List Float → Except (Error Float) (Histogram Float)}
  {e : Evaluator Float} {p : Prepared Float} {xs : List Float} {r : SearchRequest Float}

theorem attempts_cons_error {b : Binning} {fault : Error Float} (h : make b xs = .error fault)
    (bs : List Binning) (reg : Registry Float) :
    attempts (.pure make) e p xs r (b :: bs) reg = attempts (.pure make) e p xs r bs reg := by
  conv_lhs => unfold attempts
  dsimp only [Workshop.pure]
  rw [h]

theorem attempts_cons_ok {b : Binning} {hist : Histogram Float} {v : Verdict Float}
    (h : make b xs = .ok hist) (hv : e.evaluatePrepared p hist r.evaluation = .ok v)
    (bs : List Binning) (reg : Registry Float) :
    attempts (.pure make) e p xs r (b :: bs) reg
      = if v.meets r.target then (.ok [⟨b, v⟩], reg)
        else
          let (more, reg) := attempts (.pure make) e p xs r bs reg
          ((fun trace => ⟨b, v⟩ :: trace) <$> more, reg) := by
  conv_lhs => unfold attempts
  dsimp only [Workshop.pure]
  rw [h]
  dsimp only
  rw [hv]

/-- The attempts follow the graded candidates, and stop where the target is reached. -/
theorem attempts_pure {bs : List Binning} {graded : List (Attempt Float)}
    (h : List.Forall₂ (Attempt.Grades fun h => e.evaluatePrepared p h r.evaluation)
      (built (bs.map fun b => (b, make b xs))) graded) (reg : Registry Float) :
    ∃ trace, attempts (.pure make) e p xs r bs reg = (.ok trace, reg)
      ∧ UpToTarget r.target graded trace := by
  induction bs generalizing graded with
  | nil =>
    cases h
    exact ⟨[], rfl, .nil⟩
  | cons b bs ih =>
    rw [List.map_cons] at h
    cases hmake : make b xs with
    | error fault =>
      rw [hmake, built_cons_error] at h
      rw [attempts_cons_error hmake]
      exact ih h
    | ok hist =>
      rw [hmake, built_cons_ok] at h
      obtain ⟨⟨_, v⟩, rest, ⟨rfl, hv⟩, hrest, rfl⟩ := List.forall₂_cons_left_iff.mp h
      obtain ⟨trace, htrace, hup⟩ := ih hrest
      rw [attempts_cons_ok hmake hv]
      cases hmeets : v.meets r.target with
      | true => exact ⟨[⟨_, v⟩], rfl, .hit hmeets⟩
      | false =>
        rw [htrace]
        exact ⟨⟨_, v⟩ :: trace, rfl, .pass hmeets hup⟩

variable (make) in
theorem exists_buildable_graded (he : e.engine.Made) {tables : Tables Float}
    (hp : e.prepare tables xs r.evaluation = .ok p) :
    ∃ graded, List.Forall₂ (Attempt.Grades fun h => e.evaluatePrepared p h r.evaluation)
      (buildable make xs r) graded :=
  exists_graded (fun hist => Evaluator.exists_evaluatePrepared he hp hist) _

/-- A search over a prepared sample goes along the graded candidates and concludes from there. -/
theorem exists_upToTarget {reg : Registry Float} {space : List Strategy × List Nat}
    {graded : List (Attempt Float)} (hspace : r.space = .ok space)
    (hp : e.prepare reg.tables xs r.evaluation = .ok p)
    (hgraded : List.Forall₂ (Attempt.Grades fun h => e.evaluatePrepared p h r.evaluation)
      (buildable make xs r) graded) :
    ∃ trace, UpToTarget r.target graded trace
      ∧ (run (.pure make) e xs r reg).1 = conclude r.target trace := by
  obtain ⟨trace, htrace, hup⟩ := attempts_pure hgraded reg
  have hstart : start ((Workshop.pure make).registry reg).tables e xs r = .ok (r.order, p) :=
    start_of_prepare_ok hspace hp
  refine ⟨trace, hup, ?_⟩
  unfold run
  rw [hstart]
  dsimp only
  rw [htrace]
  rfl

theorem run_answer {reg : Registry Float} {space : List Strategy × List Nat}
    {graded : List (Attempt Float)} (hspace : r.space = .ok space)
    (hp : e.prepare reg.tables xs r.evaluation = .ok p)
    (hgraded : List.Forall₂ (Attempt.Grades fun h => e.evaluatePrepared p h r.evaluation)
      (buildable make xs r) graded) :
    Answer r.target graded (run (.pure make) e xs r reg).1 := by
  have hscores : ∀ a ∈ graded, a.verdict.score.isNaN = false := by
    intro a ha
    obtain ⟨c, _, hgrade⟩ := exists_mem_of_forall₂ hgraded ha
    exact Evaluator.isNaN_score_of_evaluatePrepared hgrade.2
  obtain ⟨trace, hup, hrun⟩ := exists_upToTarget hspace hp hgraded
  rw [hrun]
  exact hup.answer hscores

/-! ### Failures -/

theorem Answer.isError_iff {target : Tier} {graded : List (Attempt Float)}
    {outcome : Except (Error Float) (SearchResult Float)} (h : Answer target graded outcome) :
    (∃ fault, outcome = .error fault) ↔ graded = [] := by
  cases h with
  | nothing h => simp [h]
  | met h _ _ => simp [h]
  | missed h _ _ => simp [h]

theorem buildable_eq_nil_iff :
    buildable make xs r = [] ↔ ∀ b ∈ r.order, ∃ fault, make b xs = .error fault := by
  unfold buildable built
  rw [List.filterMap_eq_nil_iff, List.forall_mem_map]
  refine forall₂_congr fun b _ => ?_
  cases make b xs <;> simp [Except.toOption]

theorem run_isError_iff (he : e.engine.Made) (reg : Registry Float) :
    (∃ fault, (run (.pure make) e xs r reg).1 = .error fault)
      ↔ (∃ fault, r.space = .error fault)
        ∨ (∃ space, r.space = .ok space)
          ∧ ((∃ fault, e.prepare reg.tables xs r.evaluation = .error fault)
            ∨ (∃ p, e.prepare reg.tables xs r.evaluation = .ok p)
              ∧ ∀ b ∈ r.order, ∃ fault, make b xs = .error fault) := by
  cases hspace : r.space with
  | error fault =>
    rw [run_of_start_error (start_of_space_error hspace)]
    simp
  | ok space =>
    cases hp : e.prepare reg.tables xs r.evaluation with
    | error fault =>
      have hrun : run (.pure make) e xs r reg = (.error fault, reg) :=
        run_of_start_error (start_of_prepare_error hspace hp)
      rw [hrun]
      simp
    | ok p =>
      obtain ⟨graded, hgraded⟩ := exists_buildable_graded make he hp
      have hnil : graded = [] ↔ buildable make xs r = [] := by
        rw [← List.length_eq_zero_iff, ← List.length_eq_zero_iff, hgraded.length_eq]
      rw [(run_answer hspace hp hgraded).isError_iff, hnil, buildable_eq_nil_iff]
      simp

/-! ### The first candidate that reaches the target -/

theorem pairwise_precedes_buildable :
    (buildable make xs r).Pairwise fun b c => r.Precedes b.1 c.1 := by
  have hsub := map_fst_built_sublist (r.order.map fun b => (b, make b xs))
  rw [List.map_map] at hsub
  have hid : r.order.map (Prod.fst ∘ fun b => (b, make b xs)) = r.order := List.map_id _
  rw [hid] at hsub
  exact List.pairwise_map.mp ((SearchRequest.pairwise_precedes_order r).sublist hsub)

theorem pairwise_precedes_graded {grade : Histogram Float → Except (Error Float) (Verdict Float)}
    {graded : List (Attempt Float)}
    (h : List.Forall₂ (Attempt.Grades grade) (buildable make xs r) graded) :
    graded.Pairwise fun a b => r.Precedes a.binning b.binning := by
  rw [← List.pairwise_map (f := Attempt.binning), map_binning_of_grades h]
  exact List.pairwise_map.mpr pairwise_precedes_buildable

theorem mem_buildable {b : Binning} {hist : Histogram Float} (hb : b ∈ r.order)
    (h : make b xs = .ok hist) : (b, hist) ∈ buildable make xs r := by
  unfold buildable built
  rw [List.mem_filterMap]
  exact ⟨(b, make b xs), List.mem_map.mpr ⟨b, hb, rfl⟩, by rw [h]; rfl⟩

/-- No candidate before the one that reached the target reaches it. -/
theorem Answer.meets_of_precedes {graded : List (Attempt Float)} {res : SearchResult Float}
    (h : Answer r.target graded (.ok res)) (hmet : res.targetMet = true)
    (hgraded : List.Forall₂ (Attempt.Grades fun h => e.evaluatePrepared p h r.evaluation)
      (buildable make xs r) graded)
    {b : Binning} {hist : Histogram Float} {v : Verdict Float} (hb : b ∈ r.order)
    (hprecedes : r.Precedes b res.chosen) (hmake : make b xs = .ok hist)
    (hv : e.evaluatePrepared p hist r.evaluation = .ok v) : v.meets r.target = false := by
  obtain ⟨attempt, hmem, hbinning, hverdict⟩ :=
    exists_mem_of_forall₂ hgraded.flip (mem_buildable hb hmake)
  have hpairs := pairwise_precedes_graded hgraded
  generalize houtcome : (Except.ok res : Except (Error Float) (SearchResult Float)) = outcome at h
  cases h with
  | nothing h => cases houtcome
  | missed h _ _ =>
    cases houtcome
    cases hmet
  | @met before after a h hbefore ha =>
    cases houtcome
    have heq : attempt.verdict = v := Except.ok.inj (hverdict.symm.trans hv)
    subst h
    rw [← heq]
    rw [List.pairwise_append, List.pairwise_cons] at hpairs
    rcases List.mem_append.mp hmem with hmem | hmem
    · exact hbefore attempt hmem
    -- the chosen candidate and those after it do not come before it
    have hb : attempt.binning = b := hbinning
    rw [← hb] at hprecedes
    rcases List.mem_cons.mp hmem with rfl | hmem
    · exact absurd hprecedes (SearchRequest.Precedes.asymm hprecedes)
    · exact absurd hprecedes (SearchRequest.Precedes.asymm (hpairs.2.1.1 attempt hmem))

end Pure

/-- When a search fails, and what it answers otherwise. Once the sample is prepared, every candidate
that can be built is graded, and none that precedes a chosen one that reached the target reaches it.
-/
theorem run_isError_iff_and_answer (e : Evaluator Float) (he : e.engine.Made)
    (make : Binning → List Float → Except (Error Float) (Histogram Float)) (xs : List Float)
    (r : SearchRequest Float) (reg : Registry Float) :
    ((∃ fault, (run (.pure make) e xs r reg).1 = .error fault)
      ↔ (∃ fault, r.space = .error fault)
        ∨ (∃ space, r.space = .ok space)
          ∧ ((∃ fault, e.prepare reg.tables xs r.evaluation = .error fault)
            ∨ (∃ p, e.prepare reg.tables xs r.evaluation = .ok p)
              ∧ ∀ b : Binning, b.strategy ∈ r.strategies → b.bins ∈ r.binCounts →
                ∃ fault, make b xs = .error fault))
    ∧ ∀ space p, r.space = .ok space → e.prepare reg.tables xs r.evaluation = .ok p →
      ∃ graded, List.Forall₂ (Attempt.Grades fun h => e.evaluatePrepared p h r.evaluation)
          (buildable make xs r) graded
        ∧ Answer r.target graded (run (.pure make) e xs r reg).1
        ∧ ∀ res, (run (.pure make) e xs r reg).1 = .ok res → res.targetMet = true →
          ∀ (b : Binning) (h : Histogram Float) (v : Verdict Float),
            b.strategy ∈ r.strategies → b.bins ∈ r.binCounts → r.Precedes b res.chosen →
            make b xs = .ok h → e.evaluatePrepared p h r.evaluation = .ok v →
            v.meets r.target = false := by
  refine ⟨?_, ?_⟩
  · rw [run_isError_iff he reg]
    simp only [SearchRequest.mem_order, and_imp]
  · intro space p hspace hp
    obtain ⟨graded, hgraded⟩ := exists_buildable_graded make he hp
    have hanswer := run_answer hspace hp hgraded
    refine ⟨graded, hgraded, hanswer, ?_⟩
    intro res hres hmet b h v hstrategy hbins hprecedes hmake hv
    rw [hres] at hanswer
    exact hanswer.meets_of_precedes hmet hgraded (SearchRequest.mem_order.mpr ⟨hstrategy, hbins⟩)
      hprecedes hmake hv

/-- Makes no histograms with bins of equal width. -/
def unequalOnly (b : Binning) (xs : List Float) : Except (Error Float) (Histogram Float) :=
  if b.strategy = .uniform then .error (.invalidParameter .noBins) else b.build xs

/-- Two bins of any strategy. -/
def twoBins : SearchRequest Float :=
  ⟨.good, [.uniform, .quantile, .logarithmic], [2], .plain⟩

theorem twoBins_answer :
    ∃ space p graded, twoBins.space = .ok space
      ∧ Evaluator.standard.prepare Registry.standard.tables [5.0] twoBins.evaluation = .ok p
      ∧ List.Forall₂
        (Attempt.Grades fun h => Evaluator.standard.evaluatePrepared p h twoBins.evaluation)
        (buildable unequalOnly [5.0] twoBins) graded
      ∧ Answer .good graded (run (.pure unequalOnly) .standard [5.0] twoBins .standard).1 := by
  have hspace : twoBins.space.toBool = true := by decide +kernel
  have hprepare : (Evaluator.standard.prepare Registry.standard.tables [5.0]
      twoBins.evaluation).toBool = true := by decide +kernel
  obtain ⟨space, hspace⟩ := exists_ok_of_toBool hspace
  obtain ⟨p, hprepare⟩ := exists_ok_of_toBool hprepare
  obtain ⟨graded, hgraded, hanswer, -⟩ :=
    (run_isError_iff_and_answer .standard .standard unequalOnly [5.0] twoBins .standard).2
      space p hspace hprepare
  exact ⟨space, p, graded, hspace, hprepare, hgraded, hanswer⟩

end Search

end BinGrade
