import BinGrade.Proofs.Registry.Store
import BinGrade.Verdict.Evaluate

/-!
# The entries that an evaluation reads

An evaluation reads one or two entries of the tables: that of the strictness asked for, or else those
of the shape of the sample and of the use. As long as no operation that is carried out replaces one
of them, the outcome of the evaluation stays the same, whatever else happens to the registry.
-/

namespace BinGrade

open Json

/-! ### Entries that a run leaves alone -/

namespace Registry

variable [NumberReader]

/-- Whether an operation, if it is carried out, replaces the entry of a slot. Going back to the
built-in tables replaces all of them. -/
def Operation.Replaces (op : Operation) (k : Slot) : Prop :=
  op.isReset = true ∨ (op.written k).isSome = true

instance (op : Operation) (k : Slot) : Decidable (op.Replaces k) :=
  inferInstanceAs (Decidable (_ ∨ _))

theorem entry_of_not_replaces {r next : Registry Float} {op : Operation} {k : Slot}
    (h : r.apply op = .ok next) (hk : ¬op.Replaces k) :
    next.tables.entry k = r.tables.entry k := by
  obtain ⟨hreset, hwritten⟩ := not_or.mp hk
  rw [Option.not_isSome_iff_eq_none] at hwritten
  rw [entry_of_apply_ok h k, if_neg hreset, hwritten]
  rfl

/-- A run leaves an entry alone if no operation that it carries out replaces it. -/
theorem entry_run_of_not_replaces {r : Registry Float} {ops : List Operation} {k : Slot}
    (h : ∀ op ∈ r.carriedOut ops, ¬op.Replaces k) :
    (r.run ops).tables.entry k = r.tables.entry k := by
  induction ops generalizing r with
  | nil => rfl
  | cons op ops ih =>
    show ((r.after op).run ops).tables.entry k = _
    cases hop : r.apply op with
    | error fault =>
      simp only [carriedOut, hop] at h
      rw [after_of_error hop]
      exact ih h
    | ok next =>
      simp only [carriedOut, hop, List.forall_mem_cons] at h
      rw [after_of_ok hop]
      exact (ih h.2).trans (entry_of_not_replaces hop h.1)

end Registry

/-! ### Entries that thresholds are resolved from -/

namespace Tables

/-- The slots that the set for given keys is resolved from. -/
def sources (d : Distribution) (c : Context) : Option Precision → List Slot
  | some level => [.precision level]
  | none => [.distribution d, .context c]

theorem resolve_congr {α : Type} [Scalar α] {t u : Tables α} {d : Distribution} {c : Context}
    {p : Option Precision} (h : ∀ k ∈ sources d c p, t.entry k = u.entry k) :
    t.resolve d c p = u.resolve d c p := by
  cases p with
  | some level =>
    have hlevel := h (.precision level) (by simp [sources])
    exact Entry.thresholds.inj hlevel
  | none =>
    have hset := h (.distribution d) (by simp [sources])
    have hfactors := h (.context c) (by simp [sources])
    unfold resolve
    rw [Entry.thresholds.inj hset, Entry.multipliers.inj hfactors]

end Tables

/-! ### Evaluations -/

namespace Evaluator

variable {α : Type} [Scalar α] {e : Evaluator α} {xs : List α} {q : Request α}

/-- The slots whose entries an evaluation is graded against. A sample without a label is graded
against none. -/
def addressed (e : Evaluator α) (xs : List α) (q : Request α) : List Slot :=
  match e.labelOf xs (.ofSample xs) q with
  | .ok label => Tables.sources label.distribution q.context q.precision
  | .error _ => []

/-- The tables enter an evaluation behind everything that can refuse the sample. -/
theorem evaluate_eq_bind (e : Evaluator α) (r : Registry α) (xs : List α) (hist : Histogram α)
    (q : Request α) : e.evaluate r xs hist q = (do
      q.check.mapError .invalidParameter
      Sample.checkFinite "sample" xs
      let label ← e.labelOf xs (.ofSample xs) q
      e.evaluatePrepared ⟨xs.length, .ofSample xs, label, r.tables⟩ hist q) := by
  simp only [evaluate, prepare, bind_assoc, pure_bind]

/-- Of the tables of a prepared sample, only the resolved set enters a verdict. -/
theorem evaluatePrepared_congr {t u : Tables α} {n : Nat} {m : Moments α} {label : ShapeLabel α}
    (h : t.resolve label.distribution q.context q.precision
      = u.resolve label.distribution q.context q.precision) (hist : Histogram α) :
    e.evaluatePrepared ⟨n, m, label, t⟩ hist q = e.evaluatePrepared ⟨n, m, label, u⟩ hist q := by
  unfold evaluatePrepared
  rw [h]
  rfl

/-- Registries that agree on the addressed entries give the same outcome. -/
theorem evaluate_congr {r s : Registry α}
    (h : ∀ k ∈ e.addressed xs q, r.tables.entry k = s.tables.entry k) (hist : Histogram α) :
    e.evaluate r xs hist q = e.evaluate s xs hist q := by
  rw [evaluate_eq_bind, evaluate_eq_bind]
  unfold addressed at h
  cases hlabel : e.labelOf xs (.ofSample xs) q with
  | error fault => rfl
  | ok label =>
    rw [hlabel] at h
    have hprepared := evaluatePrepared_congr (e := e) (n := xs.length) (m := .ofSample xs)
      (Tables.resolve_congr h) hist
    simp only [bind, Except.bind, hprepared]

/-- Whatever is done to a registry between two evaluations, their outcomes are the same if no
operation that was carried out replaced an entry that they address. -/
theorem evaluate_run_eq [NumberReader] (e : Evaluator Float) (xs : List Float) (hist : Histogram Float)
    (q : Request Float) (r : Registry Float) (ops : List Registry.Operation)
    (h : ∀ op ∈ r.carriedOut ops, ∀ k ∈ e.addressed xs q, ¬op.Replaces k) :
    e.evaluate (r.run ops) xs hist q = e.evaluate r xs hist q := by
  apply evaluate_congr
  intro k hk
  exact Registry.entry_run_of_not_replaces fun op hop => h op hop k hk

/-- A change of another use, between an update of the addressed use and a document that are both
refused. -/
def aroundGeneral : List Registry.Operation :=
  [.update (.context .general) (.multipliers ⟨.all (0.0 / 0.0), 1.0⟩),
    .update (.context .stability) (.multipliers ⟨.all 2.0, 2.0⟩),
    .load "[1"]

/-- A sample that is taken for a normal one, for general use. -/
def asNormal : Request Float := { Request.plain with distribution := some .normal }

theorem aroundGeneral_evaluate_eq :
    (Registry.standard.carriedOut aroundGeneral).length = 1
      ∧ (standard.evaluate .standard [4.0, 6.0] ⟨[3.5, 5.5], [2]⟩ asNormal).toBool = true
      ∧ standard.evaluate (Registry.standard.run aroundGeneral) [4.0, 6.0] ⟨[3.5, 5.5], [2]⟩ asNormal
        = standard.evaluate .standard [4.0, 6.0] ⟨[3.5, 5.5], [2]⟩ asNormal := by
  have hkept : ∀ op ∈ Registry.standard.carriedOut aroundGeneral,
      ∀ k ∈ standard.addressed [4.0, 6.0] asNormal, ¬op.Replaces k := by
    decide +kernel
  exact ⟨by decide +kernel, by decide +kernel, evaluate_run_eq _ _ _ _ _ _ hkept⟩

end Evaluator

end BinGrade
