import BinGrade.Form.Threshold

/-!
# Sound registries

A registry is never seen in the middle of a change. Whatever is asked of it, the tables in force
pass their check, and a change that is refused leaves them as they were, however far the edit of the
copy had come. The two facts are stated of one change (`Atomic`), carried from the edit of a copy to
every operation, and from there to every run.
-/

namespace BinGrade

open Json

/-! ### Changes in place -/

namespace Change

variable {ε ε' α : Type} [Scalar α]

/-- A change that leaves sound tables where it is carried out and touches nothing where it is not.
-/
structure Atomic (change : Change ε α Unit) : Prop where
  sound : ∀ {r next}, change.outcome r = .ok next → next.tables.check = .ok ()
  untouched : ∀ {r fault}, change.outcome r = .error fault → change.left r = r

omit [Scalar α] in
theorem left_of_outcome_ok {change : Change ε α Unit} {r next : Registry α}
    (h : change.outcome r = .ok next) : change.left r = next := by
  unfold outcome at h
  unfold left
  cases hr : change.run r with
  | ok u s =>
    rw [hr] at h
    exact Except.ok.inj h
  | error fault s =>
    rw [hr] at h
    cases h

omit [Scalar α] in
theorem outcome_adaptExcept (f : ε → ε') (change : Change ε α Unit) (r : Registry α) :
    outcome (EStateM.adaptExcept f change) r = (change.outcome r).mapError f := by
  simp only [outcome, EStateM.run, EStateM.adaptExcept]
  cases change r with
  | ok u s => rfl
  | error fault s => rfl

omit [Scalar α] in
theorem left_adaptExcept (f : ε → ε') (change : Change ε α Unit) (r : Registry α) :
    left (EStateM.adaptExcept f change) r = change.left r := by
  simp only [left, EStateM.run, EStateM.adaptExcept]
  cases change r with
  | ok u s => rfl
  | error fault s => rfl

theorem Atomic.adaptExcept {change : Change ε α Unit} (h : change.Atomic) (f : ε → ε') :
    Atomic (EStateM.adaptExcept f change) := by
  refine ⟨?_, ?_⟩
  · intro r next hok
    rw [outcome_adaptExcept] at hok
    exact h.sound (eq_ok_of_mapError_eq_ok hok)
  · intro r fault herr
    rw [outcome_adaptExcept] at herr
    rw [left_adaptExcept]
    cases hc : change.outcome r with
    | ok s =>
      rw [hc] at herr
      cases herr
    | error cause => exact h.untouched hc

theorem atomic_throw (fault : ε) : Atomic (throw fault : Change ε α Unit) := by
  refine ⟨?_, ?_⟩
  · intro r next hok
    cases hok
  · intro r cause herr
    rfl

theorem Atomic.sound_left {change : Change ε α Unit} (h : change.Atomic) {r : Registry α}
    (hr : r.tables.check = .ok ()) : (change.left r).tables.check = .ok () := by
  cases hc : change.outcome r with
  | ok next =>
    rw [left_of_outcome_ok hc]
    exact h.sound hc
  | error fault =>
    rw [h.untouched hc]
    exact hr

end Change

namespace Registry

section Replace

variable {α : Type} [Scalar α]

/-- All that replacing the tables can do: the edit is refused, or the draft is, or the draft is in
force. Only in the last case has the registry changed. -/
theorem run_replace (edit : Edit α Unit) (r : Registry α) :
    (replace edit).run r = match edit.run r.tables with
      | .error fault _ => .error fault r
      | .ok _ draft => match draft.check with
        | .error fault => .error fault r
        | .ok _ => .ok () ⟨draft⟩ := by
  have hget : (EStateM.get : Change (ConfigFault α) α (Registry α)) r = .ok r r := rfl
  simp only [replace, EStateM.run, bind, EStateM.bind, get, getThe, MonadStateOf.get, hget]
  cases edit r.tables with
  | error fault t => rfl
  | ok u draft =>
    dsimp only
    cases draft.check with
    | error fault => rfl
    | ok v => rfl

theorem outcome_replace (edit : Edit α Unit) (r : Registry α) :
    (replace edit).outcome r = match edit.run r.tables with
      | .error fault _ => .error fault
      | .ok _ draft => ofTables draft := by
  unfold Change.outcome
  rw [run_replace]
  cases edit.run r.tables with
  | error fault t => rfl
  | ok u draft =>
    dsimp only [ofTables]
    cases draft.check with
    | error fault => rfl
    | ok v => rfl

theorem check_of_ofTables {t : Tables α} {r : Registry α} (h : ofTables t = .ok r) :
    r.tables = t ∧ t.check = .ok () := by
  unfold ofTables at h
  obtain ⟨_, hcheck, h⟩ := exists_of_bind_eq_ok h
  cases h
  exact ⟨rfl, hcheck⟩

theorem atomic_replace (edit : Edit α Unit) : (replace edit).Atomic := by
  refine ⟨?_, ?_⟩
  · intro r next hok
    rw [outcome_replace] at hok
    cases he : edit.run r.tables with
    | error fault t =>
      rw [he] at hok
      cases hok
    | ok u draft =>
      rw [he] at hok
      obtain ⟨htables, hcheck⟩ := check_of_ofTables hok
      rw [htables]
      exact hcheck
  · intro r fault herr
    rw [Change.outcome, run_replace] at herr
    rw [Change.left, run_replace]
    cases he : edit.run r.tables with
    | error cause t => rfl
    | ok u draft =>
      rw [he] at herr
      dsimp only at herr ⊢
      cases hc : draft.check with
      | error cause => rfl
      | ok v =>
        rw [hc] at herr
        cases herr

end Replace

theorem check_builtin : (Tables.builtin : Tables Float).check = .ok () := by
  have h : (Tables.builtin : Tables Float).check.toBool = true := by decide +kernel
  obtain ⟨_, hcheck⟩ := exists_ok_of_toBool h
  exact hcheck

section Reader

variable [NumberReader]

/-! ### Operations -/

theorem atomic_load (s : String) : (load s).Atomic := by
  unfold load
  cases Overrides.ofDocument s with
  | error fault => exact Change.atomic_throw fault
  | ok o => exact (atomic_replace (.putAll o.entries)).adaptExcept Error.invalidConfig

theorem atomic_perform (op : Operation) : (perform op).Atomic := by
  cases op with
  | update slot e => exact (atomic_replace (.put slot e)).adaptExcept Error.invalidConfig
  | override o => exact (atomic_replace (.putAll o.entries)).adaptExcept Error.invalidConfig
  | load s => exact atomic_load s
  | loadFile contents =>
    cases contents with
    | none => exact Change.atomic_throw Error.file
    | some s => exact atomic_load s
  | reset => exact (atomic_replace (.reset : Edit Float Unit)).adaptExcept Error.invalidConfig

theorem after_of_ok {r next : Registry Float} {op : Operation} (h : r.apply op = .ok next) :
    r.after op = next :=
  Change.left_of_outcome_ok h

theorem after_of_error {r : Registry Float} {op : Operation} {fault : Error Float}
    (h : r.apply op = .error fault) : r.after op = r :=
  (atomic_perform op).untouched h

theorem check_after {r : Registry Float} (h : r.tables.check = .ok ()) (op : Operation) :
    (r.after op).tables.check = .ok () :=
  (atomic_perform op).sound_left h

/-! ### Runs -/

/-- The registry after changes that are tried one after the other, whether they are refused or not.
-/
def run (r : Registry Float) (ops : List Operation) : Registry Float := ops.foldl after r

/-- The registries that can be made. -/
inductive Initial : Registry Float → Prop
  | standard : Initial .standard
  | ofTables {t : Tables Float} {r : Registry Float} (h : Registry.ofTables t = .ok r) : Initial r
  | ofOverrides {s : String} {r : Registry Float} (h : Registry.ofOverrides s = .ok r) : Initial r

theorem Initial.check {r : Registry Float} (h : Initial r) : r.tables.check = .ok () := by
  cases h with
  | standard => exact check_builtin
  | ofTables h =>
    obtain ⟨htables, hcheck⟩ := check_of_ofTables h
    rw [htables]
    exact hcheck
  | ofOverrides h => exact (atomic_load _).sound h

theorem check_run {r : Registry Float} (h : r.tables.check = .ok ()) (ops : List Operation) :
    (r.run ops).tables.check = .ok () := by
  unfold run
  induction ops generalizing r with
  | nil => exact h
  | cons op ops ih => exact ih (check_after h op)

/-- Whatever is done to a registry, its tables are sound, and a change that is refused leaves them
as they were. -/
theorem check_run_and_after_of_error {r : Registry Float} (h : Initial r) (ops : List Operation) :
    (r.run ops).tables.check = .ok ()
      ∧ ∀ (op : Operation) (fault : Error Float), (r.run ops).apply op = .error fault →
        ((r.run ops).after op).tables = (r.run ops).tables := by
  refine ⟨check_run h.check ops, ?_⟩
  intro op fault herr
  rw [after_of_error herr]

end Reader

/-- Sound factors for one use, beside factors for another that are no numbers. The first entry is put
into the copy before the second one is looked at. -/
def halfSound : Overrides Float where
  distributions _ := none
  contexts
    | .monitoring => some ⟨.all 2.0, 2.0⟩
    | .stability => some ⟨.all (0.0 / 0.0), 1.0⟩
    | _ => none
  precisions _ := none

theorem halfSound_refused_and_untouched :
    ∃ fault : Error Float, (standard.run [.reset]).apply (.override halfSound) = .error fault
      ∧ ((standard.run [.reset]).after (.override halfSound)).tables
        = (standard.run [.reset]).tables := by
  have h : ((standard.run [.reset]).apply (.override halfSound)).toBool = false := by
    decide +kernel
  obtain ⟨fault, ha⟩ := exists_error_of_toBool h
  exact ⟨fault, ha, (check_run_and_after_of_error .standard [.reset]).2 _ fault ha⟩

end Registry

end BinGrade
