import BinGrade.Proofs.Registry.Soundness

/-!
# The registry as a store of entries

The tables are checked as a whole after each change, but since they were sound before it, only the
entries that were written can be at fault. So a registry behaves like a store that checks each entry
on its own: an update asks for nothing but its entry, overrides are updates in any order, and the
entry in a slot is the last one that was written to it.
-/

namespace BinGrade

open Json

/-! ### Checking all slots -/

theorem checkAll_eq_error_of_first {ε β : Type} [DecidableEq β] {check : β → Except ε Unit}
    {bs : List β} {b : β} {fault : ε} (hb : b ∈ bs) (hbad : check b = .error fault)
    (hfirst : ∀ a ∈ bs, bs.idxOf a < bs.idxOf b → check a = .ok ()) :
    checkAll check bs = .error fault := by
  induction bs with
  | nil => cases hb
  | cons c bs ih =>
    by_cases hc : c = b
    · subst hc
      simp [checkAll, hbad, bind, Except.bind]
    · have hcb : (c == b) = false := beq_false_of_ne hc
      have hhead : check c = .ok () := by
        apply hfirst c (List.mem_cons_self ..)
        simp [List.idxOf_cons, hcb]
      have htail : checkAll check bs = .error fault := by
        apply ih ((List.mem_cons.mp hb).resolve_left (Ne.symm hc))
        intro a ha hlt
        by_cases hca : c = a
        · rw [← hca]
          exact hhead
        · have hca' : (c == a) = false := beq_false_of_ne hca
          apply hfirst a (List.mem_cons_of_mem _ ha)
          simpa [List.idxOf_cons, hca', hcb] using hlt
      simp [checkAll, hhead, htail, bind, Except.bind]

namespace Tables

variable {α : Type}

theorem ext_entry {t u : Tables α} (h : ∀ k, t.entry k = u.entry k) : t = u := by
  have hd : t.distributions = u.distributions := by
    funext d
    exact Entry.thresholds.inj (h (.distribution d))
  have hc : t.contexts = u.contexts := by
    funext c
    exact Entry.multipliers.inj (h (.context c))
  have hp : t.precisions = u.precisions := by
    funext p
    exact Entry.thresholds.inj (h (.precision p))
  cases t
  cases u
  cases hd
  cases hc
  cases hp
  rfl

theorem put_of_kind_eq (t : Tables α) {slot : Slot} {e : Entry α} (h : e.kind = slot.expected) :
    ∃ next, t.put slot e = .ok next := by
  rcases slot with d | c | p <;> rcases e with set | factors <;> first
    | exact ⟨_, rfl⟩
    | cases h

theorem put_of_kind_ne (t : Tables α) {slot : Slot} {e : Entry α} (h : e.kind ≠ slot.expected) :
    t.put slot e = .error (.wrongEntry slot.path slot.expected.name e.kind.name) := by
  rcases slot with d | c | p <;> rcases e with set | factors <;> first
    | rfl
    | exact absurd rfl h

variable [Scalar α]

theorem check_eq_ok_iff (t : Tables α) :
    t.check = .ok () ↔ ∀ k, (t.entry k).check k.path = .ok () := by
  unfold check
  rw [checkAll_eq_ok_iff]
  exact ⟨fun h k => h k (Slot.mem_all k), fun h k _ => h k⟩

theorem check_eq_error_of_first {t : Tables α} {slot : Slot} {fault : ConfigFault α}
    (hbad : (t.entry slot).check slot.path = .error fault)
    (hfirst : ∀ k, Slot.all.idxOf k < Slot.all.idxOf slot → (t.entry k).check k.path = .ok ()) :
    t.check = .error fault :=
  checkAll_eq_error_of_first (Slot.mem_all slot) hbad fun k _ => hfirst k

end Tables

/-! ### Editing a copy -/

namespace Edit

variable {α : Type}

/-- Entries that agree with a choice of one entry per slot can be put in any order, and in the end
each slot that is listed holds what was chosen for it. -/
theorem run_putAll {chosen : Slot → Option (Entry α)} {entries : List (Slot × Entry α)}
    (hkind : ∀ x ∈ entries, x.2.kind = x.1.expected)
    (hchosen : ∀ x ∈ entries, chosen x.1 = some x.2) (t : Tables α) :
    ∃ draft, (putAll entries).run t = .ok () draft
      ∧ ∀ k, draft.entry k
        = if k ∈ entries.map Prod.fst then (chosen k).getD (t.entry k) else t.entry k := by
  induction entries generalizing t with
  | nil => exact ⟨t, rfl, by simp⟩
  | cons x entries ih =>
    obtain ⟨slot, e⟩ := x
    obtain ⟨mid, hput⟩ := t.put_of_kind_eq (hkind (slot, e) (List.mem_cons_self ..))
    have hslot : chosen slot = some e := hchosen (slot, e) (List.mem_cons_self ..)
    obtain ⟨draft, hrun, hentry⟩ := ih (fun x hx => hkind x (List.mem_cons_of_mem _ hx))
      (fun x hx => hchosen x (List.mem_cons_of_mem _ hx)) mid
    refine ⟨draft, ?_, ?_⟩
    · show (putAll ((slot, e) :: entries)) t = .ok () draft
      simp only [putAll, put, bind, EStateM.bind, hput]
      exact hrun
    · intro k
      rw [hentry k, Tables.entry_put hput k]
      by_cases hk : k = slot
      · subst hk
        simp [hslot]
      · simp only [List.map_cons, List.mem_cons, hk, false_or, if_false]

end Edit

theorem Overrides.mem_map_fst_entries {α : Type} {o : Overrides α} {k : Slot} :
    k ∈ o.entries.map Prod.fst ↔ (o.find? k).isSome := by
  rw [List.mem_map, Option.isSome_iff_exists]
  constructor
  · rintro ⟨⟨slot, e⟩, hmem, rfl⟩
    exact ⟨e, mem_entries.mp hmem⟩
  · rintro ⟨e, he⟩
    exact ⟨(k, e), mem_entries.mpr he, rfl⟩

/-- Putting the overrides in any order gives the same draft. -/
theorem Edit.run_putAll_of_perm {α : Type} {o : Overrides α} {entries : List (Slot × Entry α)}
    (hperm : entries.Perm o.entries) (t : Tables α) :
    ∃ draft, (putAll entries).run t = .ok () draft
      ∧ ∀ k, draft.entry k = (o.find? k).getD (t.entry k) := by
  have hfind : ∀ x ∈ entries, o.find? x.1 = some x.2 := fun x hx =>
    Overrides.mem_entries.mp (hperm.mem_iff.mp hx)
  obtain ⟨draft, hrun, hentry⟩ := run_putAll
    (fun x hx => Overrides.kind_of_find? (hfind x hx)) hfind t
  refine ⟨draft, hrun, ?_⟩
  intro k
  rw [hentry k]
  have hmem : k ∈ entries.map Prod.fst ↔ (o.find? k).isSome :=
    (hperm.map Prod.fst).mem_iff.trans Overrides.mem_map_fst_entries
  cases hk : o.find? k with
  | none => simp [hmem, hk]
  | some e => simp [hmem, hk]

namespace Registry

theorem check_of_written_update {slot : Slot} {e : Entry Float} (h : e.check slot.path = .ok ()) :
    ∀ k e', (if k = slot then some e else none) = some e' → e'.check k.path = .ok () := by
  intro k e' hk
  split at hk
  · next heq =>
    cases hk
    rw [heq]
    exact h
  · cases hk

section Reader

variable [NumberReader]

/-! ### Operations that write -/

/-- An operation that puts given entries into a copy of the tables, and then the copy in force if it
is sound. -/
def Writes (r : Registry Float) (op : Operation) (written : Slot → Option (Entry Float)) : Prop :=
  ∃ draft : Tables Float,
    (∀ k, draft.entry k = (written k).getD (r.tables.entry k))
      ∧ r.apply op = (ofTables draft).mapError .invalidConfig

section Writes

variable {r : Registry Float} {op : Operation} {written : Slot → Option (Entry Float)}

theorem Writes.entry {next : Registry Float} (h : r.Writes op written)
    (hok : r.apply op = .ok next) (k : Slot) :
    next.tables.entry k = (written k).getD (r.tables.entry k) := by
  obtain ⟨draft, hentry, happly⟩ := h
  cases ht : ofTables draft with
  | error fault =>
    rw [happly, ht] at hok
    cases hok
  | ok s =>
    rw [happly, ht] at hok
    obtain rfl : s = next := Except.ok.inj hok
    rw [(check_of_ofTables ht).1, hentry k]

/-- The draft is sound if and only if the written entries are, for the others were sound before. -/
theorem Writes.ok_iff (h : r.Writes op written) (hr : r.tables.check = .ok ()) :
    (∃ next, r.apply op = .ok next)
      ↔ ∀ k e, written k = some e → e.check k.path = .ok () := by
  obtain ⟨draft, hentry, happly⟩ := h
  have hold := (r.tables.check_eq_ok_iff).mp hr
  constructor
  · rintro ⟨next, hok⟩ k e hk
    cases ht : ofTables draft with
    | error fault =>
      rw [happly, ht] at hok
      cases hok
    | ok s =>
      have hdraft := (draft.check_eq_ok_iff).mp (check_of_ofTables ht).2 k
      rw [hentry k, hk] at hdraft
      exact hdraft
  · intro hnew
    have hdraft : draft.check = .ok () := by
      rw [Tables.check_eq_ok_iff]
      intro k
      rw [hentry k]
      cases hk : written k with
      | none => exact hold k
      | some e => exact hnew k e hk
    refine ⟨⟨draft⟩, ?_⟩
    rw [happly, ofTables, hdraft]
    rfl

theorem Writes.error (h : r.Writes op written) (hr : r.tables.check = .ok ()) {slot : Slot}
    {e : Entry Float} {fault : ConfigFault Float} (hslot : written slot = some e)
    (hbad : e.check slot.path = .error fault)
    (hfirst : ∀ k e', Slot.all.idxOf k < Slot.all.idxOf slot → written k = some e' →
      e'.check k.path = .ok ()) :
    r.apply op = .error (.invalidConfig fault) := by
  obtain ⟨draft, hentry, happly⟩ := h
  have hold := (r.tables.check_eq_ok_iff).mp hr
  have hdraft : draft.check = .error fault := by
    have hdraftbad : (draft.entry slot).check slot.path = .error fault := by
      rw [hentry slot, hslot]
      exact hbad
    apply Tables.check_eq_error_of_first hdraftbad
    intro k hlt
    rw [hentry k]
    cases hk : written k with
    | none => exact hold k
    | some e' => exact hfirst k e' hlt hk
  rw [happly, ofTables, hdraft]
  rfl

end Writes

theorem apply_update (r : Registry Float) (slot : Slot) (e : Entry Float) :
    r.apply (.update slot e) = match r.tables.put slot e with
      | .error fault => .error (.invalidConfig fault)
      | .ok draft => (ofTables draft).mapError .invalidConfig := by
  show Change.outcome (EStateM.adaptExcept _ (replace (.put slot e))) r = _
  rw [Change.outcome_adaptExcept, outcome_replace]
  simp only [Edit.put, EStateM.run]
  cases r.tables.put slot e with
  | error fault => rfl
  | ok draft => rfl

theorem apply_update_of_kind_ne (r : Registry Float) {slot : Slot} {e : Entry Float}
    (h : e.kind ≠ slot.expected) :
    r.apply (.update slot e)
      = .error (.invalidConfig (.wrongEntry slot.path slot.expected.name e.kind.name)) := by
  rw [apply_update, Tables.put_of_kind_ne _ h]

theorem writes_update (r : Registry Float) {slot : Slot} {e : Entry Float}
    (h : e.kind = slot.expected) :
    r.Writes (.update slot e) fun k => if k = slot then some e else none := by
  obtain ⟨draft, hput⟩ := r.tables.put_of_kind_eq h
  refine ⟨draft, ?_, ?_⟩
  · intro k
    rw [Tables.entry_put hput k]
    by_cases hk : k = slot <;> simp [hk]
  · rw [apply_update, hput]

theorem writes_override (r : Registry Float) (o : Overrides Float) :
    r.Writes (.override o) o.find? := by
  obtain ⟨draft, hrun, hentry⟩ := Edit.run_putAll_of_perm (List.Perm.refl o.entries) r.tables
  refine ⟨draft, hentry, ?_⟩
  show Change.outcome (EStateM.adaptExcept _ (replace (.putAll o.entries))) r = _
  rw [Change.outcome_adaptExcept, outcome_replace, hrun]

/-! ### Updates one after the other -/

/-- The operations that were carried out when all were tried in order. -/
def carriedOut (r : Registry Float) : List Operation → List Operation
  | [] => []
  | op :: ops =>
    match r.apply op with
    | .ok next => op :: next.carriedOut ops
    | .error _ => r.carriedOut ops

/-- One update for each entry. -/
def updates (entries : List (Slot × Entry Float)) : List Operation :=
  entries.map fun x => .update x.1 x.2

/-- Updates with sound entries are all carried out, and together they do to the tables what putting
the entries does to a copy. -/
theorem run_updates {r : Registry Float} (hr : r.tables.check = .ok ())
    {entries : List (Slot × Entry Float)}
    (hkind : ∀ x ∈ entries, x.2.kind = x.1.expected)
    (hcheck : ∀ x ∈ entries, x.2.check x.1.path = .ok ()) :
    r.carriedOut (updates entries) = updates entries
      ∧ (Edit.putAll entries).run r.tables = .ok () (r.run (updates entries)).tables := by
  induction entries generalizing r with
  | nil => exact ⟨rfl, rfl⟩
  | cons x entries ih =>
    obtain ⟨slot, e⟩ := x
    have hke : e.kind = slot.expected := hkind (slot, e) (List.mem_cons_self ..)
    have hce : e.check slot.path = .ok () := hcheck (slot, e) (List.mem_cons_self ..)
    obtain ⟨draft, hput⟩ := r.tables.put_of_kind_eq hke
    obtain ⟨next, hok⟩ : ∃ next, r.apply (.update slot e) = .ok next := by
      rw [(r.writes_update hke).ok_iff hr]
      exact check_of_written_update hce
    have hnext : next.tables = draft := by
      apply Tables.ext_entry
      intro k
      rw [(r.writes_update hke).entry hok k, Tables.entry_put hput k]
      by_cases hk : k = slot <;> simp [hk]
    have hsound : next.tables.check = .ok () := (atomic_perform _).sound hok
    obtain ⟨hall, hputAll⟩ := ih hsound (fun x hx => hkind x (List.mem_cons_of_mem _ hx))
      (fun x hx => hcheck x (List.mem_cons_of_mem _ hx))
    have hrun : r.run (updates ((slot, e) :: entries)) = next.run (updates entries) := by
      show (updates entries).foldl after (r.after (.update slot e)) = _
      rw [after_of_ok hok]
      rfl
    refine ⟨?_, ?_⟩
    · show r.carriedOut (.update slot e :: updates entries) = _
      simp only [carriedOut, hok, hall]
      rfl
    · rw [hrun]
      show (Edit.putAll ((slot, e) :: entries)) r.tables = _
      simp only [Edit.putAll, Edit.put, bind, EStateM.bind, hput]
      rw [← hnext]
      exact hputAll

/-! ### The last entry written -/

namespace Operation

/-- The entry that an operation writes to a slot. Going back to the built-in tables counts apart. -/
def written : Operation → Slot → Option (Entry Float)
  | .update slot e, k => if k = slot then some e else none
  | .override o, k => o.find? k
  | .load s, k => (Overrides.ofDocument s).toOption.bind (·.find? k)
  | .loadFile contents, k =>
    contents.bind fun s => (Overrides.ofDocument s).toOption.bind (·.find? k)
  | .reset, _ => none

/-- Whether an operation goes back to the built-in tables. -/
def isReset : Operation → Bool
  | .reset => true
  | _ => false

end Operation

/-- The operations since the last return to the built-in tables, latest first. -/
def sinceReset (done : List Operation) : List Operation :=
  done.reverse.takeWhile fun op => !op.isReset

/-- The tables before those operations: the built-in ones, or those at the start. -/
def baseTables (start : Tables Float) (done : List Operation) : Tables Float :=
  if done.any Operation.isReset then .builtin else start

/-- What a slot holds after operations that were carried out. -/
def lastWritten (start : Tables Float) (done : List Operation) (k : Slot) : Entry Float :=
  ((sinceReset done).findSome? fun op => op.written k).getD ((baseTables start done).entry k)

theorem lastWritten_append (start : Tables Float) (done : List Operation) (op : Operation)
    (k : Slot) :
    lastWritten start (done ++ [op]) k = if op.isReset then Tables.builtin.entry k
      else (op.written k).getD (lastWritten start done k) := by
  cases hreset : op.isReset with
  | true => simp [lastWritten, sinceReset, baseTables, hreset]
  | false =>
    cases hk : op.written k with
    | none => simp [lastWritten, sinceReset, baseTables, hreset, hk]
    | some e => simp [lastWritten, sinceReset, baseTables, hreset, hk]

/-- One step: an operation that is carried out writes its entries and leaves the others. -/
theorem entry_of_apply_ok {r next : Registry Float} {op : Operation} (h : r.apply op = .ok next)
    (k : Slot) :
    next.tables.entry k = if op.isReset then Tables.builtin.entry k
      else (op.written k).getD (r.tables.entry k) := by
  have hload : ∀ s, r.apply (.load s) = .ok next →
      next.tables.entry k = ((Operation.load s).written k).getD (r.tables.entry k) := by
    intro s hs
    show _ = ((Overrides.ofDocument s).toOption.bind (·.find? k)).getD _
    change Change.outcome (load s) r = .ok next at hs
    unfold load at hs
    cases hd : Overrides.ofDocument s with
    | error fault =>
      rw [hd] at hs
      cases hs
    | ok o =>
      rw [hd] at hs
      exact (r.writes_override o).entry hs k
  cases op with
  | update slot e =>
    by_cases hkind : e.kind = slot.expected
    · exact (r.writes_update hkind).entry h k
    · rw [apply_update_of_kind_ne r hkind] at h
      cases h
  | override o => exact (r.writes_override o).entry h k
  | load s => exact hload s h
  | loadFile contents =>
    cases contents with
    | none => cases h
    | some s => exact hload s h
  | reset =>
    change Change.outcome (EStateM.adaptExcept Error.invalidConfig (replace .reset)) r = _ at h
    rw [Change.outcome_adaptExcept, outcome_replace] at h
    change (ofTables Tables.builtin).mapError Error.invalidConfig = _ at h
    rw [ofTables, check_builtin] at h
    obtain rfl : (⟨Tables.builtin⟩ : Registry Float) = next := Except.ok.inj h
    rfl

/-- Along a run, what has been carried out so far decides what a slot holds. -/
theorem entry_run_append (start : Tables Float) (done : List Operation) {r : Registry Float}
    (h : ∀ k, r.tables.entry k = lastWritten start done k) (ops : List Operation) (k : Slot) :
    (r.run ops).tables.entry k = lastWritten start (done ++ r.carriedOut ops) k := by
  induction ops generalizing r done with
  | nil =>
    simp only [carriedOut, List.append_nil]
    exact h k
  | cons op ops ih =>
    show ((r.after op).run ops).tables.entry k = _
    cases hop : r.apply op with
    | error fault =>
      rw [after_of_error hop]
      simp only [carriedOut, hop]
      exact ih done h
    | ok next =>
      rw [after_of_ok hop]
      have hstep : ∀ k, next.tables.entry k = lastWritten start (done ++ [op]) k := by
        intro k
        rw [entry_of_apply_ok hop k, lastWritten_append, h k]
      simp only [carriedOut, hop]
      rw [ih (done ++ [op]) hstep, List.append_assoc]
      rfl

theorem entry_run (r : Registry Float) (ops : List Operation) (k : Slot) :
    (r.run ops).tables.entry k = lastWritten r.tables (r.carriedOut ops) k :=
  entry_run_append r.tables [] (fun _ => rfl) ops k

/-! ### The store -/

/-- A registry that checks what is written to it entry by entry. -/
structure ChecksLocally (r : Registry Float) : Prop where
  update_ok_iff : ∀ slot e,
    (∃ next, r.apply (.update slot e) = .ok next)
      ↔ e.kind = slot.expected ∧ e.check slot.path = .ok ()
  update_wrong_kind : ∀ slot e, e.kind ≠ slot.expected →
    r.apply (.update slot e)
      = .error (.invalidConfig (.wrongEntry slot.path slot.expected.name e.kind.name))
  update_fault : ∀ slot e fault, e.kind = slot.expected → e.check slot.path = .error fault →
    r.apply (.update slot e) = .error (.invalidConfig fault)
  update_entry : ∀ slot e next, r.apply (.update slot e) = .ok next →
    ∀ k, next.tables.entry k = if k = slot then e else r.tables.entry k
  override_ok_iff : ∀ o,
    (∃ next, r.apply (.override o) = .ok next)
      ↔ ∀ slot e, o.find? slot = some e → e.check slot.path = .ok ()
  override_eq_updates : ∀ o next, r.apply (.override o) = .ok next →
    ∀ entries, entries.Perm o.entries →
      r.carriedOut (updates entries) = updates entries ∧ r.run (updates entries) = next
  override_fault : ∀ o slot e fault, o.find? slot = some e → e.check slot.path = .error fault →
    (∀ k e', Slot.all.idxOf k < Slot.all.idxOf slot → o.find? k = some e' →
      e'.check k.path = .ok ()) →
    r.apply (.override o) = .error (.invalidConfig fault)

theorem override_eq_updates_of_sound {r next : Registry Float} (hr : r.tables.check = .ok ())
    {o : Overrides Float} (hok : r.apply (.override o) = .ok next)
    {entries : List (Slot × Entry Float)} (hperm : entries.Perm o.entries) :
    r.carriedOut (updates entries) = updates entries ∧ r.run (updates entries) = next := by
  have hfind : ∀ x ∈ entries, o.find? x.1 = some x.2 := fun x hx =>
    Overrides.mem_entries.mp (hperm.mem_iff.mp hx)
  have hcheck := ((r.writes_override o).ok_iff hr).mp ⟨next, hok⟩
  obtain ⟨hall, hputAll⟩ := run_updates hr
    (fun x hx => Overrides.kind_of_find? (hfind x hx)) (fun x hx => hcheck x.1 x.2 (hfind x hx))
  obtain ⟨draft, hrun, hentry⟩ := Edit.run_putAll_of_perm hperm r.tables
  have hdraft : (r.run (updates entries)).tables = draft := by
    rw [hrun] at hputAll
    injection hputAll with _ h
    exact h.symm
  refine ⟨hall, ?_⟩
  have htables : (r.run (updates entries)).tables = next.tables := by
    apply Tables.ext_entry
    intro k
    rw [hdraft, hentry k, (r.writes_override o).entry hok k]
  exact congrArg Registry.mk htables

theorem checksLocally_of_sound {r : Registry Float} (hr : r.tables.check = .ok ()) :
    r.ChecksLocally where
  update_ok_iff slot e := by
    by_cases hkind : e.kind = slot.expected
    · rw [(r.writes_update hkind).ok_iff hr]
      constructor
      · intro h
        exact ⟨hkind, h slot e (by simp)⟩
      · intro h
        exact check_of_written_update h.2
    · rw [apply_update_of_kind_ne r hkind]
      constructor
      · rintro ⟨next, h⟩
        cases h
      · intro h
        exact absurd h.1 hkind
  update_wrong_kind slot e hkind := apply_update_of_kind_ne r hkind
  update_fault slot e fault hkind hbad := by
    apply (r.writes_update hkind).error hr (by simp) hbad
    intro k e' hlt hk
    split at hk
    · next heq =>
      rw [heq] at hlt
      omega
    · cases hk
  update_entry slot e next hok k := by
    have h := entry_of_apply_ok hok k
    by_cases hk : k = slot <;> simpa [Operation.isReset, Operation.written, hk] using h
  override_ok_iff o := (r.writes_override o).ok_iff hr
  override_eq_updates o next hok entries hperm := override_eq_updates_of_sound hr hok hperm
  override_fault o slot e fault hslot hbad hfirst :=
    (r.writes_override o).error hr hslot hbad hfirst

/-- A registry refines a store of entries: at every moment of a run writing is checked entry by
entry, and each slot holds the last entry written to it since the built-in tables were last put in
force, or else the built-in entry, or what the registry was made with. -/
theorem run_checksLocally_and_entry {r : Registry Float} (h : Initial r) (ops : List Operation) :
    (r.run ops).ChecksLocally
      ∧ ∀ k, (r.run ops).tables.entry k
        = ((sinceReset (r.carriedOut ops)).findSome? fun op => op.written k).getD
          ((baseTables r.tables (r.carriedOut ops)).entry k) :=
  ⟨checksLocally_of_sound (check_run h.check ops), entry_run r ops⟩

end Reader

/-- One entry is written after a return to the built-in tables, and an override is refused. -/
def mixedRun : List Operation :=
  [.reset, .update (.context .general) (.multipliers ⟨.all 2.0, 2.0⟩), .override halfSound]

theorem mixedRun_checksLocally_and_entry :
    (standard.run mixedRun).ChecksLocally
      ∧ (standard.run mixedRun).tables.entry (.context .general)
        = .multipliers ⟨.all 2.0, 2.0⟩
      ∧ (standard.run mixedRun).tables.entry (.context .monitoring)
        = Tables.builtin.entry (.context .monitoring) := by
  obtain ⟨hlocal, hentry⟩ := run_checksLocally_and_entry .standard mixedRun
  refine ⟨hlocal, (hentry _).trans ?_, (hentry _).trans ?_⟩
  · rfl
  · rfl

end Registry

end BinGrade
