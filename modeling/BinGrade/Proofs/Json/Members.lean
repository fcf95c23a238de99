import BinGrade.Proofs.Json.Carried

/-!
# Members in any order

Which fields an object has does not depend on the order of its members, nor on members that belong to
no field: those are passed over, and passing over a well-formed value never fails. What is read meets
the conditions of the forms that read it.
-/

namespace BinGrade.Json

variable {β γ σ τ : Type}

/-! ### Values passed over -/

theorem skipItems_eq_ok {ts : List Tree} (h : ∀ t ∈ ts, t.skip = .ok ()) :
    Tree.skipItems ts = .ok () := by
  induction ts with
  | nil => rfl
  | cons t ts ih =>
    obtain ⟨ht, hts⟩ := List.forall_mem_cons.mp h
    rw [Tree.skipItems, ht]
    exact ih hts

theorem skipMembers_eq_ok_iff {ms : List (Label × Tree)} :
    Tree.skipMembers ms = .ok () ↔ ∀ m ∈ ms, m.2.skip = .ok () := by
  induction ms with
  | nil => simp [Tree.skipMembers]
  | cons m ms ih =>
    rw [List.forall_mem_cons, ← ih, Tree.skipMembers]
    cases m.2.skip with
    | error fault => simp [bind, Except.bind]
    | ok _ => simp [bind, Except.bind]

theorem Quoted.skip_tree (q : Quoted) : q.tree.skip = .ok () := by
  unfold tree
  split
  · rfl
  · rfl

theorem Tree.SpelledAs.skip {t : Tree} {cs : List Char} (h : t.SpelledAs cs) : t.skip = .ok () := by
  induction h with
  | null => rfl
  | bool b => rfl
  | number h => rfl
  | string q => exact q.skip_tree
  | emptyArray bs => rfl
  | array hne h ih =>
    rw [Tree.skip, skipItems_eq_ok (List.forall_mem_map.mpr ih)]
    rfl
  | emptyObject bs => rfl
  | object hne h ih =>
    rw [Tree.skip, skipMembers_eq_ok_iff.mpr (List.forall_mem_map.mpr ih)]
    rfl

theorem Tree.IsDocument.skip_members {ms : List (String × Tree)} {s : String}
    (h : (Tree.record ms).IsDocument s) : ∀ m ∈ ms, m.2.skip = .ok () := by
  obtain ⟨p, _, hspelled, _⟩ := h
  have hskip := hspelled.skip
  rw [Tree.record, Tree.skip] at hskip
  obtain ⟨_, hmembers, _⟩ := exists_of_bind_eq_ok hskip
  exact List.forall_mem_map.mp (skipMembers_eq_ok_iff.mp hmembers)

/-! ### Fields in any order -/

namespace Record

/-- In whatever order some members stand, the fields are read from them. -/
def Takes (r : Record σ τ) (ms : List (String × Tree)) (v : τ) : Prop :=
  ∀ arranged : List (String × Tree), arranged.Perm ms →
    ∃ slots, r.readMembers false (arranged.map Tree.member) r.empty = .ok slots
      ∧ r.finish slots = .ok v

theorem Takes.read [NumberReader] {r : Record σ τ} {ms : List (String × Tree)} {v : τ}
    (h : r.Takes ms v) : r.lenient.read (.record ms) = .ok v := by
  obtain ⟨slots, hread, hfinish⟩ := h ms (List.Perm.refl ms)
  change (r.readMembers false (ms.map Tree.member) r.empty >>= _) = _
  rw [hread]
  exact hfinish

theorem takes_nil {ms : List (String × Tree)} (h : ∀ m ∈ ms, m.2.skip = .ok ()) :
    nil.Takes ms () := by
  intro arranged hperm
  have hskip : ∀ m ∈ arranged, m.2.skip = .ok () := fun m hm => h m (hperm.mem_iff.mp hm)
  refine ⟨(), ?_, rfl⟩
  clear hperm
  induction arranged with
  | nil => rfl
  | cons m arranged ih =>
    obtain ⟨hm, hmore⟩ := List.forall_mem_cons.mp hskip
    rw [List.map_cons, Tree.member, readMembers]
    simp only [nil, hm]
    exact ih hmore

section Cons

variable {name : String} {f : Form β} {absent shortRow : Option β} {r : Record σ τ} {t : Tree} {b : β}

/-- The one member with the name of a field may stand anywhere. -/
theorem readMembers_insert (hread : f.read t = .ok b) {before after : List (String × Tree)}
    (hname : ∀ m ∈ before ++ after, m.1 ≠ name) {slots next : σ}
    (hmore : r.readMembers false ((before ++ after).map Tree.member) slots = .ok next) :
    (r.cons name f absent shortRow).readMembers false
      ((before ++ (name, t) :: after).map Tree.member) (none, slots) = .ok (some b, next) := by
  induction before generalizing slots with
  | nil =>
    have hfirst : (r.cons name f absent shortRow).fill name t (none, slots)
        = some (.ok (some b, slots)) := by
      simp only [cons, if_true, hread]
      rfl
    rw [List.nil_append, List.map_cons, Tree.member, readMembers]
    simp only [hfirst]
    change (r.cons name f absent shortRow).readMembers false (after.map Tree.member) (some b, slots) = _
    rw [List.nil_append] at hname hmore
    rw [readMembers_cons false (fun m hm => ⟨hname m hm, fun h => by cases h⟩), hmore]
    rfl
  | cons m before ih =>
    obtain ⟨hm, hothers⟩ := List.forall_mem_cons.mp hname
    rw [List.cons_append, List.map_cons, Tree.member, readMembers] at hmore ⊢
    rw [fill_cons_of_ne hm]
    cases hfilled : r.fill m.1 m.2 slots with
    | some filled =>
      rw [hfilled] at hmore
      cases filled with
      | error fault => cases hmore
      | ok slots => exact ih hothers hmore
    | none =>
      rw [hfilled] at hmore
      cases hskip : m.2.skip with
      | error fault =>
        rw [hskip] at hmore
        cases hmore
      | ok _ =>
        rw [hskip] at hmore
        exact ih hothers hmore

theorem takes_field (hread : f.read t = .ok b) {ms : List (String × Tree)} {v : τ}
    (hname : ∀ m ∈ ms, m.1 ≠ name) (h : r.Takes ms v) :
    (field name f r).Takes ((name, t) :: ms) (b, v) := by
  intro arranged hperm
  -- without the member of this name, an arrangement of the others is left
  obtain ⟨before, after, rfl⟩ := List.append_of_mem (hperm.mem_iff.mpr List.mem_cons_self)
  have hothers : (before ++ after).Perm ms := (List.perm_middle.symm.trans hperm).cons_inv
  obtain ⟨slots, hslots, hfinish⟩ := h _ hothers
  refine ⟨(some b, slots), ?_, ?_⟩
  · exact readMembers_insert hread (fun m hm => hname m (hothers.mem_iff.mp hm)) hslots
  · simp only [field, cons, hfinish]
    rfl

end Cons

end Record

/-! ### What is read -/

theorem mapM_eq_ok_iff {ε : Type} {f : β → Except ε γ} {bs : List β} {cs : List γ} :
    bs.mapM f = .ok cs ↔ List.Forall₂ (fun b c => f b = .ok c) bs cs := by
  constructor
  · intro h
    induction bs generalizing cs with
    | nil =>
      cases h
      exact .nil
    | cons b bs ih =>
      rw [List.mapM_cons] at h
      obtain ⟨c, hc, h⟩ := exists_of_bind_eq_ok h
      obtain ⟨ds, hds, hpure⟩ := exists_of_bind_eq_ok h
      cases hpure
      exact .cons hc (ih hds)
  · intro h
    induction h with
    | nil => rfl
    | cons hb _ ih =>
      rw [List.mapM_cons, hb, ih]
      rfl

namespace Form

/-- Whatever a form reads meets a condition. -/
def Yields (f : Form β) (P : β → Prop) : Prop := ∀ t b, f.read t = .ok b → P b

theorem yields_count [NumberReader] : count.Yields (· ≤ Numeral.maxCount) := by
  intro t n h
  cases t with
  | number literal =>
    simp only [count] at h
    split at h
    · next hcount =>
      cases h
      unfold Numeral.toCount at hcount
      dsimp only at hcount
      split_ifs at hcount with hwhole hnegative hsmall hle
      cases hcount
      exact hle
    · cases h
    · cases h
  | _ => cases h

theorem yields_via {f : Form γ} {R : γ → Prop} {P : β → Prop} {make : γ → β} {back : β → γ}
    (hf : f.Yields R) (hmake : ∀ c, R c → P (make c)) : (f.via make back).Yields P := by
  intro t b h
  change make <$> f.read t = .ok b at h
  cases hread : f.read t with
  | error fault =>
    rw [hread] at h
    cases h
  | ok c =>
    rw [hread] at h
    cases h
    exact hmake c (hf t c hread)

theorem yields_list [NumberReader] {f : Form β} {P : β → Prop} (hf : f.Yields P) :
    f.list.Yields fun bs => ∀ b ∈ bs, P b := by
  intro t bs h
  cases t with
  | array items ending =>
    obtain ⟨cs, hread, hrest⟩ := exists_of_bind_eq_ok h
    obtain ⟨_, _, hpure⟩ := exists_of_bind_eq_ok hrest
    cases hpure
    have hitems := mapM_eq_ok_iff.mp hread
    clear h hread hrest
    induction hitems with
    | nil => simp
    | cons hitem _ ih => exact List.forall_mem_cons.mpr ⟨hf _ _ hitem, ih⟩
  | _ => cases h

end Form

namespace Record

/-- Conditions on what has been read so far and on the values of all fields. -/
structure Yields (r : Record σ τ) (S : σ → Prop) (Q : τ → Prop) : Prop where
  empty : S r.empty
  fill : ∀ {key t slots next}, S slots → r.fill key t slots = some (.ok next) → S next
  finish : ∀ {slots v}, S slots → r.finish slots = .ok v → Q v
  row : ∀ {items ending v rest}, r.row items ending = .ok (v, rest) → Q v

variable {S : σ → Prop} {Q : τ → Prop} {r : Record σ τ}

theorem yields_nil : nil.Yields (fun _ => True) fun _ => True :=
  ⟨trivial, fun _ _ => trivial, fun _ _ => trivial, fun _ => trivial⟩

theorem yields_field {name : String} {f : Form β} {P : β → Prop} (hf : f.Yields P)
    (hr : r.Yields S Q) :
    (field name f r).Yields (fun s => (∀ b, s.1 = some b → P b) ∧ S s.2) fun v => P v.1 ∧ Q v.2 where
  empty := ⟨nofun, hr.empty⟩
  fill := by
    rintro key t ⟨slot, slots⟩ ⟨next, nexts⟩ ⟨hslot, hslots⟩ h
    by_cases hkey : key = name
    · simp only [field, cons, if_pos hkey, Option.some.injEq] at h
      cases slot with
      | some b => cases h
      | none =>
        obtain ⟨b, hb, hpure⟩ := exists_of_bind_eq_ok h
        cases hpure
        exact ⟨fun c hc => Option.some.inj hc ▸ hf t b hb, hslots⟩
    · rw [field, fill_cons_of_ne hkey] at h
      obtain ⟨filled, hfilled, hmap⟩ := Option.map_eq_some_iff.mp h
      cases filled with
      | error fault => cases hmap
      | ok s =>
        cases hmap
        exact ⟨hslot, hr.fill hslots hfilled⟩
  finish := by
    rintro ⟨slot, slots⟩ ⟨b, v⟩ ⟨hslot, hslots⟩ h
    cases slot with
    | none => cases h
    | some c =>
      change (r.finish slots >>= fun w => pure (c, w)) = .ok (b, v) at h
      obtain ⟨w, hw, hpure⟩ := exists_of_bind_eq_ok h
      cases hpure
      exact ⟨hslot b rfl, hr.finish hslots hw⟩
  row := by
    rintro items ending ⟨b, v⟩ rest h
    cases items with
    | nil =>
      obtain ⟨_, _, hshort⟩ := exists_of_bind_eq_ok h
      cases hshort
    | cons item items =>
      obtain ⟨c, hc, h⟩ := exists_of_bind_eq_ok h
      obtain ⟨⟨w, left⟩, hw, hpure⟩ := exists_of_bind_eq_ok h
      cases hpure
      exact ⟨hf item b hc, hr.row hw⟩

theorem Yields.readMembers (hr : r.Yields S Q) {refusing : Bool} {ms : List (Label × Tree)}
    {slots next : σ} (hslots : S slots) (h : r.readMembers refusing ms slots = .ok next) : S next := by
  induction ms generalizing slots with
  | nil =>
    cases h
    exact hslots
  | cons m ms ih =>
    obtain ⟨label, t⟩ := m
    cases label with
    | unpaired => cases h
    | named name =>
      rw [Record.readMembers] at h
      cases hfilled : r.fill name t slots with
      | some filled =>
        rw [hfilled] at h
        obtain ⟨s, hs, h⟩ := exists_of_bind_eq_ok h
        cases hs
        exact ih (hr.fill hslots hfilled) h
      | none =>
        rw [hfilled] at h
        cases refusing with
        | true => cases h
        | false =>
          obtain ⟨_, _, h⟩ := exists_of_bind_eq_ok h
          exact ih hslots h

theorem Yields.read [NumberReader] (hr : r.Yields S Q) {refusing : Bool} {t : Tree} {v : τ}
    (h : r.read refusing t = .ok v) : Q v := by
  cases t with
  | object members ending =>
    obtain ⟨slots, hslots, h⟩ := exists_of_bind_eq_ok h
    obtain ⟨_, _, hfinish⟩ := exists_of_bind_eq_ok h
    exact hr.finish (hr.readMembers hr.empty hslots) hfinish
  | array items ending =>
    obtain ⟨⟨w, rest⟩, hrow, h⟩ := exists_of_bind_eq_ok h
    obtain ⟨_, _, hpure⟩ := exists_of_bind_eq_ok h
    cases hpure
    exact hr.row hrow
  | _ => cases h

theorem yields_lenient [NumberReader] (hr : r.Yields S Q) : r.lenient.Yields Q :=
  fun _ _ h => hr.read h

theorem yields_strict [NumberReader] (hr : r.Yields S Q) : r.strict.Yields Q :=
  fun _ _ h => hr.read h

end Record

end BinGrade.Json
