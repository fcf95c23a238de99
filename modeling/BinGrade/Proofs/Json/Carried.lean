import BinGrade.Proofs.Json.Form

/-!
# What documents carry

Not every value comes back from its document: what is not finite is written as null, and counts have
a greatest value. A form carries the values that meet a condition if every value is written without
flaws, those that meet it are read as they were, and all others are refused. The condition of a
compound form is that of its parts, taken together.
-/

namespace BinGrade

/-! ### Settled outcomes -/

/-- An outcome is a given value where a condition holds, and a fault where it does not. -/
structure Settles {ε β : Type} (outcome : Except ε β) (b : β) (p : Prop) : Prop where
  ok : p → outcome = .ok b
  refused : ¬p → ∃ fault, outcome = .error fault

namespace Settles

variable {ε β γ : Type} {outcome : Except ε β} {b : β} {p q : Prop}

theorem pure (b : β) : Settles (.ok b : Except ε β) b True :=
  ⟨fun _ => rfl, fun h => absurd trivial h⟩

theorem congr (h : Settles outcome b p) (hpq : p ↔ q) : Settles outcome b q :=
  ⟨fun hq => h.ok (hpq.mpr hq), fun hq => h.refused fun hp => hq (hpq.mp hp)⟩

theorem bind {next : β → Except ε γ} {c : γ} (h : Settles outcome b p)
    (hnext : Settles (next b) c q) : Settles (outcome >>= next) c (p ∧ q) := by
  by_cases hp : p
  · rw [h.ok hp]
    exact hnext.congr (by simp [hp])
  · obtain ⟨fault, hfault⟩ := h.refused hp
    rw [hfault]
    exact ⟨fun hpq => absurd hpq.1 hp, fun _ => ⟨fault, rfl⟩⟩

theorem map (f : β → γ) (h : Settles outcome b p) : Settles (f <$> outcome) (f b) p := by
  refine ⟨?_, ?_⟩
  · intro hp
    rw [h.ok hp]
    rfl
  · intro hp
    obtain ⟨fault, hfault⟩ := h.refused hp
    rw [hfault]
    exact ⟨fault, rfl⟩

theorem mapError {ε' : Type} (f : ε → ε') (h : Settles outcome b p) :
    Settles (outcome.mapError f) b p := by
  refine ⟨?_, ?_⟩
  · intro hp
    rw [h.ok hp]
    rfl
  · intro hp
    obtain ⟨fault, hfault⟩ := h.refused hp
    rw [hfault]
    exact ⟨f fault, rfl⟩

end Settles

namespace Json

open NumberReader (ReadsBack)

variable {β γ σ τ : Type} {P : β → Prop} {Q : τ → Prop}

/-! ### Leaves -/

namespace Form

/-- The values that a form carries through its documents. -/
structure Carries (f : Form β) (P : β → Prop) : Prop where
  written : ∀ b, (f.write b).Written
  settles : ∀ b, Settles (f.read (f.write b)) b (P b)

theorem Carries.congr {f : Form β} {R : β → Prop} (h : f.Carries P) (hPR : ∀ b, P b ↔ R b) :
    f.Carries R :=
  ⟨h.written, fun b => (h.settles b).congr (hPR b)⟩

theorem Carries.parse_print {f : Form β} (h : f.Carries P) (b : β) :
    Settles (f.parse (f.print b)) b (P b) := by
  rw [Form.parse_print (h.written b)]
  exact h.settles b

theorem carries_via {f : Form γ} {R : γ → Prop} {make : γ → β} {back : β → γ} (h : f.Carries R)
    (hmake : ∀ b, make (back b) = b) : (f.via make back).Carries fun b => R (back b) := by
  refine ⟨fun b => h.written (back b), ?_⟩
  intro b
  have hread := (h.settles (back b)).map make
  rw [hmake b] at hread
  exact hread

theorem carries_number [NumberReader] [ReadsBack] : number.Carries fun x => x.isFinite = true := by
  refine ⟨written_number, ?_⟩
  intro x
  refine ⟨fun h => read_write_number_iff.mpr (ReadsBack.keeps h), ?_⟩
  intro h
  rw [write_number_of_not_isFinite h]
  exact ⟨_, rfl⟩

theorem carries_checked {f : Form γ} {R : γ → Prop} {check : γ → Except String β} {back : β → γ}
    (h : f.Carries R) (hcheck : ∀ b b', check (back b) = .ok b' → b' = b) :
    (f.checked check back).Carries fun b => R (back b) ∧ check (back b) = .ok b := by
  refine ⟨fun b => h.written (back b), ?_⟩
  intro b
  refine (h.settles (back b)).bind ?_
  cases hb : check (back b) with
  | ok b' =>
    obtain rfl := hcheck b b' hb
    exact (Settles.pure b').congr (by simp)
  | error reason => exact ⟨nofun, fun _ => ⟨_, rfl⟩⟩

end Form

namespace Numeral

/-- A count is written as its digits. -/
def countLiteral (n : ℕ) : Literal where
  negative := false
  whole := Decimal.digitsOf n
  fraction := []
  exponent := none
  whole_ne_nil := Nat.toDigits_ne_nil
  isDigit_whole _ := isDigit_of_mem_digitsOf
  whole_ne_zero d ds := by
    rcases Nat.eq_zero_or_pos n with rfl | hpos
    · intro h
      cases h
    · exact head_digitsOf hpos (d :: ds)
  isDigit_fraction := by simp
  isDigit_exponent := isDigit_none

theorem text_countLiteral (n : ℕ) : (countLiteral n).text = Decimal.digitsOf n := by
  simp [Literal.text, Literal.body, countLiteral, fractionText, Exponent.text]

theorem toCount_digitsOf (n : ℕ) :
    toCount (Decimal.digitsOf n) = if n ≤ maxCount then .count n else .other := by
  have hparts := parts_text (countLiteral n)
  rw [text_countLiteral] at hparts
  have hvalue : valueOf ((countLiteral n).whole ++ (countLiteral n).fraction) = n := by
    simp [countLiteral, valueOf_digitsOf]
  unfold toCount
  rw [hparts, hvalue]
  rfl

end Numeral

namespace Form

theorem carries_count [NumberReader] : count.Carries fun n => n ≤ Numeral.maxCount := by
  refine ⟨?_, ?_⟩
  · intro n
    change (Tree.number (Decimal.digitsOf n)).Written
    rw [← Numeral.text_countLiteral]
    exact .number (Numeral.countLiteral n)
  · intro n
    by_cases h : n ≤ Numeral.maxCount
    · simp only [count, Numeral.toCount_digitsOf, if_pos h]
      exact (Settles.pure n).congr (by simp [h])
    · simp only [count, Numeral.toCount_digitsOf, if_neg h]
      exact ⟨fun hn => absurd hn h, fun _ => ⟨_, rfl⟩⟩

theorem carries_text [NumberReader] : text.Carries fun _ => True :=
  ⟨fun s => .text s, fun s => .pure s⟩

theorem settles_mapM {f : Form β} (hf : f.Carries P) (bs : List β) :
    Settles ((bs.map f.write).mapM f.read) bs (∀ b ∈ bs, P b) := by
  induction bs with
  | nil => exact (Settles.pure []).congr (by simp)
  | cons b bs ih =>
    rw [List.map_cons, List.mapM_cons]
    exact ((hf.settles b).bind (ih.map (b :: ·))).congr (by simp)

theorem carries_list [NumberReader] {f : Form β} (hf : f.Carries P) :
    f.list.Carries fun bs => ∀ b ∈ bs, P b where
  written bs := by
    refine .array ?_
    intro t ht
    obtain ⟨b, _, rfl⟩ := List.mem_map.mp ht
    exact hf.written b
  settles bs := ((settles_mapM hf bs).bind (Settles.pure bs)).congr (by simp)

end Form

/-! ### Records -/

namespace Record

/-- The fields of a record read from the object that they are written as. -/
def reread (r : Record σ τ) (refusing : Bool) (v : τ) : Except Fault τ := do
  let slots ← r.readMembers refusing ((r.members v).map Tree.member) r.empty
  r.finish slots

/-- The fields that a record carries. Every field is written under its name, and members with these
names are known when they are read. -/
structure Carries (r : Record σ τ) (Q : τ → Prop) : Prop where
  names_eq : ∀ v, (r.members v).map Prod.fst = r.names
  known : ∀ name ∈ r.names, ∀ t slots, ∃ filled, r.fill name t slots = some filled
  written : ∀ v, ∀ m ∈ r.members v, m.2.Written
  settles : ∀ refusing v, Settles (r.reread refusing v) v (Q v)

@[simp] theorem names_nil : nil.names = [] := rfl

@[simp] theorem names_field (name : String) (f : Form β) (r : Record σ τ) :
    (field name f r).names = name :: r.names := rfl

@[simp] theorem names_defaulted (name : String) (f : Form β) (value : β) (r : Record σ τ) :
    (defaulted name f value r).names = name :: r.names := rfl

theorem carries_nil : nil.Carries fun _ => True where
  names_eq _ := rfl
  known _ h := by cases h
  written _ _ h := by cases h
  settles _ _ := Settles.pure ()

section Cons

variable {name : String} {f : Form β} {absent shortRow : Option β} {r : Record σ τ}

theorem fill_cons_of_ne {key : String} (h : key ≠ name) (t : Tree) (slot : Option β) (slots : σ) :
    (r.cons name f absent shortRow).fill key t (slot, slots)
      = (r.fill key t slots).map fun filled => (fun s => (slot, s)) <$> filled := by
  simp only [cons, if_neg h]

/-- Members with other names pass a field in front by. If names that no field has are refused, each
of them has to be known. -/
theorem readMembers_cons (refusing : Bool) {ms : List (String × Tree)}
    (hms : ∀ m ∈ ms, m.1 ≠ name ∧
      (refusing = true → ∀ t slots, ∃ filled, r.fill m.1 t slots = some filled))
    (slot : Option β) (slots : σ) :
    (r.cons name f absent shortRow).readMembers refusing (ms.map Tree.member) (slot, slots)
      = (fun s => (slot, s)) <$> r.readMembers refusing (ms.map Tree.member) slots := by
  induction ms generalizing slots with
  | nil => rfl
  | cons m ms ih =>
    obtain ⟨⟨hother, hknown⟩, hms⟩ := List.forall_mem_cons.mp hms
    simp only [List.map_cons, Tree.member, readMembers, fill_cons_of_ne hother]
    cases hfilled : r.fill m.1 m.2 slots with
    | some filled =>
      cases filled with
      | error fault => rfl
      | ok next => exact ih hms next
    | none =>
      cases refusing with
      | true =>
        obtain ⟨filled, hsome⟩ := hknown rfl m.2 slots
        rw [hfilled] at hsome
        cases hsome
      | false =>
        cases m.2.skip with
        | error fault => rfl
        | ok _ => exact ih hms slots

/-- The first field is read, then the others, and their values are put together. -/
theorem reread_cons (hname : name ∉ r.names) (hr : r.Carries Q) (refusing : Bool) (b : β) (v : τ) :
    (r.cons name f absent shortRow).reread refusing (b, v) = (do
      let b ← f.read (f.write b)
      let v ← r.reread refusing v
      pure (b, v)) := by
  have hothers : ∀ m ∈ r.members v,
      m.1 ≠ name ∧ (refusing = true → ∀ t slots, ∃ filled, r.fill m.1 t slots = some filled) := by
    intro m hm
    have hmem : m.1 ∈ r.names := by
      rw [← hr.names_eq v]
      exact List.mem_map_of_mem hm
    exact ⟨fun h => hname (h ▸ hmem), fun _ => hr.known m.1 hmem⟩
  have hfirst : (r.cons name f absent shortRow).fill name (f.write b) (none, r.empty)
      = some ((fun b => (some b, r.empty)) <$> f.read (f.write b)) := by
    simp only [cons, if_true]
    rfl
  unfold reread
  have hmembers : ((r.cons name f absent shortRow).members (b, v)).map Tree.member
      = (.named name, f.write b) :: (r.members v).map Tree.member := rfl
  have hempty : (r.cons name f absent shortRow).empty = (none, r.empty) := rfl
  rw [hmembers, hempty]
  simp only [readMembers, hfirst]
  cases f.read (f.write b) with
  | error fault => rfl
  | ok b =>
    change (_ >>= _) = _
    simp only [Functor.map, Except.map, bind, Except.bind, readMembers_cons refusing hothers]
    cases r.readMembers refusing ((r.members v).map Tree.member) r.empty with
    | error fault => rfl
    | ok slots =>
      simp only [cons]
      rfl

theorem carries_cons (hname : name ∉ r.names) (hf : f.Carries P) (hr : r.Carries Q) :
    (r.cons name f absent shortRow).Carries fun v => P v.1 ∧ Q v.2 where
  names_eq v := congrArg (name :: ·) (hr.names_eq v.2)
  known key hkey t slots := by
    by_cases h : key = name
    · exact ⟨_, if_pos h⟩
    · obtain ⟨filled, hfilled⟩ := hr.known key ((List.mem_cons.mp hkey).resolve_left h) t slots.2
      refine ⟨(fun s => (slots.1, s)) <$> filled, ?_⟩
      rw [fill_cons_of_ne h, hfilled, Option.map_some]
  written v := List.forall_mem_cons.mpr ⟨hf.written v.1, hr.written v.2⟩
  settles refusing v := by
    rw [reread_cons hname hr]
    refine (hf.settles v.1).bind ?_
    exact ((hr.settles refusing v.2).map _)

theorem carries_field (hname : name ∉ r.names) (hf : f.Carries P) (hr : r.Carries Q) :
    (field name f r).Carries fun v => P v.1 ∧ Q v.2 :=
  carries_cons hname hf hr

theorem carries_defaulted {value : β} (hname : name ∉ r.names) (hf : f.Carries P)
    (hr : r.Carries Q) : (defaulted name f value r).Carries fun v => P v.1 ∧ Q v.2 :=
  carries_cons hname hf hr

end Cons

theorem carries_strict [NumberReader] {r : Record σ τ} (h : r.Carries Q) : r.strict.Carries Q where
  written v := .object (h.written v)
  settles v := h.settles true v

theorem carries_lenient [NumberReader] {r : Record σ τ} (h : r.Carries Q) : r.lenient.Carries Q where
  written v := .object (h.written v)
  settles v := h.settles false v

/-- The fields that a record carries in a list of them, whatever follows. -/
structure CarriesRow (r : Record σ τ) (Q : τ → Prop) : Prop where
  written : ∀ v, ∀ m ∈ r.members v, m.2.Written
  settles : ∀ v rest ending,
    Settles (r.row ((r.members v).map (·.2) ++ rest) ending) (v, rest) (Q v)

theorem carriesRow_nil : nil.CarriesRow fun _ => True where
  written _ _ h := by cases h
  settles _ rest _ := Settles.pure ((), rest)

theorem carriesRow_field {name : String} {f : Form β} {r : Record σ τ} (hf : f.Carries P)
    (hr : r.CarriesRow Q) : (field name f r).CarriesRow fun v => P v.1 ∧ Q v.2 where
  written v := List.forall_mem_cons.mpr ⟨hf.written v.1, hr.written v.2⟩
  settles v rest ending := by
    have htrue : P v.1 ∧ Q v.2 ∧ True ↔ P v.1 ∧ Q v.2 := by simp
    refine Settles.congr ?_ htrue
    exact (hf.settles v.1).bind ((hr.settles v.2 rest ending).bind (Settles.pure (v, rest)))

theorem carries_tuple [NumberReader] {r : Record σ τ} (h : r.CarriesRow Q) : r.tuple.Carries Q where
  written v := written_tuple (h.written v)
  settles v := by
    have hrow := h.settles v [] .closed
    rw [List.append_nil] at hrow
    exact (hrow.bind (Settles.pure v)).congr (by simp)

end Record

/-! ### Tables -/

/-- Keys that are all listed and told apart by their names. -/
structure DistinctNames (κ : Type) [Key κ] : Prop where
  mem_all : ∀ k : κ, k ∈ (Key.all : List κ)
  ofName?_name : ∀ k : κ, Key.ofName? κ (Key.name k) = some k

namespace Form

variable {κ : Type} [Key κ] [DecidableEq κ] {f : Form β}

/-- The members of a table at given keys. -/
def tableMembers (f : Form β) (t : κ → Option β) (ks : List κ) : List (String × Tree) :=
  ks.filterMap fun k => (t k).map fun b => (Key.name k, f.write b)

theorem readTable_cons (hκ : DistinctNames κ) (k : κ) (b : β) (ms : List (Label × Tree))
    (table : κ → Option β) :
    readTable κ f ((.named (Key.name k), f.write b) :: ms) table = (do
      let b ← f.read (f.write b)
      readTable κ f ms fun j => if j = k then some b else table j) := by
  have hname : keyNamed κ (.named (Key.name k)) = .ok k := by
    simp only [keyNamed, hκ.ofName?_name]
  simp only [readTable, hname]
  rfl

/-- Along the keys, the table that is read takes over what was written at them. -/
theorem settles_readTable (hκ : DistinctNames κ) (hf : f.Carries P) (t : κ → Option β) (ks : List κ)
    (table : κ → Option β) :
    Settles (readTable κ f ((tableMembers f t ks).map Tree.member) table)
      (fun j => if j ∈ ks then (t j).or (table j) else table j)
      (∀ k ∈ ks, ∀ b, t k = some b → P b) := by
  induction ks generalizing table with
  | nil => exact (Settles.pure _).congr (by simp)
  | cons k ks ih =>
    cases hk : t k with
    | none =>
      have hmembers : tableMembers f t (k :: ks) = tableMembers f t ks := by
        simp [tableMembers, hk]
      have htable : (fun j => if j ∈ k :: ks then (t j).or (table j) else table j)
          = fun j => if j ∈ ks then (t j).or (table j) else table j := by
        funext j
        by_cases hj : j = k <;> simp [hj, hk]
      rw [hmembers, htable]
      exact (ih table).congr (by simp [hk])
    | some b =>
      have hmembers : tableMembers f t (k :: ks) = (Key.name k, f.write b) :: tableMembers f t ks := by
        simp [tableMembers, hk]
      have htable : (fun j => if j ∈ k :: ks then (t j).or (table j) else table j)
          = fun j => if j ∈ ks then (t j).or (if j = k then some b else table j)
            else if j = k then some b else table j := by
        funext j
        by_cases hj : j = k <;> simp [hj, hk]
      rw [hmembers, htable, List.map_cons, Tree.member, readTable_cons hκ]
      exact ((hf.settles b).bind (ih _)).congr (by simp [hk])

theorem carries_table [NumberReader] (hκ : DistinctNames κ) (hf : f.Carries P) :
    (table κ f).Carries fun t => ∀ k b, t k = some b → P b where
  written t := by
    refine .object ?_
    intro m hm
    obtain ⟨k, _, hk⟩ := List.mem_filterMap.mp hm
    obtain ⟨b, _, rfl⟩ := Option.map_eq_some_iff.mp hk
    exact hf.written b
  settles t := by
    have hread := settles_readTable hκ hf t Key.all fun _ => none
    have htable : (fun j => if j ∈ (Key.all : List κ) then (t j).or none else none) = t := by
      funext j
      simp [hκ.mem_all j]
    rw [htable] at hread
    exact (hread.bind (Settles.pure t)).congr (by simp [hκ.mem_all])

end Form

end Json

end BinGrade
