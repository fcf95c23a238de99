import BinGrade.Proofs.Scalar.Order

/-!
# Smallest and largest

Among numbers, the lowest and the highest of a list are members of it that bound all others, the lesser
of two is one of them that is above neither, and the greater one that is below neither.
-/

namespace BinGrade.Scalar

/-! ### Picking along a list -/

section Picking

variable {β : Type} {pick : β → β → β} {R : β → β → Prop} {P : β → Prop}

theorem foldl_pick_mem (hpick : ∀ a b, pick a b = a ∨ pick a b = b) (start : β) (xs : List β) :
    xs.foldl pick start ∈ start :: xs := by
  induction xs generalizing start with
  | nil => exact List.mem_singleton.mpr rfl
  | cons x xs ih =>
    have hmem := ih (pick start x)
    rw [List.foldl_cons]
    rcases hpick start x with h | h
    · rw [h] at hmem ⊢
      rcases List.mem_cons.mp hmem with heq | htail
      · rw [heq]
        exact List.mem_cons_self
      · exact List.mem_cons_of_mem start (List.mem_cons_of_mem x htail)
    · rw [h] at hmem ⊢
      exact List.mem_cons_of_mem start hmem

/-- If each pick is in relation to both that it is picked from, the last one is to all. -/
theorem foldl_pick_rel (hpick : ∀ a b, pick a b = a ∨ pick a b = b)
    (hrefl : ∀ a, P a → R a a) (htrans : ∀ {a b c}, R a b → R b c → R a c)
    (hrel : ∀ a b, P a → P b → R (pick a b) a ∧ R (pick a b) b) {start : β} {xs : List β}
    (hxs : ∀ x ∈ start :: xs, P x) : ∀ x ∈ start :: xs, R (xs.foldl pick start) x := by
  induction xs generalizing start with
  | nil =>
    intro x hx
    rw [List.mem_singleton.mp hx]
    exact hrefl start (hxs start List.mem_cons_self)
  | cons y ys ih =>
    obtain ⟨hstart, htail⟩ := List.forall_mem_cons.mp hxs
    obtain ⟨hy, hys⟩ := List.forall_mem_cons.mp htail
    have hnext : P (pick start y) := by
      rcases hpick start y with h | h
      · rw [h]
        exact hstart
      · rw [h]
        exact hy
    obtain ⟨hhead, hrest⟩ := List.forall_mem_cons.mp (ih (List.forall_mem_cons.mpr ⟨hnext, hys⟩))
    obtain ⟨hleft, hright⟩ := hrel start y hstart hy
    rw [List.foldl_cons]
    exact List.forall_mem_cons.mpr ⟨htrans hhead hleft,
      List.forall_mem_cons.mpr ⟨htrans hhead hright, hrest⟩⟩

end Picking

variable {α : Type} [Scalar α]

theorem lowest_mem (start : α) (xs : List α) : lowest start xs ∈ start :: xs := by
  refine foldl_pick_mem (fun a b => ?_) start xs
  split
  · exact .inr rfl
  · exact .inl rfl

theorem highest_mem (start : α) (xs : List α) : highest start xs ∈ start :: xs := by
  refine foldl_pick_mem (fun a b => ?_) start xs
  split
  · exact .inl rfl
  · exact .inr rfl

variable [Ordered α] {a b c d start : α} {xs : List α}

theorem le_of_not_lt (ha : isNaN a = false) (hb : isNaN b = false) (h : ¬a < b) : b ≤ a := by
  rcases Ordered.le_total ha hb with hab | hba
  · exact Classical.byContradiction fun hnot => h (Ordered.lt_iff.mpr ⟨hab, hnot⟩)
  · exact hba

theorem lt_of_le_of_lt (hab : a ≤ b) (hbc : b < c) : a < c := by
  obtain ⟨hle, hnot⟩ := Ordered.lt_iff.mp hbc
  exact Ordered.lt_iff.mpr ⟨Ordered.le_trans hab hle, fun h => hnot (Ordered.le_trans h hab)⟩

theorem not_lt_of_le (h : a ≤ b) : ¬b < a := fun hlt => (Ordered.lt_iff.mp hlt).2 h

theorem lowest_le (hxs : ∀ x ∈ start :: xs, isNaN x = false) :
    ∀ x ∈ start :: xs, lowest start xs ≤ x := by
  refine foldl_pick_rel (P := fun x => isNaN x = false) (fun a b => ?_) (fun a h => Ordered.le_refl h)
    Ordered.le_trans (fun a b ha hb => ?_) hxs
  · split
    · exact .inr rfl
    · exact .inl rfl
  · split
    · next h => exact ⟨(Ordered.lt_iff.mp h).1, Ordered.le_refl hb⟩
    · next h => exact ⟨Ordered.le_refl ha, le_of_not_lt hb ha h⟩

theorem le_highest (hxs : ∀ x ∈ start :: xs, isNaN x = false) :
    ∀ x ∈ start :: xs, x ≤ highest start xs := by
  refine foldl_pick_rel (R := fun a b => b ≤ a) (P := fun x => isNaN x = false) (fun a b => ?_)
    (fun a h => Ordered.le_refl h) (fun hab hbc => Ordered.le_trans hbc hab)
    (fun a b ha hb => ?_) hxs
  · split
    · exact .inl rfl
    · exact .inr rfl
  · split
    · next h => exact ⟨Ordered.le_refl ha, (Ordered.lt_iff.mp h).1⟩
    · next h => exact ⟨le_of_not_lt hb ha h, Ordered.le_refl hb⟩

/-! ### The lesser of two -/

theorem lesser_le (ha : isNaN a = false) (hb : isNaN b = false) :
    lesser a b ≤ a ∧ lesser a b ≤ b := by
  rw [lesser, ha, if_neg Bool.false_ne_true]
  split
  · next h => exact ⟨(Ordered.lt_iff.mp h).1, Ordered.le_refl hb⟩
  · next h => exact ⟨Ordered.le_refl ha, le_of_not_lt hb ha h⟩

omit [Ordered α] in
theorem lesser_eq_or (a b : α) : lesser a b = a ∨ lesser a b = b := by
  unfold lesser
  split
  · exact .inr rfl
  · split
    · exact .inr rfl
    · exact .inl rfl

omit [Ordered α] in
theorem isNaN_lesser (a : α) (hb : isNaN b = false) : isNaN (lesser a b) = false := by
  unfold lesser
  split
  · exact hb
  · next ha =>
    split
    · exact hb
    · exact Bool.eq_false_iff.mpr ha

theorem lesser_le_lesser (hab : a ≤ b) (hcd : c ≤ d) : lesser a c ≤ lesser b d := by
  obtain ⟨hleft, hright⟩ := lesser_le (Ordered.isNaN_of_le hab).1 (Ordered.isNaN_of_le hcd).1
  rcases lesser_eq_or b d with h | h
  · rw [h]
    exact Ordered.le_trans hleft hab
  · rw [h]
    exact Ordered.le_trans hright hcd

theorem lesser_mono (ha : isNaN a = false) (hbc : b ≤ c) : lesser a b ≤ lesser a c :=
  lesser_le_lesser (Ordered.le_refl ha) hbc

/-! ### The greater of two -/

omit [Ordered α] in
theorem greater_eq_or (a b : α) : greater a b = a ∨ greater a b = b := by
  unfold greater
  split
  · exact .inr rfl
  · split
    · exact .inr rfl
    · exact .inl rfl

theorem le_greater (ha : isNaN a = false) (hb : isNaN b = false) :
    a ≤ greater a b ∧ b ≤ greater a b := by
  rw [greater, ha, if_neg Bool.false_ne_true]
  split
  · next h => exact ⟨(Ordered.lt_iff.mp h).1, Ordered.le_refl hb⟩
  · next h => exact ⟨Ordered.le_refl ha, le_of_not_lt ha hb h⟩

end BinGrade.Scalar
