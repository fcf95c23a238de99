import Mathlib.Data.List.Chain
import Mathlib.Data.List.Count
import Mathlib.Data.List.TakeWhile
import BinGrade.Histogram.Binning
import BinGrade.Proofs.Scalar.Order

/-!
# Counting between edges

There are two ways to count. One looks each value up among the edges, in any order of the values.
The other sweeps once over the sorted values and moves on past the edges. Both put a value into the
bin whose number is how many inner edges are not above it, so they give the same counts wherever the
edges rise and no value lies outside them.
-/

namespace BinGrade

open Scalar (Ordered)

/-! ### Edges -/

theorem isChain_iff_neighbours {β : Type} {R : β → β → Prop} {xs : List β} :
    xs.IsChain R ↔ ∀ e ∈ neighbours xs, R e.1 e.2 := by
  fun_induction neighbours xs with
  | case1 a b more ih => simp [ih]
  | case2 xs hshort =>
    cases xs with
    | nil => simp
    | cons a rest =>
      cases rest with
      | nil => simp
      | cons b more => exact absurd rfl (hshort a b more)

variable {α : Type} [Scalar α]

namespace Histogram

theorem firstDescent?_eq_none_iff {edges : List α} :
    firstDescent? edges = none ↔ edges.IsChain fun a b => ¬b ≤ a := by
  have hfst : (neighbours edges).zipIdx.map Prod.fst = neighbours edges := List.zipIdx_map_fst ..
  simp only [firstDescent?, Option.map_eq_none_iff, List.find?_eq_none, decide_eq_true_eq]
  rw [isChain_iff_neighbours]
  nth_rewrite 2 [← hfst]
  rw [List.forall_mem_map]

variable [Ordered α]

theorem isChain_iff_pairwise_lt {edges : List α} (hfinite : Sample.allFinite edges = true) :
    (edges.IsChain fun a b => ¬b ≤ a) ↔ edges.Pairwise (· < ·) := by
  have hnumber : ∀ x ∈ edges, Scalar.isNaN x = false := by
    intro x hx
    exact Ordered.isNaN_of_isFinite (List.all_eq_true.mp hfinite x hx)
  have : Trans (α := α) (· < ·) (· < ·) (· < ·) := ⟨Scalar.lt_trans⟩
  rw [← List.isChain_iff_pairwise]
  apply List.IsChain.iff_of_mem_imp
  intro a b ha hb
  rw [Ordered.lt_iff]
  constructor
  · intro h
    exact ⟨Scalar.le_of_not_le (hnumber a ha) (hnumber b hb) h, h⟩
  · exact fun h => h.2

/-- The edges that are accepted. -/
theorem checkEdges_eq_ok_iff {edges : List α} :
    checkEdges edges = .ok ()
      ↔ 2 ≤ edges.length ∧ Sample.allFinite edges = true ∧ edges.Pairwise (· < ·) := by
  unfold checkEdges
  by_cases hlength : edges.length < 2
  · rw [if_pos hlength]
    simp [Nat.not_le.mpr hlength]
  rw [if_neg hlength]
  by_cases hfinite : Sample.allFinite edges = true
  · rw [if_neg (by simp [hfinite]), ← isChain_iff_pairwise_lt hfinite,
      ← firstDescent?_eq_none_iff]
    cases firstDescent? edges with
    | none => simp [hfinite, Nat.not_lt.mp hlength]
    | some e => simp
  · rw [if_pos (by simpa using hfinite)]
    simp [hfinite]

/-! ### Looking up -/

/-- The bin of a value among inner edges: how many of them it has reached. -/
def reached (inner : List α) (x : α) : Nat := (inner.takeWhile (· ≤ x)).length

omit [Ordered α] in
theorem reached_cons_of_le {right x : α} (h : right ≤ x) (inner : List α) :
    reached (right :: inner) x = reached inner x + 1 := by
  simp [reached, h]

omit [Ordered α] in
theorem reached_cons_of_not_le {right x : α} (h : ¬right ≤ x) (inner : List α) :
    reached (right :: inner) x = 0 := by
  simp [reached, h]

omit [Ordered α] in
theorem reached_append_of_not_le {last x : α} (h : ¬last ≤ x) (inner : List α) :
    reached (inner ++ [last]) x = reached inner x := by
  induction inner with
  | nil => exact reached_cons_of_not_le h []
  | cons right inner ih =>
    rw [List.cons_append]
    by_cases hright : right ≤ x
    · rw [reached_cons_of_le hright, reached_cons_of_le hright, ih]
    · rw [reached_cons_of_not_le hright, reached_cons_of_not_le hright]

omit [Ordered α] in
theorem reached_eq_length {inner : List α} {x : α} (h : ∀ e ∈ inner, e ≤ x) :
    reached inner x = inner.length := by
  rw [reached, List.takeWhile_eq_self_iff.mpr (by simpa using h)]

/-- Within the edges, a value is found in the bin that it has reached. -/
theorem locate_eq_some {first last x : α} {inner : List α}
    (hrising : (first :: (inner ++ [last])).Pairwise (· < ·)) (hfirst : first ≤ x)
    (hlast : x ≤ last) : locate (first :: (inner ++ [last])) x = some (reached inner x) := by
  have hend : (first :: (inner ++ [last])).getLast? = some last :=
    List.getLast?_concat (l := first :: inner)
  unfold locate
  rw [hend, List.head?_cons]
  simp only [hfirst, hlast, decide_true, Bool.and_self, if_true]
  by_cases hx : (x == last) = true
  · -- at the last edge all inner edges have been reached
    have hle : ∀ e ∈ inner, e ≤ x := by
      intro e he
      have hlt := (List.pairwise_append.mp (List.pairwise_cons.mp hrising).2).2.2 e he last
        (List.mem_singleton.mpr rfl)
      exact Ordered.le_trans (Ordered.lt_iff.mp hlt).1 (Ordered.beq_iff.mp hx).2
    rw [if_pos hx, reached_eq_length hle]
    simp
  · have hbeyond : ¬last ≤ x := fun h => hx (Ordered.beq_iff.mpr ⟨hlast, h⟩)
    rw [if_neg hx, ← reached, reached_cons_of_le hfirst, reached_append_of_not_le hbeyond,
      Nat.add_sub_cancel]

/-! ### Sweeping -/

theorem tally_succ (n count : Nat) (located : List Nat) :
    tally (n + 1) (List.replicate count 0 ++ located.map (· + 1)) = count :: tally n located := by
  have hzero : (located.map (· + 1)).count 0 = 0 := by
    rw [List.count_eq_zero]
    simp
  have hsucc : ∀ i, (List.replicate count 0).count (i + 1) = 0 := by
    intro i
    rw [List.count_eq_zero]
    simp
  rw [tally, List.range_succ_eq_map, List.map_cons, List.map_map, tally, List.count_append,
    List.count_replicate_self, hzero, Nat.add_zero]
  congr 1
  apply List.map_congr_left
  intro i _
  rw [Function.comp_apply, List.count_append, hsucc, Nat.zero_add]
  exact List.count_map_of_injective located (· + 1) (fun _ _ => Nat.succ.inj) i

theorem tally_of_perm {bins : Nat} {located located' : List Nat} (h : located.Perm located') :
    tally bins located = tally bins located' := by
  apply List.map_congr_left
  intro i _
  exact h.count_eq i

/-- A sweep over ascending values counts them by the bins that they have reached. -/
theorem sweep_eq_tally (rights : List α) {xs : List α} (count : Nat)
    (hsorted : xs.Pairwise (· ≤ ·)) :
    Binning.sweep rights xs count
      = tally (rights.length + 1) (List.replicate count 0 ++ xs.map (reached rights)) := by
  fun_induction Binning.sweep rights xs count with
  | case1 xs count =>
    have hzero : xs.map (reached []) = List.replicate xs.length 0 := List.map_const' ..
    rw [hzero, ← List.replicate_add, List.length_nil, Nat.zero_add,
      ← List.append_nil (List.replicate _ 0)]
    exact (tally_succ 0 (count + xs.length) []).symm
  | case2 right rights count ih =>
    rw [ih .nil]
    exact (tally_succ (rights.length + 1) count []).symm
  | case3 right rights x xs count h ih =>
    -- all values that are left have reached this edge too
    have hmoved : (x :: xs).map (reached (right :: rights))
        = ((x :: xs).map (reached rights)).map (· + 1) := by
      rw [List.map_map]
      apply List.map_congr_left
      intro y hy
      have hxy : x ≤ y ∨ y = x := (List.mem_cons.mp hy).symm.imp_left
        ((List.pairwise_cons.mp hsorted).1 y)
      have hle : right ≤ y := hxy.elim (Ordered.le_trans h) (fun heq => heq ▸ h)
      exact reached_cons_of_le hle rights
    rw [ih hsorted, hmoved, List.length_cons, tally_succ]
    rfl
  | case4 right rights x xs count h ih =>
    rw [ih (List.pairwise_cons.mp hsorted).2, List.map_cons, reached_cons_of_not_le h,
      List.replicate_succ', List.append_assoc]
    rfl

/-! ### The two ways to count -/

/-- Where the edges rise and no value lies outside them, looking up the values in any order counts
what a sweep over the ascending values counts. -/
theorem ofSample_eq_ok {first last : α} {inner sorted xs : List α}
    (hedges : checkEdges (first :: (inner ++ [last])) = .ok ())
    (hsorted : sorted.Pairwise (· ≤ ·)) (hperm : sorted.Perm xs)
    (hwithin : ∀ x ∈ sorted, first ≤ x ∧ x ≤ last) :
    ofSample (first :: (inner ++ [last])) xs
      = .ok ⟨first :: (inner ++ [last]), Binning.sweep inner sorted 0⟩ := by
  obtain ⟨_, _, hrising⟩ := checkEdges_eq_ok_iff.mp hedges
  have hfound : xs.filterMap (locate (first :: (inner ++ [last]))) = xs.map (reached inner) := by
    rw [← List.filterMap_eq_map]
    apply List.filterMap_congr
    intro x hx
    obtain ⟨hfirst, hlast⟩ := hwithin x (hperm.mem_iff.mpr hx)
    exact locate_eq_some hrising hfirst hlast
  have hbins : (first :: (inner ++ [last])).length - 1 = inner.length + 1 := by simp
  have hcounts : tally (inner.length + 1) (xs.map (reached inner)) = Binning.sweep inner sorted 0 := by
    rw [sweep_eq_tally inner 0 hsorted]
    exact tally_of_perm (hperm.map (reached inner)).symm
  unfold ofSample
  rw [hedges, hfound, hbins, hcounts]
  rfl

end Histogram
end BinGrade
