import BinGrade.Proofs.Binary64.Sign
import BinGrade.Proofs.Histogram.Conservation

/-!
# Samples in another order

The order in which samples are sorted tells apart all bit patterns of numbers, the two zeros
included, so a sample has only one sorted form. Whether it is finite is said of its members. So the
order in which its values are listed changes nothing in a histogram, down to the bits of the edges,
and nothing in an error.
-/

namespace BinGrade

open Scalar (Ordered)

/-! ### One sorted form -/

theorem Scalar.Binary64.sortKey_injective : Function.Injective Scalar.Binary64.sortKey := by
  intro a b h
  have hkey := congrArg UInt64.toNat h
  have ha : a.toBits.toNat < 2 ^ 64 := a.toBits.toNat_lt
  have hb : b.toBits.toNat < 2 ^ 64 := b.toBits.toNat_lt
  rw [BinGrade.Binary64.toNat_sortKey, BinGrade.Binary64.toNat_sortKey] at hkey
  have hbits : a.toBits.toNat = b.toBits.toNat := by
    -- patterns without the sign bit have keys from half the range on, and the others below it
    split at hkey <;> split at hkey <;> omega
  exact BinGrade.Binary64.eq_of_toBits_eq (UInt64.toNat_inj.mp hbits)

theorem sortsBefore_antisymm {a b : Float} (hab : Scalar.sortsBefore a b = true)
    (hba : Scalar.sortsBefore b a = true) : a = b := by
  have hle : Scalar.Binary64.sortKey a ≤ Scalar.Binary64.sortKey b := of_decide_eq_true hab
  have hge : Scalar.Binary64.sortKey b ≤ Scalar.Binary64.sortKey a := of_decide_eq_true hba
  exact Scalar.Binary64.sortKey_injective (UInt64.le_antisymm hle hge)

namespace Sample

variable {xs ys : List Float}

theorem pairwise_sortsBefore_sorted (xs : List Float) :
    (sorted xs).Pairwise fun a b => Scalar.sortsBefore a b = true :=
  List.pairwise_mergeSort Ordered.sortsBefore_trans Ordered.sortsBefore_total xs

theorem sorted_eq_of_perm (h : xs.Perm ys) : sorted xs = sorted ys := by
  have hperm : (sorted xs).Perm (sorted ys) :=
    ((perm_sorted xs).trans h).trans (perm_sorted ys).symm
  refine hperm.eq_of_pairwise ?_ (pairwise_sortsBefore_sorted xs) (pairwise_sortsBefore_sorted ys)
  intro a b _ _ hab hba
  exact sortsBefore_antisymm hab hba

theorem checkFinite_of_perm (h : xs.Perm ys) (what : String) :
    checkFinite what xs = checkFinite what ys := by
  have hall : allFinite xs = allFinite ys := by
    rw [Bool.eq_iff_iff, allFinite, allFinite, List.all_eq_true, List.all_eq_true]
    exact forall_congr' fun x => by rw [h.mem_iff]
  rw [checkFinite, checkFinite, hall]

end Sample

/-! ### One histogram -/

namespace Binning

theorem onSorted_of_perm {xs ys : List Float} (h : xs.Perm ys)
    (make : List Float → Except (Error Float) (Histogram Float)) :
    onSorted make xs = onSorted make ys := by
  rw [onSorted, onSorted, Sample.checkFinite_of_perm h, Sample.sorted_eq_of_perm h]

/-- Bit patterns in another order make the same histogram or the same error, with any strategy and
any number of bins, also none. -/
theorem build_of_perm_patterns {ps qs : List UInt64} (h : ps.Perm qs) (s : Strategy) (bins : Nat) :
    onSorted (s.histogram bins) (ps.map Float.ofBits)
        = onSorted (s.histogram bins) (qs.map Float.ofBits)
      ∧ (⟨s, bins⟩ : Binning).build (ps.map Float.ofBits)
        = (⟨s, bins⟩ : Binning).build (qs.map Float.ofBits) := by
  have hperm : (ps.map Float.ofBits).Perm (qs.map Float.ofBits) := h.map Float.ofBits
  exact ⟨onSorted_of_perm hperm _, onSorted_of_perm hperm _⟩

/-- One, zero and negative zero. -/
def descendingZeros : List UInt64 := [0x3ff0000000000000, 0, 0x8000000000000000]

theorem sorted_descendingZeros :
    Sample.sorted (descendingZeros.map Float.ofBits) = [-0.0, 0.0, 1.0] := by
  have hbits : descendingZeros.map Float.ofBits = [1.0, 0.0, -0.0] := by decide +kernel
  have hone : Scalar.sortsBefore (1.0 : Float) 0.0 = false := by decide +kernel
  have hzero : Scalar.sortsBefore (0.0 : Float) (-0.0) = false := by decide +kernel
  rw [hbits]
  simp [Sample.sorted, List.mergeSort, hone, hzero]

/-- The second of three quantiles is zero and is merged into the first edge, a negative zero. -/
theorem descendingZeros_reversed :
    descendingZeros.Perm descendingZeros.reverse
      ∧ ∃ h, (⟨.quantile, 2⟩ : Binning).build (descendingZeros.map Float.ofBits) = .ok h
        ∧ (⟨.quantile, 2⟩ : Binning).build (descendingZeros.reverse.map Float.ofBits) = .ok h
        ∧ h.edges = [-0.0, 1.0] ∧ h.counts = [3] := by
  have hperm : descendingZeros.Perm descendingZeros.reverse := descendingZeros.reverse_perm.symm
  have hmade : ((⟨.quantile, 2⟩ : Binning).build (descendingZeros.map Float.ofBits)).toOption.map
      (fun h => (h.edges, h.counts)) = some ([-0.0, 1.0], [3]) := by
    unfold build onSorted
    rw [sorted_descendingZeros]
    decide +kernel
  obtain ⟨h, hsome, hparts⟩ := Option.map_eq_some_iff.mp hmade
  obtain ⟨hedges, hcounts⟩ := Prod.mk.inj hparts
  have ok := eq_ok_of_toOption hsome
  exact ⟨hperm, h, ok, (build_of_perm_patterns hperm .quantile 2).2 ▸ ok, hedges, hcounts⟩

end Binning

end BinGrade
