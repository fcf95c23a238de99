import BinGrade.Proofs.Histogram.Lookup

/-!
# Binning by index

A histogram of equal widths, made with a current bin and a list of counts in which every read and every
write is by index. Nothing is read or written outside, and the counts are those of the sweep.
-/

namespace BinGrade

open Scalar (Ordered)

variable {α : Type} [Scalar α]

namespace Histogram

variable {edges : List α} {counts : List ℕ}

/-! ### Checks of edges -/

/-- The check of edges, which reads the two edges of the first descent again. -/
def checkEdges? (edges : List α) : Option (Except (Error α) Unit) :=
  if edges.length < 2 then some (.error (.invalidInput (.fewEdges edges.length)))
  else if !Sample.allFinite edges then some (.error (.invalidInput .edgesNotFinite))
  else match (neighbours edges).findIdx? fun e => decide (e.2 ≤ e.1) with
    | some i => do
      let edge ← edges[i + 1]?
      let previous ← edges[i]?
      some (.error (.invalidInput (.edgesNotIncreasing (i + 1) edge previous)))
    | none => some (.ok ())

def ofEdges? (edges : List α) (counts : List ℕ) : Option (Except (Error α) (Histogram α)) := do
  match ← checkEdges? edges with
  | .error e => some (.error e)
  | .ok _ =>
    if edges.length ≠ counts.length + 1 then
      some (.error (.sizeMismatch "histogram edges" (counts.length + 1) edges.length))
    else some (.ok ⟨edges, counts⟩)

theorem find?_zipIdx {β : Type} (p : β → Bool) (xs : List β) (k : ℕ) :
    (xs.zipIdx k).find? (fun e => p e.1)
      = (xs.findIdx? p).bind fun i => xs[i]?.map fun x => (x, k + i) := by
  induction xs generalizing k with
  | nil => rfl
  | cons x xs ih =>
    rw [List.zipIdx_cons, List.find?_cons, List.findIdx?_cons]
    cases hx : p x with
    | true => simp
    | false =>
      simp only [Bool.false_eq_true, if_false, ih, Option.bind_map]
      congr 1
      funext i
      simp [Nat.add_assoc, Nat.add_comm 1]

theorem checkEdges?_eq (edges : List α) : checkEdges? edges = some (checkEdges edges) := by
  unfold checkEdges? checkEdges firstDescent?
  split
  · rfl
  split
  · rfl
  rw [find?_zipIdx fun e : α × α => decide (e.2 ≤ e.1)]
  cases hfound : (neighbours edges).findIdx? fun e => decide (e.2 ≤ e.1) with
  | none => rfl
  | some i =>
    obtain ⟨hi, -⟩ := List.findIdx?_eq_some_iff_getElem.mp hfound
    rw [length_neighbours] at hi
    have hleft : edges[i]? = some edges[i] := List.getElem?_eq_getElem (by omega)
    have hright : edges[i + 1]? = some edges[i + 1] := List.getElem?_eq_getElem (by omega)
    simp [getElem?_neighbours, hleft, hright]

theorem ofEdges?_eq (edges : List α) (counts : List ℕ) :
    ofEdges? edges counts = some (ofEdges edges counts) := by
  unfold ofEdges? ofEdges
  rw [checkEdges?_eq]
  cases checkEdges edges with
  | error e => rfl
  | ok _ =>
    simp only [Option.bind_some, bind, Except.bind]
    split <;> rfl

end Histogram

namespace Binning

/-! ### The sweep -/

/-- Moves on from the current bin past all right edges that are not above a value. -/
def moveOn? (edges : List α) (top : ℕ) (x : α) (current : ℕ) : Option ℕ :=
  if current < top then do
    let right ← edges[current + 1]?
    if right ≤ x then moveOn? edges top x (current + 1) else some current
  else some current
termination_by top - current

/-- Counts one more in a bin. -/
def increment? (counts : List ℕ) (i : ℕ) : Option (List ℕ) :=
  if i < counts.length then some (counts.modify i (· + 1)) else none

def sweepStep? (edges : List α) (top : ℕ) (state : ℕ × List ℕ) (x : α) : Option (ℕ × List ℕ) := do
  let current ← moveOn? edges top x state.1
  let counts ← increment? state.2 current
  some (current, counts)

/-- The counts of a sorted sample between edges. -/
def sweep? (edges sorted : List α) : Option (List ℕ) := do
  let bins ← minus? edges.length 1
  let top ← minus? bins 1
  let state ← sorted.foldlM (sweepStep? edges top) (0, List.replicate bins 0)
  some state.2

section Sweep

variable {edges inner passed rights : List α} {right x : α} {top current : ℕ} {done : List ℕ}

omit [Scalar α] in
theorem getElem?_right (first last : α) (hinner : inner = passed ++ right :: rights) :
    (first :: (inner ++ [last]))[passed.length + 1]? = some right := by
  simp [hinner]

theorem moveOn?_last (edges : List α) (top : ℕ) (x : α) : moveOn? edges top x top = some top := by
  rw [moveOn?, if_neg (Nat.lt_irrefl top)]

theorem moveOn?_of_le (hright : edges[current + 1]? = some right) (htop : current < top)
    (h : right ≤ x) : moveOn? edges top x current = moveOn? edges top x (current + 1) := by
  rw [moveOn?, if_pos htop, hright]
  exact if_pos h

theorem moveOn?_of_not_le (hright : edges[current + 1]? = some right) (htop : current < top)
    (h : ¬right ≤ x) : moveOn? edges top x current = some current := by
  rw [moveOn?, if_pos htop, hright]
  exact if_neg h

theorem increment?_append (done : List ℕ) (count : ℕ) (rest : List ℕ) :
    increment? (done ++ count :: rest) done.length = some (done ++ (count + 1) :: rest) := by
  unfold increment?
  rw [if_pos (by simp)]
  congr 1
  induction done with
  | nil => rfl
  | cons n done ih => simpa using ih

theorem sweepStep?_of_stay {count : ℕ} {rest : List ℕ}
    (hstay : moveOn? edges top x done.length = some done.length) :
    sweepStep? edges top (done.length, done ++ count :: rest) x
      = some (done.length, done ++ (count + 1) :: rest) := by
  unfold sweepStep?
  simp only [hstay, Option.bind_eq_bind, Option.bind_some, increment?_append]

/-- The state after some bins: their counts, the count of the current bin, and zeros to come. -/
def swept (done : List ℕ) (count ahead : ℕ) : ℕ × List ℕ :=
  (done.length, done ++ count :: List.replicate ahead 0)

theorem foldlM_lastBin (edges : List α) (done : List ℕ) (xs : List α) (count : ℕ) :
    xs.foldlM (sweepStep? edges done.length) (swept done count 0)
      = some (swept done (count + xs.length) 0) := by
  induction xs generalizing count with
  | nil => rfl
  | cons x xs ih =>
    rw [List.foldlM_cons, swept, sweepStep?_of_stay (moveOn?_last ..), List.length_cons]
    refine (ih (count + 1)).trans ?_
    congr 2
    omega

/-- In each case the state goes on as the sweep does: with the next bin, or with one more in this one. -/
theorem foldlM_sweepStep? (first last : α) (passed rights xs : List α) (done : List ℕ) (count : ℕ)
    (hinner : inner = passed ++ rights) (hdone : done.length = passed.length) :
    (xs.foldlM (sweepStep? (first :: (inner ++ [last])) inner.length)
      (swept done count rights.length)).map Prod.snd = some (done ++ sweep rights xs count) := by
  fun_induction sweep rights xs count generalizing passed done with
  | case1 xs count =>
    have htop : inner.length = done.length := by simp [hinner, hdone]
    rw [htop, List.length_nil, foldlM_lastBin]
    rfl
  | case2 right rights count ih =>
    have hnext := ih (passed ++ [right]) (done ++ [count]) (by simp [hinner]) (by simp [hdone])
    simpa [swept, List.replicate_succ] using hnext
  | case3 right rights x xs count h ih =>
    have hnext := ih (passed ++ [right]) (done ++ [count]) (by simp [hinner]) (by simp [hdone])
    have hmove := moveOn?_of_le (getElem?_right first last hinner)
      (show passed.length < inner.length by simp [hinner]) h
    have hsame : sweepStep? (first :: (inner ++ [last])) inner.length
          (swept done count (right :: rights).length) x
        = sweepStep? (first :: (inner ++ [last])) inner.length
          (swept (done ++ [count]) 0 rights.length) x := by
      unfold sweepStep? swept
      simp [hdone, hmove, List.replicate_succ]
    rw [List.foldlM_cons] at hnext ⊢
    rw [hsame, hnext, List.append_assoc]
    rfl
  | case4 right rights x xs count h ih =>
    have hstay := moveOn?_of_not_le (getElem?_right first last hinner)
      (show passed.length < inner.length by simp [hinner]) h
    rw [List.foldlM_cons, swept, sweepStep?_of_stay (by rw [hdone]; exact hstay)]
    exact ih passed done hinner hdone

theorem sweep?_eq (h : 2 ≤ edges.length) (sorted : List α) :
    sweep? edges sorted = some (sweep edges.tail.dropLast sorted 0) := by
  obtain ⟨first, rest, rfl⟩ := List.exists_cons_of_length_pos (by omega : 0 < edges.length)
  rw [List.length_cons] at h
  obtain ⟨inner, last, rfl⟩ := (List.eq_nil_or_concat' rest).resolve_left
    (List.ne_nil_of_length_pos (by omega))
  have hrun : (sorted.foldlM (sweepStep? (first :: (inner ++ [last])) inner.length)
      (swept [] 0 inner.length)).map Prod.snd = some (sweep inner sorted 0) :=
    foldlM_sweepStep? first last [] inner sorted [] 0 rfl rfl
  obtain ⟨state, hstate, hcounts⟩ := Option.map_eq_some_iff.mp hrun
  unfold sweep?
  have hbins : (first :: (inner ++ [last])).length - 1 = inner.length + 1 := by simp
  rw [minus?_eq (by simp), hbins, Option.bind_eq_bind, Option.bind_some, minus?_eq (by omega),
    Option.bind_eq_bind, Option.bind_some, Nat.add_sub_cancel]
  have hstart : (0, List.replicate (inner.length + 1) 0) = swept [] 0 inner.length := rfl
  rw [hstart, hstate, List.tail_cons, List.dropLast_concat]
  exact congrArg some hcounts

end Sweep

/-! ### Equal widths -/

def single? (sorted : List α) : Option (Except (Error α) (Histogram α)) := do
  let value ← sorted[0]?
  Histogram.ofEdges? [value - halfWidth, value + halfWidth] [sorted.length]

def finish? (edges sorted : List α) : Option (Except (Error α) (Histogram α)) :=
  let rising := dropSame (fun a b => a ≤ b) edges
  if rising.length < 2 then single? sorted
  else do
    let counts ← sweep? rising sorted
    Histogram.ofEdges? rising counts

/-- The histogram of equal widths with every index checked. -/
def uniform? (bins : ℕ) (sorted : List α) : Option (Except (Error α) (Histogram α)) :=
  match ends sorted with
  | .error e => some (.error e)
  | .ok (first, last) =>
    if last ≤ first then single? sorted
    else finish? (uniformEdges first last bins) sorted

variable {sorted : List α} (hne : sorted ≠ [])

include hne

theorem single?_eq : single? sorted = some (single sorted) := by
  obtain ⟨value, rest, rfl⟩ := List.exists_cons_of_ne_nil hne
  exact Histogram.ofEdges?_eq _ _

theorem finish?_eq (edges : List α) : finish? edges sorted = some (finish edges sorted) := by
  unfold finish? finish
  dsimp only
  split
  · exact single?_eq hne
  · next h =>
    rw [sweep?_eq (Nat.not_lt.mp h)]
    exact Histogram.ofEdges?_eq _ _

omit hne in
theorem uniform?_eq (bins : ℕ) (sorted : List α) :
    uniform? bins sorted = some (uniform bins sorted) := by
  unfold uniform? uniform
  cases hends : ends sorted with
  | error e => rfl
  | ok ends =>
    have hne : sorted ≠ [] := by
      rintro rfl
      cases hends
    simp only [bind, Except.bind]
    split
    · exact single?_eq hne
    · exact finish?_eq hne _

end Binning

end BinGrade
