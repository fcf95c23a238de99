import BinGrade.Sample
import BinGrade.Scalar.Binary64

/-!
# Histograms

A histogram has strictly increasing finite edges and one count for each gap between neighbouring
edges. Its bins are half-open, each without its right edge, but the last bin has both its edges.
Counts are natural numbers, so their sum never overflows.
-/

namespace BinGrade

structure Histogram (α : Type) where
  edges : List α
  counts : List Nat
deriving BEq

/-- One bin of a histogram (`HistogramBin`); its density is the share of all values per unit of
width. -/
structure Bin (α : Type) where
  left : α
  right : α
  count : Nat
  density : α
deriving BEq

variable {α : Type}

def neighbours : List α → List (α × α)
  | a :: b :: more => (a, b) :: neighbours (b :: more)
  | _ => []

theorem length_neighbours (xs : List α) : (neighbours xs).length = xs.length - 1 := by
  fun_induction neighbours xs with
  | case1 a b more ih => simp [ih]
  | case2 xs h =>
    match xs, h with
    | [], _ => rfl
    | [_], _ => rfl
    | a :: b :: more, h => exact absurd rfl (h a b more)

def sumCounts (counts : List Nat) : Nat := counts.foldr (· + ·) 0

@[simp] theorem sumCounts_nil : sumCounts [] = 0 := rfl

@[simp] theorem sumCounts_cons (count : Nat) (counts : List Nat) :
    sumCounts (count :: counts) = count + sumCounts counts := rfl

variable [Scalar α]

namespace Bin

def of (left right : α) (count total : Nat) : Bin α :=
  let width := right - left
  let density :=
    if 0.0 < width && 0 < total then
      Scalar.ofCount count / (Scalar.ofCount total * width)
    else 0.0
  ⟨left, right, count, density⟩

def center (b : Bin α) : α := (b.left + b.right) / 2.0

def width (b : Bin α) : α := b.right - b.left

def contains (b : Bin α) (x : α) : Bool := b.left ≤ x && x < b.right

def frequency (b : Bin α) (total : Nat) : α :=
  if 0 < total then Scalar.ofCount b.count / Scalar.ofCount total else 0.0

def describe (b : Bin Float) : String :=
  "[" ++ Decimal.fixed 3 b.left ++ ", " ++ Decimal.fixed 3 b.right ++ "): count="
    ++ toString b.count ++ ", density=" ++ Decimal.fixed 3 b.density

end Bin

namespace Histogram

/-- The first gap whose right edge is not above its left one, with the index of the right edge. -/
def firstDescent? (edges : List α) : Option (Nat × α × α) :=
  ((neighbours edges).zipIdx.find? fun e => e.1.2 ≤ e.1.1).map fun e => (e.2 + 1, e.1.2, e.1.1)

/-- Refuses edges that are too few, not finite or not strictly increasing. -/
def checkEdges (edges : List α) : Except (Error α) Unit :=
  if edges.length < 2 then .error (.invalidInput (.fewEdges edges.length))
  else if !Sample.allFinite edges then .error (.invalidInput .edgesNotFinite)
  else match firstDescent? edges with
    | some (i, edge, previous) =>
      .error (.invalidInput (.edgesNotIncreasing i edge previous))
    | none => .ok ()

def ofEdges (edges : List α) (counts : List Nat) : Except (Error α) (Histogram α) := do
  checkEdges edges
  if edges.length ≠ counts.length + 1 then
    .error (.sizeMismatch "histogram edges" (counts.length + 1) edges.length)
  else pure ⟨edges, counts⟩

/-- A histogram made from edges has one bin between any two neighbours. -/
theorem length_edges_of_ofEdges {edges : List α} {counts : List Nat} {h : Histogram α}
    (ok : ofEdges edges counts = .ok h) : h.edges.length = h.counts.length + 1 := by
  unfold ofEdges at ok
  cases hc : checkEdges edges with
  | error e => simp [hc, bind, Except.bind] at ok
  | ok u =>
    simp only [hc, bind, Except.bind] at ok
    split at ok
    · cases ok
    · rename_i hl
      cases ok
      simpa using hl

/-- The bin of a value: none outside the edges, the last one for the last edge, else the one whose
left edge is the last edge that is not above the value. -/
def locate (edges : List α) (x : α) : Option Nat :=
  match edges.head?, edges.getLast? with
  | some first, some last =>
    if first ≤ x && x ≤ last then
      if x == last then some (edges.length - 2)
      else some ((edges.takeWhile (· ≤ x)).length - 1)
    else none
  | _, _ => none

def tally (bins : Nat) (located : List Nat) : List Nat :=
  (List.range bins).map fun i => located.count i

@[simp] theorem length_tally (bins : Nat) (located : List Nat) :
    (tally bins located).length = bins := by
  simp [tally]

def ofSample (edges xs : List α) : Except (Error α) (Histogram α) := do
  checkEdges edges
  pure ⟨edges, tally (edges.length - 1) (xs.filterMap (locate edges))⟩

variable (h : Histogram α)

def size : Nat := h.counts.length

/-- How many values were counted. Overflow is left out: a sum beyond the largest machine word is not
cut down to one. -/
def totalCount : Nat := sumCounts h.counts

def first : α := h.edges.head?.getD 0.0

def last : α := h.edges.getLast?.getD 0.0

def centers : List α := (neighbours h.edges).map fun e => (e.1 + e.2) / 2.0

def widths : List α := (neighbours h.edges).map fun e => e.2 - e.1

/-- Each bin's share of the counted values; zero if there are none. -/
def frequencies : List α :=
  let total := h.totalCount
  if total = 0 then List.replicate h.size 0.0
  else h.counts.map fun c => Scalar.ofCount c / Scalar.ofCount total

def bins : List (Bin α) :=
  (neighbours h.edges).zipWith (fun e c => Bin.of e.1 e.2 c h.totalCount) h.counts

def find? (x : α) : Option Nat := locate h.edges x

def describe (h : Histogram Float) : String :=
  "Histogram(" ++ toString h.size ++ " bins, n=" ++ toString h.totalCount ++ ", range=["
    ++ Decimal.fixed 3 h.first ++ ", " ++ Decimal.fixed 3 h.last ++ "])"

end Histogram

end BinGrade
