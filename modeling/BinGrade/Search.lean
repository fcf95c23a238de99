import BinGrade.Histogram.Binning
import BinGrade.Verdict.Evaluate

/-!
# Searching for a binning

The search tries binnings from few bins to many, and for each number of bins the strategies in the
order asked for, until a histogram reaches the target tier. If none does, the best score is chosen,
the earliest of several. All candidates are graded against the tables in force when the search
started, even if making a histogram changes the registry meanwhile.
-/

namespace BinGrade

/-- What is searched for and among what (`OptimizationRequest`). -/
structure SearchRequest (α : Type) where
  target : Tier
  strategies : List Strategy
  binCounts : List Nat
  evaluation : Request α
deriving BEq

structure Attempt (α : Type) where
  binning : Binning
  verdict : Verdict α

/-- What a search gives (`OptimizationResult`): the chosen binning, and all graded candidates in the
order of the search. -/
structure SearchResult (α : Type) where
  chosen : Binning
  verdict : Verdict α
  trace : List (Attempt α)
  targetMet : Bool

/-- Makes the histograms of candidates (`HistogramFactory`). It may work on a state of its own,
which holds the registry and can be changed by each histogram that is made. -/
structure Workshop (σ α : Type) where
  registry : σ → Registry α
  make : Binning → List α → σ → Except (Error α) (Histogram α) × σ

variable {σ α : Type}

def firstSeen {β : Type} [DecidableEq β] : List β → List β
  | [] => []
  | b :: bs => b :: (firstSeen bs).filter (· ≠ b)

theorem mem_firstSeen {β : Type} [DecidableEq β] {b : β} {bs : List β} :
    b ∈ firstSeen bs ↔ b ∈ bs := by
  induction bs with
  | nil => simp [firstSeen]
  | cons c bs ih => by_cases h : b = c <;> simp [firstSeen, ih, h]

theorem nodup_firstSeen {β : Type} [DecidableEq β] (bs : List β) : (firstSeen bs).Nodup := by
  induction bs with
  | nil => simp [firstSeen]
  | cons c bs ih =>
    simp only [firstSeen, List.nodup_cons, List.mem_filter]
    exact ⟨by simp, ih.filter _⟩

def dropRepeats {β : Type} [DecidableEq β] : List β → List β
  | a :: b :: more => if a = b then dropRepeats (b :: more) else a :: dropRepeats (b :: more)
  | short => short

theorem mem_dropRepeats {β : Type} [DecidableEq β] {b : β} {bs : List β} :
    b ∈ dropRepeats bs ↔ b ∈ bs := by
  fun_induction dropRepeats bs with
  | case1 c more ih => simp [ih]
  | case2 a c more h ih => simp [ih]
  | case3 bs => simp

/-- The strategies without repetitions, and the numbers of bins in ascending order
(`search_space`). -/
def SearchRequest.space (r : SearchRequest α) :
    Except (ParameterFault α) (List Strategy × List Nat) :=
  if r.strategies.isEmpty then .error .noStrategy
  else if r.binCounts.isEmpty then .error .noBinCount
  else if r.binCounts.contains 0 then .error .zeroBinCount
  else .ok (firstSeen r.strategies, dropRepeats (r.binCounts.mergeSort (· ≤ ·)))

def candidates (strategies : List Strategy) (binCounts : List Nat) : List Binning :=
  binCounts.flatMap fun n => strategies.map fun s => ⟨s, n⟩

variable [Scalar α]

instance : BEq (Attempt α) where
  beq a b := a.binning == b.binning && a.verdict == b.verdict

instance : BEq (SearchResult α) where
  beq a b :=
    a.chosen == b.chosen && a.verdict == b.verdict && a.trace == b.trace
      && a.targetMet == b.targetMet

namespace Workshop

def pure (make : Binning → List α → Except (Error α) (Histogram α)) :
    Workshop (Registry α) α :=
  ⟨id, fun b xs r => (make b xs, r)⟩

def standard : Workshop (Registry α) α := pure fun b xs => b.build xs

end Workshop

namespace Search

/-- An attempt scores higher than another; what is no number counts as the highest. -/
def scoresHigher (a b : Attempt α) : Bool :=
  !Scalar.isNaN b.verdict.score
    && (Scalar.isNaN a.verdict.score || b.verdict.score < a.verdict.score)

def best (first : Attempt α) (more : List (Attempt α)) : Attempt α :=
  more.foldl (fun b a => if scoresHigher a b then a else b) first

/-- The attempts at candidates up to the first one that reaches the target, and the state that making
their histograms leaves. Candidates of which no histogram can be made are passed over. -/
def attempts (w : Workshop σ α) (e : Evaluator α) (p : Prepared α) (xs : List α)
    (r : SearchRequest α) : List Binning → σ → Except (Error α) (List (Attempt α)) × σ
  | [], s => (.ok [], s)
  | b :: bs, s =>
    match w.make b xs s with
    | (.error _, s) => attempts w e p xs r bs s
    | (.ok h, s) =>
      match e.evaluatePrepared p h r.evaluation with
      | .error fault => (.error fault, s)
      | .ok v =>
        if v.meets r.target then (.ok [⟨b, v⟩], s)
        else
          let (more, s) := attempts w e p xs r bs s
          ((fun trace => ⟨b, v⟩ :: trace) <$> more, s)

/-- The result of attempts (`finish`): the last one if it reaches the target, else the best one. -/
def conclude (target : Tier) (trace : List (Attempt α)) : Except (Error α) (SearchResult α) :=
  match trace.head?, trace.getLast? with
  | some first, some last =>
    if last.verdict.meets target then .ok ⟨last.binning, last.verdict, trace, true⟩
    else
      let chosen := best first trace.tail
      .ok ⟨chosen.binning, chosen.verdict, trace, false⟩
  | _, _ => .error (.invalidInput .nothingBuilt)

def start (tables : Tables α) (e : Evaluator α) (xs : List α) (r : SearchRequest α) :
    Except (Error α) (List Binning × Prepared α) := do
  let (strategies, binCounts) ← r.space.mapError .invalidParameter
  let p ← e.prepare tables xs r.evaluation
  pure (candidates strategies binCounts, p)

/-- Searches for a binning of a sample (`optimize`), and gives the state that the search leaves. The
tables are read once, before the first histogram is made. -/
def run (w : Workshop σ α) (e : Evaluator α) (xs : List α) (r : SearchRequest α) (s : σ) :
    Except (Error α) (SearchResult α) × σ :=
  match start (w.registry s).tables e xs r with
  | .error fault => (.error fault, s)
  | .ok (bs, p) =>
    let (trace, s) := attempts w e p xs r bs s
    (trace.bind (conclude r.target), s)

end Search

end BinGrade
