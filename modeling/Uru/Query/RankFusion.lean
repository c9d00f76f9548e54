import Mathlib.Algebra.Order.Field.Rat
import Mathlib.Tactic
import Uru.Lib.Ranking
import Uru.Lib.Record
import Uru.Lib.SortOn

/-!
# Rank fusion

Ranked lists are merged by the sum of `weight / (k + rank)` over the lists. The
scores of each list are brought to the range from 0 to 1, and a hundredth of
them is added to break ties. There are four versions: for a vector list and a
graph list, for any number of lists, a fallback on ids and scores, and the
accelerated one, which reads its map in an order of its own. The public
function scales the weights and passes the lists on. The dicts of a fusion have
the same keys; they are one record here. The fresh identifier that the public
function gives to each id stands for the id, and the id is used.
-/

set_option autoImplicit false

namespace Uru.Query.RankFusion
open Uru.Lib

variable {ι α : Type} [DecidableEq ι]

/-- Scores brought to the range from 0 to 1; `flat` says of the largest and the
smallest one that they count as equal. -/
def normalizeBy (flat : ℚ → ℚ → Bool) : List ℚ → List ℚ
  | [] => []
  | s::scores =>
    let minScore := scores.foldl min s
    let maxScore := scores.foldl max s
    if flat maxScore minScore = true then (s::scores).map (fun _ => 1)
    else (s::scores).map (fun s => (s-minScore)/(maxScore-minScore))

def _minMaxNormalize : List ℚ → List ℚ :=
  normalizeBy (fun maxScore minScore => maxScore = minScore)

def normalizeScores : List ℚ → List ℚ :=
  normalizeBy (fun maxS minS => |maxS-minS| < 1/10^15)

def minMaxNormalize : List ℚ → List ℚ :=
  normalizeBy (fun max min => |max-min| < 1/2^52)

structure Hit (ι α : Type) where
  itemId : ι
  score : ℚ
  item : α

structure Entry (α : Type) where
  rrfScore : ℚ
  contribution : ℚ
  item : α
  vectorRank : Option ℕ
  graphRank : Option ℕ
  vectorScore : Option ℚ
  graphScore : Option ℚ

structure FusedResult (ι α : Type) where
  itemId : ι
  item : α
  rrfScore : ℚ
  vectorRank : Option ℕ
  graphRank : Option ℕ
  vectorScore : Option ℚ
  graphScore : Option ℚ

def Entry.fresh (item : α) : Entry α := ⟨0,0,item,none,none,none,none⟩

def Entry.add (e : Entry α) (weight : ℚ) (k rank : ℕ) (normScore : ℚ) : Entry α :=
  { e with
    rrfScore := e.rrfScore+weight/(k+rank)
    contribution := e.contribution+weight*normScore*(1/100) }

abbrev Note (ι α : Type) := Hit ι α → ℕ → Entry α → Entry α

def noteVector : Note ι α := fun h rank e =>
  { e with item := h.item, vectorRank := some rank, vectorScore := some h.score }

def noteGraph : Note ι α := fun h rank e =>
  { e with graphRank := some rank, graphScore := some h.score }

def noteNone : Note ι α := fun _ _ e => e

def ranked (normalize : List ℚ → List ℚ) (results : List (Hit ι α)) : List ((Hit ι α × ℚ) × ℕ) :=
  (results.zip (normalize (results.map Hit.score))).zipIdx 1

def addHit (note : Note ι α) (k : ℕ) (weight : ℚ) (fused : Record ι (Entry α))
    (e : (Hit ι α × ℚ) × ℕ) : Record ι (Entry α) :=
  fused.set e.1.1.itemId (note e.1.1 e.2
    (((fused.get e.1.1.itemId).getD (Entry.fresh e.1.1.item)).add weight k e.2 e.1.2))

def addSource (normalize : List ℚ → List ℚ) (note : Note ι α) (k : ℕ)
    (fused : Record ι (Entry α)) (s : List (Hit ι α) × ℚ) : Record ι (Entry α) :=
  (ranked normalize s.1).foldl (addHit note k s.2) fused

def Entry.result (itemId : ι) (e : Entry α) : FusedResult ι α :=
  ⟨itemId,e.item,e.rrfScore+e.contribution,e.vectorRank,e.graphRank,e.vectorScore,
    e.graphScore⟩

def weightedRrfNormalized (vectorResults graphResults : List (Hit ι α)) (k : ℕ)
    (vectorWeight graphWeight : ℚ) : List (FusedResult ι α) :=
  let vector := addSource _minMaxNormalize noteVector k ∅ (vectorResults,vectorWeight)
  let fused := addSource _minMaxNormalize noteGraph k vector (graphResults,graphWeight)
  sortOn (fun r => OrderDual.toDual r.rrfScore) (fused.entries.map (fun e => e.2.result e.1))

def weightedRrfNlist (sources : List (List (Hit ι α) × ℚ)) (k : ℕ) : List (FusedResult ι α) :=
  let fused := sources.foldl (addSource _minMaxNormalize noteNone k) ∅
  sortOn (fun r => OrderDual.toDual r.rrfScore) (fused.entries.map (fun e => e.2.result e.1))

def hit (e : ι × ℚ) : Hit ι Unit := ⟨e.1,e.2,()⟩

def weightedRrfFallback (vectorResults graphResults : List (ι × ℚ)) (k : ℕ)
    (vectorWeight graphWeight : ℚ) : List (ι × ℚ) :=
  let vector := addSource normalizeScores noteNone k ∅
    (vectorResults.map hit,vectorWeight)
  let fused := addSource normalizeScores noteNone k vector
    (graphResults.map hit,graphWeight)
  sortOn (fun r => OrderDual.toDual r.2)
    (fused.entries.map (fun e => (e.1,e.2.rrfScore+e.2.contribution)))

def weightedRrfAccelerated (iter : Record ι (Entry Unit) → List (ι × Entry Unit))
    (vectorResults graphResults : List (ι × ℚ)) (k : ℕ) (vectorWeight graphWeight : ℚ) :
    List (ι × ℚ) :=
  let vector := addSource minMaxNormalize noteNone k ∅
    (vectorResults.map hit,vectorWeight)
  let fused := addSource minMaxNormalize noteNone k vector
    (graphResults.map hit,graphWeight)
  sortOn (fun r => OrderDual.toDual r.2)
    ((iter fused).map (fun e => (e.1,e.2.rrfScore+e.2.contribution)))

section Public

variable {σ : Type} [DecidableEq σ]

/-- The weights of the sources, over their sum. -/
def normalizedWeights (rankedLists : List (σ × List (α × ℚ))) (weights : Record σ ℚ) :
    List ℚ :=
  let totalWeight := (rankedLists.map (fun s => (weights.get s.1).getD 1)).sum
  if totalWeight = 0 then rankedLists.map (fun _ => 1/(rankedLists.length : ℚ))
  else rankedLists.map (fun s => (weights.get s.1).getD 1/totalWeight)

def converted (idExtractor : α → ι) (results : List (α × ℚ)) : List (Hit ι α) :=
  results.map (fun e => ⟨idExtractor e.1,e.2,e.1⟩)

/-- The last item of each id. -/
def itemsById (idExtractor : α → ι) (rankedLists : List (σ × List (α × ℚ))) : Record ι α :=
  (rankedLists.flatMap Prod.snd).foldl (fun items e => items.set (idExtractor e.1) e.1) ∅

def reciprocalRankFusion (rankedLists : Record σ (List (α × ℚ))) (k : ℕ)
    (weights : Option (Record σ ℚ)) (idExtractor : α → ι) : List (α × ℚ) :=
  let lists := rankedLists.entries.filter (fun s => !s.2.isEmpty)
  let shares := normalizedWeights lists (weights.getD ∅)
  let fused := weightedRrfNlist ((lists.map (fun s => converted idExtractor s.2)).zip shares) k
  let items := itemsById idExtractor lists
  fused.map (fun r => ((items.get r.itemId).getD r.item,r.rrfScore))

end Public

end Uru.Query.RankFusion
