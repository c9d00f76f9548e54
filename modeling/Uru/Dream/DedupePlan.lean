import Uru.Dream.Dedupe
import Uru.Lib.SortOn
import Uru.Lib.UnionFind
import Mathlib.Data.String.Basic

/-!
# The plan of the consolidation of duplicates

The planner lists the entities of a namespace, fills in the embeddings that the
listing lacks, sorts the entities and puts those with an embedding in one bucket
for each type. A kernel scores the pairs of a bucket whose names share a
blocking key, in an order of its own; the planner sorts the pairs, joins them
into components and turns each component into one operation, which the name of
an entity outside the component can turn into one for review.
-/

set_option autoImplicit false

namespace Uru.Dream.DedupePlan

open Uru.Storage Uru.Lib

abbrev Embedding := List ℚ

structure Candidate extends Entity where
  entityType : String
  embedding : Option Embedding
  deriving DecidableEq

namespace Candidate

/-- An absent and an empty embedding are both taken for none. -/
def embedded (e : Candidate) : Bool := (e.embedding.getD []).length ≠ 0

def vector (e : Candidate) : Embedding := e.embedding.getD []

def sortKey (e : Candidate) : String ×ₗ String ×ₗ UUID :=
  toLex (e.name, toLex (e.entityType, e.id))

end Candidate

/-- The entities of a namespace, in the order in which the store lists them. -/
structure Namespace where
  entities : List Candidate
  keys : (entities.map (fun e => e.id)).Nodup

def limit : ℕ := 100000

def Namespace.listEntities (ns : Namespace) (limit : ℕ) : List Candidate := ns.entities.take limit

/-- The embeddings that the vector store holds; `none` where there is no such
store or its read fails. -/
abbrev Fetched := Option (UUID → Option (Option Embedding))

def rejoin (fetched : UUID → Option (Option Embedding)) (e : Candidate) : Candidate :=
  if e.embedded then e
  else match fetched e.id with
    | some (some embedding) => { e with embedding := some embedding }
    | _ => e

def rejoinEmbeddings (fetched : Fetched) (entities : List Candidate) : List Candidate :=
  match fetched with
  | some fetched => entities.map (rejoin fetched)
  | none => entities

section Kernel

/-- What a scoring kernel computes with: the blocking keys of a name, the
similarity of two embeddings and the threshold in the kernel's own precision. -/
structure Scoring where
  keys : String → List String
  dot : Embedding → Embedding → ℚ
  rounded : ℚ → ℚ

def namePrefixKeys (isalnum : Char → Bool) (lower : Char → String) (name : String) :
    List String :=
  ((name.toList.splitBy (fun a b => isalnum a == isalnum b)).filter
    (fun token => token.all isalnum ∧ 2 ≤ token.length)).map
      (fun token => String.join ((token.take 3).map lower))

abbrev Pair := ℕ × ℕ × ℚ

variable (S : Scoring)

def inverted (names : List String) (k : String) : List ℕ :=
  (List.range names.length).filter (fun i => k ∈ S.keys (names.getD i ""))

def rowCandidates (names : List String) (i : ℕ) : List ℕ :=
  (List.range names.length).filter
    (fun j => i < j ∧ ∃ k ∈ S.keys (names.getD i ""), j ∈ inverted S names k)

def blockAndScorePairs (embeddings : List Embedding) (names : List String) (threshold : ℚ) :
    List Pair :=
  (List.range names.length).flatMap (fun i => (rowCandidates S names i).filterMap (fun j =>
    let sim := S.dot (embeddings.getD i []) (embeddings.getD j [])
    if S.rounded threshold ≤ sim then some (i,j,sim) else none))

/-- A kernel emits the scored pairs in whatever order it finishes them. -/
structure Kernel where
  pairs : List Embedding → List String → ℚ → List Pair
  scored : ∀ embeddings names threshold,
    (pairs embeddings names threshold).Perm (blockAndScorePairs S embeddings names threshold)

end Kernel

section Components

def pairKey (p : Pair) : ℕ ×ₗ ℕ := toLex (p.1, p.2.1)

def edges (pairs : List Pair) : List (ℕ × ℕ) := pairs.map (fun p => (p.1,p.2.1))

def touched (pairs : List Pair) : List ℕ :=
  sortOn id ((edges pairs).flatMap (fun p => [p.1,p.2])).dedup

def connectedComponents (pairs : List Pair) : List (List ℕ) :=
  let uf := (Forest.singletons ℕ).unions (edges pairs)
  sortOn (fun members => members.headD 0) (((touched pairs).map uf.root).dedup.map
    (fun r => (touched pairs).filter (fun i => uf.root i = r)))

def bestPairScores (pairs : List Pair) : List ((ℕ × ℕ) × ℚ) :=
  pairs.foldl (fun out p =>
    let key := if p.1 < p.2.1 then (p.1,p.2.1) else (p.2.1,p.1)
    (key,p.2.2)::out.filter (fun q => q.1 ≠ key)) []

end Components

inductive Outcome where
  | planned (similarityScore : ℚ) (merges : List MergeEntry)
  | skipUniqueCollision (collisionEntityId : UUID) (collisionName : String)

structure DreamOp where
  entityType : String
  threshold : ℚ
  keepId : UUID
  dropIds : List UUID
  survivingName : String
  componentSize : ℕ
  decision : Outcome

def DreamOp.memberIds (op : DreamOp) : List UUID := op.keepId::op.dropIds

/-- What the handler is given of an operation that is not for review. -/
def DreamOp.handed (opId : UUID) (op : DreamOp) : Option DedupeOp :=
  match op.decision with
  | .skipUniqueCollision _ _ => none
  | .planned _ merges =>
    if h : (∀ m ∈ merges, m.canonicalId = op.keepId) ∧
        (merges.map MergeEntry.absorbedId).Nodup ∧
        op.keepId ∉ merges.map MergeEntry.absorbedId then
      some
        { opId := opId
          canonicalId := op.keepId
          merges := merges
          one_canonical := h.1
          absorbed_once := h.2.1
          canonical_kept := h.2.2 }
    else none

section Operation

def pickCanonical (head : Candidate) (rest : List Candidate) : Candidate :=
  rest.foldl (fun a b => if rank b.toEntity < rank a.toEntity then b else a) head

def unionIds (ids : Candidate → List UUID) (members : List Candidate) : List UUID :=
  (members.flatMap ids).foldl (fun out id => if id ∈ out then out else out++[id]) []

/-- The operation of the members `head::rest`, at the indices `head_index::rest_indices`. -/
def buildComponentOp (entityType : String) (threshold : ℚ) (head : Candidate)
    (rest : List Candidate) (memberIndices : List ℕ) (bestScore : List ((ℕ × ℕ) × ℚ))
    (byNameType : List Candidate) : DreamOp :=
  let members := head::rest
  let canonical := pickCanonical head rest
  let absorbed := members.filter (fun m => m.id ≠ canonical.id)
  let index_of := fun id => ((members.map (fun m => m.id)).zip memberIndices).lookup id |>.getD 0
  let collision := (byNameType.filter
    (fun e => e.name = canonical.name ∧ e.entityType = entityType)).find?
      (fun e => e.id ∉ members.map (fun m => m.id))
  let entry := fun m : Candidate =>
    { canonicalId := canonical.id
      absorbedId := m.id
      similarityScore :=
        some (memberScore bestScore threshold (index_of canonical.id) (index_of m.id))
      canonicalName := canonical.name
      absorbedName := m.name
      entityType := entityType
      mergedSourceDocumentIds := unionIds (fun m => m.sourceDocumentIds) members
      mergedSourceChunkIds := unionIds (fun m => m.sourceChunkIds) members : MergeEntry }
  let merges := absorbed.map entry
  { entityType := entityType
    threshold := threshold
    keepId := canonical.id
    dropIds := absorbed.map (fun m => m.id)
    survivingName := canonical.name
    componentSize := members.length
    decision := match collision with
      | some e => .skipUniqueCollision e.id e.name
      | none =>
        .planned ((merges.filterMap MergeEntry.similarityScore).max?.getD threshold) merges }

end Operation

structure Config where
  defaultThreshold : ℚ
  perTypeThresholds : List (String × ℚ)

def Config.threshold (cfg : Config) (entityType : String) : ℚ :=
  (cfg.perTypeThresholds.lookup entityType).getD cfg.defaultThreshold

def sortedEntities (fetched : Fetched) (listed : List Candidate) : List Candidate :=
  sortOn Candidate.sortKey (rejoinEmbeddings fetched listed)

def buckets (entities : List Candidate) (entityType : String) : List Candidate :=
  (entities.filter Candidate.embedded).filter (fun e => e.entityType = entityType)

def entityTypes (entities : List Candidate) : List String :=
  sortOn id ((entities.filter Candidate.embedded).map (fun e => e.entityType)).dedup

section Plan

variable {S : Scoring} (K : Kernel S) (cfg : Config)

def bucketPairs (entities : List Candidate) (entityType : String) : List Pair :=
  sortOn pairKey (K.pairs ((buckets entities entityType).map Candidate.vector)
    ((buckets entities entityType).map (fun e => e.name)) (cfg.threshold entityType))

def componentOp (entities : List Candidate) (entityType : String) (pairs : List Pair)
    (memberIndices : List ℕ) : Option DreamOp :=
  match memberIndices.filterMap (fun i => (buckets entities entityType)[i]?) with
  | [] => none
  | head::rest => some (buildComponentOp entityType (cfg.threshold entityType) head rest
      memberIndices (bestPairScores pairs) entities)

def bucketOps (entities : List Candidate) (entityType : String) : List DreamOp :=
  if (buckets entities entityType).length < 2 then []
  else
    let pairs := bucketPairs K cfg entities entityType
    (connectedComponents pairs).filterMap (componentOp cfg entities entityType pairs)

def plan (fetched : Fetched) (listed : List Candidate) : List DreamOp :=
  let entities := sortedEntities fetched listed
  (entityTypes entities).flatMap (bucketOps K cfg entities)

end Plan

end Uru.Dream.DedupePlan
