import Mathlib.Data.List.FinRange
import Mathlib.Logic.Relation
import Mathlib.Tactic
import Uru.Accel.PageRank
import Uru.Lib.Ranking
import Uru.Lib.Record
import Uru.Lib.SortOn

/-!
# Retrieval by personalized PageRank

The entities that a query resolves to seed a walk over the entity graph of the
namespace; the chunks are then scored by the entities that mention them. A
listing of entities that hits its cap is augmented with the seeds and their
neighbors. No chunk comes from an entity that the relationships do not connect
to a seed, every seed that can be fetched stays in the graph, and the order of
the listings makes no difference to the scores of the entities.
-/

set_option autoImplicit false

namespace Uru.Query.PprRetrieval
open Uru.Lib Relation
open Uru.Accel.PageRank (pagerank)

abbrev UUID := ℕ

structure Entity where
  id : UUID
  sourceChunkIds : List UUID
deriving DecidableEq

structure Relationship where
  id : UUID
  sourceEntityId : UUID
  targetEntityId : UUID
  weight : ℚ
deriving DecidableEq

inductive Value (β : Type) where
  | null
  | number (q : ℚ)
  | other (b : β)

structure Chunk (β : Type) where
  id : UUID
  namespaceId : UUID
  documentId : UUID
  content : String
  metadata : Option (Record String (Value β))
  createdAt : Option ℤ

structure Degradation where
  component : String
  reason : String
  detail : String

structure PPRGraph where
  entities : List Entity
  entityIdToIdx : Record UUID ℕ
  edges : List (ℕ × ℕ × ℚ)

def entityIdToIdx (entities : List Entity) : Record UUID ℕ :=
  Record.ofList (entities.zipIdx.map (fun p => (p.1.id,p.2)))

/-- A seed without a place in the graph is dropped. -/
def seeded (idx : Record UUID ℕ) (vec : List ℚ) (e : UUID × ℚ) : List ℚ :=
  match idx.get e.1 with
  | none => vec
  | some i => vec.set i (max e.2 (1/1000000))

def buildPersonalizationVector (entryEntities : List (UUID × ℚ)) (idx : Record UUID ℕ) :
    List ℚ :=
  entryEntities.foldl (seeded idx) (List.replicate idx.entries.length 0)

def edgeWeight (weight : ℚ) : ℚ := if 0 < weight then weight else 1

/-- A relationship becomes an edge in both directions. -/
def edgesOf (idx : Record UUID ℕ) (r : UUID × UUID × ℚ) : List (ℕ × ℕ × ℚ) :=
  match idx.get r.1, idx.get r.2.1 with
  | some s, some t =>
    if s = t then [] else [(s,t,edgeWeight r.2.2),(t,s,edgeWeight r.2.2)]
  | _, _ => []

def buildPprGraph (entities : List Entity) (relationships : List (UUID × UUID × ℚ)) : PPRGraph :=
  let idx := entityIdToIdx entities
  ⟨entities,idx,relationships.flatMap (edgesOf idx)⟩

section Chunks

variable (entities : List Entity) (prScores : Fin entities.length → ℚ)

def ranked (topEntities : ℤ) : List (Fin entities.length) :=
  (sortOn (fun i => -prScores i) (List.finRange entities.length)).take (max 1 topEntities).toNat

def chunkScore (topEntities : ℤ) : Record UUID ℚ :=
  (ranked entities prScores topEntities).foldl (fun scores i =>
    let mass := prScores i
    if mass ≤ 0 then scores
    else (entities.get i).sourceChunkIds.foldl (fun scores cid =>
      scores.set cid ((scores.get cid).getD 0+mass)) scores) ∅

/-- Similarities that are missing or empty change nothing. -/
def blended (chunkSimilarity : Option (Record UUID ℚ)) (scores : Record UUID ℚ) :
    Record UUID ℚ :=
  match chunkSimilarity with
  | none => scores
  | some similarity =>
    if similarity.entries = [] then scores
    else scores.entries.foldl (fun r e =>
      r.set e.1 (e.2*(1+max 0 ((similarity.get e.1).getD 0)))) scores

def scoreChunksViaPpr (topEntities : ℤ) (chunkSimilarity : Option (Record UUID ℚ)) :
    List (UUID × ℚ) :=
  if entities = [] then []
  else
    sortOn (fun e => -e.2)
      (blended chunkSimilarity (chunkScore entities prScores topEntities)).entries

end Chunks

structure StorageCoordinator (β : Type) where
  listEntities : ℕ → List Entity
  listRelationships : ℕ → List Relationship
  /-- `none`: the call raises. -/
  getEntityRelationships : UUID → ℕ → Option (List Relationship)
  getEntitiesBatch : List UUID → Record UUID Entity
  getChunksBatch : List UUID → Record UUID (Chunk β)

def setdefault (r : Record UUID Entity) (k : UUID) (ent : Entity) : Record UUID Entity :=
  if k ∈ r.keys then r else r.set k ent

/-- The seeds, and the ends of their relationships that the listing lacks. -/
def fetchIds (seedIds sliceIds : List UUID) (neighborhoods : List (List Relationship)) :
    List UUID :=
  (neighborhoods.flatten.flatMap (fun r => [r.sourceEntityId,r.targetEntityId])).foldl
    (fun ids endpoint =>
      if endpoint ∈ ids ∨ endpoint ∈ sliceIds then ids else ids++[endpoint]) seedIds

def takeSeed (source t : Record UUID Entity) (sid : UUID) : Record UUID Entity :=
  match source.get sid with
  | none => t
  | some ent => t.set ent.id ent

/-- The seeds first, then what else was fetched, then the listing. -/
def byId (seedIds : List UUID) (fetched : Record UUID Entity) (entities : List Entity) :
    Record UUID Entity :=
  let seeds := seedIds.foldl (takeSeed fetched) ∅
  let fetched := fetched.values.foldl (fun r ent => setdefault r ent.id ent) seeds
  entities.foldl (fun r ent => setdefault r ent.id ent) fetched

def fill (bound : ℕ) : Record UUID Entity → List (UUID × Entity) → Record UUID Entity
  | trimmed, [] => trimmed
  | trimmed, e::es =>
    if bound ≤ trimmed.entries.length then trimmed else fill bound (setdefault trimmed e.1 e.2) es

def trim (bound : ℕ) (seedIds : List UUID) (r : Record UUID Entity) : Record UUID Entity :=
  if bound < r.entries.length then
    fill bound (seedIds.foldl (takeSeed r) ∅) r.entries
  else r

/-- Relationships by id, each once. -/
def mergedRelationships (relationships : List Relationship)
    (neighborhoods : List (List Relationship)) : List Relationship :=
  (neighborhoods.flatten.foldl (fun s r =>
    if r.id ∈ s.1 then s else (s.1++[r.id],s.2++[r]))
    (relationships.map Relationship.id,relationships)).2

section Retrieve

variable {β : Type} (storage : StorageCoordinator β) (entryEntities : List (UUID × ℚ))
  (neighborhoodPerSeedLimit maxNeighborhoodEntities : ℕ)

def seedIds : List UUID := firsts (entryEntities.map Prod.fst)

def neighborhoods : List (List Relationship) :=
  (seedIds entryEntities).map (fun sid =>
    (storage.getEntityRelationships sid neighborhoodPerSeedLimit).getD [])

def augmentWithSeedNeighborhood (entities : List Entity) (relationships : List Relationship) :
    List Entity × List Relationship :=
  let seeds := seedIds entryEntities
  let around := neighborhoods storage entryEntities neighborhoodPerSeedLimit
  let fetched := storage.getEntitiesBatch (fetchIds seeds (entities.map Entity.id) around)
  let effectiveBound := max maxNeighborhoodEntities entities.length
  ((trim effectiveBound seeds (byId seeds fetched entities)).values,
    mergedRelationships relationships around)

def MAX_ENTITIES_FOR_PPR : ℕ := 5000

def MAX_RELATIONSHIPS_FOR_PPR : ℕ := 50000

def graphRows : List Entity × List Relationship :=
  let entities := storage.listEntities MAX_ENTITIES_FOR_PPR
  let relationships := storage.listRelationships MAX_RELATIONSHIPS_FOR_PPR
  if MAX_ENTITIES_FOR_PPR ≤ entities.length ∨ MAX_RELATIONSHIPS_FOR_PPR ≤ relationships.length then
    augmentWithSeedNeighborhood storage entryEntities neighborhoodPerSeedLimit
      maxNeighborhoodEntities entities relationships
  else (entities,relationships)

def hydrated (chunk : Chunk β) (score : ℚ) : Chunk β :=
  { chunk with
    metadata := some (Record.ofList
      ([("occurred_at",(chunk.metadata.bind (fun m => m.get "occurred_at")).getD .null),
        ("ppr_score",.number score)]++chunk.metadata.elim [] Record.entries)) }

structure Outcome (β : Type) where
  results : List (UUID × ℚ × Chunk β)
  entityScores : Record UUID ℚ
  outDegradations : List Degradation

def degradation (reason detail : String) : Degradation := ⟨"vectorcypher.ppr",reason,detail⟩

structure Options where
  damping : ℚ
  maxIter : ℕ
  tol : ℚ
  topEntities : ℤ
  chunkSimilarity : Option (Record UUID ℚ)
  limit : ℕ
  neighborhoodPerSeedLimit : ℕ := 64
  maxNeighborhoodEntities : ℕ := 2000

def channel (o : Options) (entities : List Entity) (prScores : Fin entities.length → ℚ) :
    Outcome β :=
  let entityScores := Record.ofList ((List.finRange entities.length).map (fun i =>
    ((entities.get i).id,prScores i)))
  let rankedChunks := scoreChunksViaPpr entities prScores o.topEntities o.chunkSimilarity
  let chunkIds := (rankedChunks.take o.limit).map Prod.fst
  if chunkIds = [] then
    ⟨[],entityScores,[degradation "empty_graph_channel"
      ("PPR scored entities but none carried a source chunk; graph "++
        "channel returned no chunks — recall continues on the "++
        "vector-only path")]⟩
  else
    let chunksMap := storage.getChunksBatch chunkIds
    let scoreMap := Record.ofList rankedChunks
    let results := chunkIds.filterMap (fun cid =>
      (chunksMap.get cid).map (fun chunk =>
        let score := (scoreMap.get cid).getD 0
        (cid,score,hydrated chunk score)))
    ⟨results,entityScores,
      if results = [] then [degradation "chunk_hydration_empty"
        ("PPR scored "++toString chunkIds.length++" chunk ids but hydration returned 0 "++
          "results — chunk store / entity-graph mismatch; recall continues "++
          "on the vector-only path")]
      else []⟩

def retrieve (o : Options) (entities : List Entity) (relationships : List Relationship) :
    Outcome β :=
  let graph := buildPprGraph entities (relationships.map (fun r =>
    (r.sourceEntityId,r.targetEntityId,r.weight)))
  let personalization := buildPersonalizationVector entryEntities graph.entityIdToIdx
  if personalization.sum ≤ 0 then
    ⟨[],∅,[degradation "no_seed_overlap"
      ("no query seed entity survived into the PPR graph after seed "++
        "augmentation; graph channel returned nothing — recall continues "++
        "on the vector-only path")]⟩
  else
    channel storage o entities (pagerank entities.length graph.edges o.damping o.maxIter o.tol
      (some personalization))

def pprRetrieveChunks (o : Options) : Outcome β :=
  if entryEntities = [] then ⟨[],∅,[]⟩
  else if storage.listEntities MAX_ENTITIES_FOR_PPR = [] then ⟨[],∅,[]⟩
  else
    let rows := graphRows storage entryEntities o.neighborhoodPerSeedLimit
      o.maxNeighborhoodEntities
    retrieve storage entryEntities o rows.1 rows.2

end Retrieve

section Index

variable {entities : List Entity}

theorem index_entries (h : (entities.map Entity.id).Nodup) :
    (entityIdToIdx entities).entries = entities.zipIdx.map (fun p => (p.1.id,p.2)) := by
  have hkeys : (entities.zipIdx.map (fun p => (p.1.id,p.2))).map Prod.fst =
      entities.map Entity.id := by
    rw [List.map_map, ← List.zipIdx_map_fst 0 entities, List.map_map, List.zipIdx_map_fst]
    rfl
  apply (Record.foldl_set_entries _ _ _).trans (List.nil_append _)
  rw [List.map_append, hkeys]
  exact h

theorem index_length (h : (entities.map Entity.id).Nodup) :
    (entityIdToIdx entities).entries.length = entities.length := by
  rw [index_entries h, List.length_map, List.length_zipIdx]

theorem index_get (h : (entities.map Entity.id).Nodup) (k : UUID) (i : ℕ) :
    (entityIdToIdx entities).get k = some i ↔
      ∃ hi : i < entities.length, (entities[i]).id = k := by
  rw [← Record.mem_entries, index_entries h, List.mem_map]
  constructor
  · rintro ⟨⟨e, j⟩, hmem, heq⟩
    cases heq
    obtain ⟨hi, he⟩ := List.getElem?_eq_some_iff.mp (List.mem_zipIdx_iff_getElem?.mp hmem)
    exact ⟨hi, congrArg Entity.id he⟩
  · rintro ⟨hi, rfl⟩
    exact ⟨(entities[i],i),
      List.mem_zipIdx_iff_getElem?.mpr (List.getElem?_eq_getElem hi), rfl⟩

/-- The entities of the graph are told apart by their places. -/
theorem index_of (h : (entities.map Entity.id).Nodup) (i : Fin entities.length) :
    (entityIdToIdx entities).get (entities.get i).id = some i :=
  (index_get h _ _).mpr ⟨i.isLt, rfl⟩

end Index

section Seeds

variable (entries : List (UUID × ℚ)) (idx : Record UUID ℕ)

theorem seeded_length (vec : List ℚ) (e : UUID × ℚ) :
    (seeded idx vec e).length = vec.length := by
  unfold seeded
  split
  · rfl
  · exact List.length_set

theorem seeds_length :
    (buildPersonalizationVector entries idx).length = idx.entries.length := by
  have h : ∀ vec : List ℚ, (entries.foldl (seeded idx) vec).length = vec.length := by
    induction entries with
    | nil => exact fun vec => rfl
    | cons e entries ih => exact fun vec => (ih _).trans (seeded_length idx vec e)
  rw [buildPersonalizationVector, h, List.length_replicate]

theorem seeded_getD (vec : List ℚ) (e : UUID × ℚ) (i : ℕ) :
    (seeded idx vec e).getD i 0 =
      if idx.get e.1 = some i ∧ i < vec.length then max e.2 (1/1000000) else vec.getD i 0 := by
  unfold seeded
  cases hidx : idx.get e.1 with
  | none => simp
  | some j =>
    rw [List.getD_eq_getElem?_getD, List.getElem?_set, List.getD_eq_getElem?_getD]
    by_cases hj : j = i
    · subst hj
      by_cases hlt : j < vec.length
      · simp [hlt]
      · simp [hlt]
    · simp [hj]

/-- The seeds have their place in the vector, and nothing else has. -/
theorem seeds_pos (i : ℕ) :
    (0 < (buildPersonalizationVector entries idx).getD i 0 ↔
      i < idx.entries.length ∧ ∃ e ∈ entries, idx.get e.1 = some i) ∧
    0 ≤ (buildPersonalizationVector entries idx).getD i 0 := by
  have h : ∀ vec : List ℚ, 0 ≤ vec.getD i 0 →
      (0 < (entries.foldl (seeded idx) vec).getD i 0 ↔
        0 < vec.getD i 0 ∨ i < vec.length ∧ ∃ e ∈ entries, idx.get e.1 = some i) ∧
      0 ≤ (entries.foldl (seeded idx) vec).getD i 0 := by
    induction entries with
    | nil => exact fun vec hvec => ⟨by simp, hvec⟩
    | cons e entries ih =>
      intro vec hvec
      have hmax : 0 < max e.2 (1/1000000) := lt_max_of_lt_right (by norm_num)
      have hvec' : 0 ≤ (seeded idx vec e).getD i 0 := by
        rw [seeded_getD]
        split_ifs
        · exact hmax.le
        · exact hvec
      obtain ⟨hpos, hnonneg⟩ := ih _ hvec'
      refine ⟨hpos.trans ?_, hnonneg⟩
      rw [seeded_length, seeded_getD]
      simp only [List.mem_cons, exists_eq_or_imp]
      split_ifs with hj
      · simp [hj.1, hj.2]
      · constructor
        · rintro (h | ⟨hlt, h⟩)
          · exact Or.inl h
          · exact Or.inr ⟨hlt, Or.inr h⟩
        · rintro (h | ⟨hlt, h | h⟩)
          · exact Or.inl h
          · exact absurd ⟨h, hlt⟩ hj
          · exact Or.inr ⟨hlt, h⟩
  have hzero : (List.replicate idx.entries.length (0 : ℚ)).getD i 0 = 0 := by
    rw [List.getD_eq_getElem?_getD, List.getElem?_replicate]
    split_ifs <;> rfl
  have hvec := h (List.replicate idx.entries.length 0) hzero.ge
  rw [hzero, List.length_replicate] at hvec
  rw [buildPersonalizationVector]
  simpa only [lt_irrefl, false_or] using hvec

theorem seeds_nonneg : ∀ x ∈ buildPersonalizationVector entries idx, 0 ≤ x := by
  intro x hx
  obtain ⟨i, hi, rfl⟩ := List.getElem_of_mem hx
  have h := (seeds_pos entries idx i).2
  rwa [List.getD_eq_getElem?_getD, List.getElem?_eq_getElem hi] at h

/-- The vector vanishes when no seed is in the graph, and only then. -/
theorem seeds_sum_pos (hidx : ∀ k i, idx.get k = some i → i < idx.entries.length) :
    0 < (buildPersonalizationVector entries idx).sum ↔ ∃ e ∈ entries, e.1 ∈ idx.keys := by
  have hnonneg := seeds_nonneg entries idx
  constructor
  · intro h
    by_contra hnone
    have hzero : (buildPersonalizationVector entries idx).sum = 0 := by
      apply List.sum_eq_zero
      intro x hx
      obtain ⟨i, hi, rfl⟩ := List.getElem_of_mem hx
      have hpos := (seeds_pos entries idx i).1
      rw [List.getD_eq_getElem?_getD, List.getElem?_eq_getElem hi, Option.getD_some] at hpos
      refine le_antisymm (not_lt.mp (fun hlt => hnone ?_)) (hnonneg _ hx)
      obtain ⟨-, e, he, hget⟩ := hpos.mp hlt
      exact ⟨e, he, (idx.mem_keys e.1).mpr (by rw [hget]; rfl)⟩
    exact h.ne' hzero
  · rintro ⟨e, he, hmem⟩
    obtain ⟨i, hi⟩ := Option.isSome_iff_exists.mp ((idx.mem_keys e.1).mp hmem)
    have hpos := (seeds_pos entries idx i).1.mpr ⟨hidx _ _ hi, e, he, hi⟩
    have hlt : i < (buildPersonalizationVector entries idx).length := by
      rw [seeds_length]
      exact hidx _ _ hi
    rw [List.getD_eq_getElem?_getD, List.getElem?_eq_getElem hlt, Option.getD_some] at hpos
    exact hpos.trans_le (List.single_le_sum hnonneg _ (List.getElem_mem hlt))

end Seeds

section Connected

variable {entities : List Entity} {relationships : List Relationship}

/-- A relationship leads from the one entity to the other, in either direction. -/
def Linked (entities : List Entity) (relationships : List Relationship) (a b : UUID) : Prop :=
  b ∈ entities.map Entity.id ∧ ∃ r ∈ relationships,
    r.sourceEntityId = a ∧ r.targetEntityId = b ∨
      r.targetEntityId = a ∧ r.sourceEntityId = b

def SeedConnected (entryEntities : List (UUID × ℚ)) (entities : List Entity)
    (relationships : List Relationship) (k : UUID) : Prop :=
  ∃ e ∈ entryEntities, e.1 ∈ entities.map Entity.id ∧
    ReflTransGen (Linked entities relationships) e.1 k

def triples (relationships : List Relationship) : List (UUID × UUID × ℚ) :=
  relationships.map (fun r => (r.sourceEntityId,r.targetEntityId,r.weight))

theorem edgeWeight_pos (weight : ℚ) : 0 < edgeWeight weight := by
  unfold edgeWeight
  split_ifs with h
  · exact h
  · exact one_pos

theorem mem_edgesOf {idx : Record UUID ℕ} {r : UUID × UUID × ℚ} {e : ℕ × ℕ × ℚ}
    (h : e ∈ edgesOf idx r) : 0 < e.2.2 ∧
      (idx.get r.1 = some e.1 ∧ idx.get r.2.1 = some e.2.1 ∨
        idx.get r.1 = some e.2.1 ∧ idx.get r.2.1 = some e.1) := by
  unfold edgesOf at h
  split at h
  · next s t hs ht =>
    split_ifs at h
    · cases h
    · simp only [List.mem_cons, List.not_mem_nil, or_false] at h
      obtain rfl | rfl := h
      · exact ⟨edgeWeight_pos r.2.2, Or.inl ⟨hs, ht⟩⟩
      · exact ⟨edgeWeight_pos r.2.2, Or.inr ⟨hs, ht⟩⟩
  · cases h

theorem edges_pos (entities : List Entity) (rs : List (UUID × UUID × ℚ)) :
    ∀ e ∈ (buildPprGraph entities rs).edges, 0 ≤ e.2.2 := by
  intro e he
  obtain ⟨r, -, hr⟩ := List.mem_flatMap.mp he
  exact (mem_edgesOf hr).1.le

/-- An edge of the graph is a relationship between the entities at its ends. -/
theorem edge_linked (h : (entities.map Entity.id).Nodup) {a b : Fin entities.length} {w : ℚ}
    (he : (a.val,b.val,w) ∈ (buildPprGraph entities (triples relationships)).edges) :
    Linked entities relationships (entities.get a).id (entities.get b).id := by
  obtain ⟨t, ht, hmem⟩ := List.mem_flatMap.mp he
  obtain ⟨r, hr, rfl⟩ := List.mem_map.mp ht
  have hname : ∀ (k : UUID) (i : Fin entities.length),
      (entityIdToIdx entities).get k = some i.val → k = (entities.get i).id := by
    intro k i hk
    obtain ⟨hi, hid⟩ := (index_get h k i).mp hk
    exact hid.symm
  refine ⟨List.mem_map_of_mem (List.get_mem entities b), r, hr, ?_⟩
  obtain ⟨h1, h2⟩ | ⟨h1, h2⟩ := (mem_edgesOf hmem).2
  · exact Or.inl ⟨hname _ a h1, hname _ b h2⟩
  · exact Or.inr ⟨hname _ a h2, hname _ b h1⟩

variable {entryEntities : List (UUID × ℚ)}

theorem index_bound (h : (entities.map Entity.id).Nodup) (k : UUID) (i : ℕ)
    (hk : (entityIdToIdx entities).get k = some i) :
    i < (entityIdToIdx entities).entries.length := by
  rw [index_length h]
  exact ((index_get h k i).mp hk).choose

theorem mem_index (h : (entities.map Entity.id).Nodup) (k : UUID) :
    k ∈ (entityIdToIdx entities).keys ↔ k ∈ entities.map Entity.id := by
  rw [Record.mem_keys, Option.isSome_iff_exists, List.mem_map]
  constructor
  · rintro ⟨i, hi⟩
    obtain ⟨hlt, hid⟩ := (index_get h k i).mp hi
    exact ⟨_, List.getElem_mem hlt, hid⟩
  · rintro ⟨e, he, rfl⟩
    obtain ⟨i, hi, rfl⟩ := List.getElem_of_mem he
    exact ⟨i, (index_get h _ i).mpr ⟨hi, rfl⟩⟩

/-- The seeds' distribution, once some seed is in the graph. -/
theorem teleport_seeds (h : (entities.map Entity.id).Nodup)
    (hsum : 0 < (buildPersonalizationVector entryEntities (entityIdToIdx entities)).sum)
    (i : Fin entities.length) :
    0 < Accel.PageRank.teleport entities.length
        (some (buildPersonalizationVector entryEntities (entityIdToIdx entities))) i ↔
      (entities.get i).id ∈ entryEntities.map Prod.fst := by
  have hlen : (buildPersonalizationVector entryEntities (entityIdToIdx entities)).length =
      entities.length := by rw [seeds_length, index_length h]
  rw [Accel.PageRank.teleport_given hlen (seeds_nonneg entryEntities _) hsum,
    div_pos_iff_of_pos_right hsum, (seeds_pos entryEntities _ i).1, index_length h, List.mem_map]
  constructor
  · rintro ⟨-, e, he, hget⟩
    obtain ⟨hi, hid⟩ := (index_get h e.1 i).mp hget
    exact ⟨e, he, hid.symm⟩
  · rintro ⟨e, he, hid⟩
    exact ⟨i.isLt, e, he, hid ▸ index_of h i⟩

/-- An entity that scores is connected to a seed. -/
theorem scored_connected (h : (entities.map Entity.id).Nodup)
    (hsum : 0 < (buildPersonalizationVector entryEntities (entityIdToIdx entities)).sum)
    (damping : ℚ) (maxIter : ℕ) (tol : ℚ) {i : Fin entities.length}
    (hi : pagerank entities.length (buildPprGraph entities (triples relationships)).edges damping
      maxIter tol
      (some (buildPersonalizationVector entryEntities (entityIdToIdx entities))) i ≠ 0) :
    SeedConnected entryEntities entities relationships (entities.get i).id := by
  have hreached := not_imp_comm.mp
    (Accel.PageRank.unreached_zero (edges_pos entities (triples relationships)) damping maxIter tol
      (some (buildPersonalizationVector entryEntities (entityIdToIdx entities)))) hi
  obtain ⟨s, hs, hpath⟩ := hreached
  obtain ⟨e, he, hid⟩ := List.mem_map.mp ((teleport_seeds h hsum s).mp hs)
  refine ⟨e, he, hid ▸ List.mem_map_of_mem (List.get_mem entities s), ?_⟩
  rw [hid]
  clear hi
  induction hpath with
  | refl => exact ReflTransGen.refl
  | tail _ hstep ih =>
    obtain ⟨w, -, hw⟩ := hstep
    exact ih.tail (edge_linked h (Accel.PageRank.mem_kept.mp hw))

end Connected

section Scores

variable (entities : List Entity) (prScores : Fin entities.length → ℚ)

def massFor (cid : UUID) (i : Fin entities.length) : ℚ :=
  if prScores i ≤ 0 then 0 else (entities.get i).sourceChunkIds.count cid*prScores i

theorem add_mass (mass : ℚ) (cids : List UUID) (scores : Record UUID ℚ) (cid : UUID) :
    (cid ∈ (cids.foldl (fun scores cid =>
        scores.set cid ((scores.get cid).getD 0+mass)) scores).keys ↔
      cid ∈ scores.keys ∨ cid ∈ cids) ∧
    ((cids.foldl (fun scores cid =>
        scores.set cid ((scores.get cid).getD 0+mass)) scores).get cid).getD 0 =
      (scores.get cid).getD 0+cids.count cid*mass := by
  induction cids generalizing scores with
  | nil => simp
  | cons c cids ih =>
    obtain ⟨hkeys, hget⟩ := ih (scores.set c ((scores.get c).getD 0+mass))
    rw [List.foldl_cons]
    constructor
    · rw [hkeys, Record.mem_keys, Record.mem_keys, Record.get_set, List.mem_cons]
      split_ifs with h
      · simp [h]
      · simp [h]
    · rw [hget, Record.get_set, List.count_cons]
      by_cases h : cid = c
      · subst h
        simp
        ring
      · rw [if_neg h, if_neg (by simpa using Ne.symm h), add_zero]

theorem chunkScore_spec (topEntities : ℤ) (cid : UUID) :
    (cid ∈ (chunkScore entities prScores topEntities).keys ↔
      ∃ i ∈ ranked entities prScores topEntities, 0 < prScores i ∧
        cid ∈ (entities.get i).sourceChunkIds) ∧
    ((chunkScore entities prScores topEntities).get cid).getD 0 =
      ((ranked entities prScores topEntities).map (massFor entities prScores cid)).sum := by
  have h : ∀ (is : List (Fin entities.length)) (scores : Record UUID ℚ),
      (cid ∈ (is.foldl (fun scores i =>
          if prScores i ≤ 0 then scores
          else (entities.get i).sourceChunkIds.foldl (fun scores cid =>
            scores.set cid ((scores.get cid).getD 0+prScores i)) scores) scores).keys ↔
        cid ∈ scores.keys ∨ ∃ i ∈ is, 0 < prScores i ∧
          cid ∈ (entities.get i).sourceChunkIds) ∧
      ((is.foldl (fun scores i =>
          if prScores i ≤ 0 then scores
          else (entities.get i).sourceChunkIds.foldl (fun scores cid =>
            scores.set cid ((scores.get cid).getD 0+prScores i)) scores) scores).get cid).getD 0 =
        (scores.get cid).getD 0+(is.map (massFor entities prScores cid)).sum := by
    intro is
    induction is with
    | nil => simp
    | cons i is ih =>
      intro scores
      rw [List.foldl_cons]
      by_cases hmass : prScores i ≤ 0
      · rw [if_pos hmass, (ih scores).1, (ih scores).2]
        simp [massFor, hmass, not_lt.mpr hmass]
      · obtain ⟨hkeys, hget⟩ := add_mass (prScores i) (entities.get i).sourceChunkIds scores cid
        rw [if_neg hmass, (ih _).1, (ih _).2, hkeys, hget]
        constructor
        · simp only [List.mem_cons, exists_eq_or_imp, not_le.mp hmass, true_and, or_assoc]
        · rw [List.map_cons, List.sum_cons, massFor, if_neg hmass, add_assoc]
  have hall := h (ranked entities prScores topEntities) ∅
  simp only [Record.mem_keys, Record.get_empty, Option.isSome_none, Bool.false_eq_true, false_or,
    Option.getD_none, zero_add] at hall
  rw [Record.mem_keys]
  exact hall

def blend (chunkSimilarity : Option (Record UUID ℚ)) (cid : UUID) : ℚ :=
  1+max 0 ((chunkSimilarity.bind (fun s => s.get cid)).getD 0)

theorem blend_pos (chunkSimilarity : Option (Record UUID ℚ)) (cid : UUID) :
    0 < blend chunkSimilarity cid :=
  add_pos_of_pos_of_nonneg one_pos (le_max_left _ _)

theorem get_foldl_set (f : UUID × ℚ → ℚ) (es : List (UUID × ℚ)) (hn : (es.map Prod.fst).Nodup)
    (r : Record UUID ℚ) (k : UUID) :
    (es.foldl (fun r e => r.set e.1 (f e)) r).get k =
      (find es k).elim (r.get k) (fun v => some (f (k,v))) := by
  induction es generalizing r with
  | nil => rfl
  | cons e es ih =>
    obtain ⟨c, v⟩ := e
    obtain ⟨hnew, hn⟩ := List.nodup_cons.mp hn
    rw [List.foldl_cons, ih hn, Record.get_set]
    by_cases hk : k = c
    · subst hk
      have hnone : find es k = none := by
        rw [← Option.not_isSome_iff_eq_none, find_isSome]
        exact hnew
      rw [hnone]
      simp [find]
    · have hfind : find ((c,v)::es) k = find es k := by simp [find, Ne.symm hk]
      rw [hfind, if_neg hk]

theorem blended_get (chunkSimilarity : Option (Record UUID ℚ)) (scores : Record UUID ℚ)
    (cid : UUID) : (blended chunkSimilarity scores).get cid =
      (scores.get cid).map (fun base => base*blend chunkSimilarity cid) := by
  cases chunkSimilarity with
  | none => simp [blended, blend]
  | some similarity =>
    rw [blended]
    split_ifs with hempty
    · have hnone : similarity.get cid = none := by rw [Record.get, hempty]; rfl
      simp [blend, hnone]
    · rw [get_foldl_set _ _ scores.nodup, ← Record.get]
      cases hget : scores.get cid with
      | none => rfl
      | some base => simp [blend]

theorem mass_nonneg (cid : UUID) (i : Fin entities.length) :
    0 ≤ massFor entities prScores cid i := by
  unfold massFor
  split_ifs with h
  · exact le_rfl
  · exact mul_nonneg (Nat.cast_nonneg _) (not_le.mp h).le

theorem mass_pos {cid : UUID} {i : Fin entities.length} (hi : 0 < prScores i)
    (hcid : cid ∈ (entities.get i).sourceChunkIds) : 0 < massFor entities prScores cid i := by
  rw [massFor, if_neg (not_le.mpr hi)]
  exact mul_pos (Nat.cast_pos.mpr (List.count_pos_iff.mpr hcid)) hi

/-- Where no entity is cut off, all of them count. -/
theorem ranked_whole {topEntities : ℤ} (h : (entities.length : ℤ) ≤ topEntities) :
    (ranked entities prScores topEntities).Perm (List.finRange entities.length) := by
  unfold ranked
  rw [List.take_of_length_le]
  · exact sortOn_perm _ _
  · rw [(sortOn_perm _ _).length_eq, List.length_finRange]
    omega

theorem score_chunks_perm (topEntities : ℤ) (chunkSimilarity : Option (Record UUID ℚ)) :
    (scoreChunksViaPpr entities prScores topEntities chunkSimilarity).Perm
      (blended chunkSimilarity (chunkScore entities prScores topEntities)).entries := by
  unfold scoreChunksViaPpr
  split_ifs with hempty
  · subst hempty
    have hnone : chunkScore [] prScores topEntities = ∅ := by
      simp [chunkScore, ranked, sortOn]
    rw [hnone]
    cases chunkSimilarity with
    | none => exact List.Perm.refl _
    | some similarity =>
      rw [blended]
      split_ifs
      · exact List.Perm.refl _
      · exact List.Perm.refl _
  · exact sortOn_perm _ _

/-- A chunk is listed with its blended mass, once, by falling scores. -/
theorem score_chunks_spec (topEntities : ℤ) (chunkSimilarity : Option (Record UUID ℚ)) :
    ((scoreChunksViaPpr entities prScores topEntities chunkSimilarity).map
      Prod.fst).Nodup ∧
    (scoreChunksViaPpr entities prScores topEntities chunkSimilarity).Pairwise
      (fun a b => b.2 ≤ a.2) ∧
    ∀ e ∈ scoreChunksViaPpr entities prScores topEntities chunkSimilarity,
      (∃ i ∈ ranked entities prScores topEntities, 0 < prScores i ∧
        e.1 ∈ (entities.get i).sourceChunkIds) ∧
      e.2 = ((ranked entities prScores topEntities).map
        (massFor entities prScores e.1)).sum*blend chunkSimilarity e.1 := by
  have hperm := score_chunks_perm entities prScores topEntities chunkSimilarity
  refine ⟨(hperm.map Prod.fst).nodup_iff.mpr (Record.nodup _), ?_, ?_⟩
  · unfold scoreChunksViaPpr
    split_ifs
    · exact List.Pairwise.nil
    · exact (sortOn_pairwise _ _).imp (fun h => neg_le_neg_iff.mp h)
  · rintro ⟨cid, x⟩ he
    have hget := (Record.mem_entries _ cid x).mp (hperm.mem_iff.mp he)
    rw [blended_get, Option.map_eq_some_iff] at hget
    obtain ⟨base, hbase, rfl⟩ := hget
    obtain ⟨hkeys, hsum⟩ := chunkScore_spec entities prScores topEntities cid
    rw [hbase, Option.getD_some] at hsum
    exact ⟨hkeys.mp (by rw [Record.mem_keys, hbase]; rfl), by rw [hsum]⟩

end Scores

section Augment

def Keyed (r : Record UUID Entity) : Prop := ∀ k ent, r.get k = some ent → ent.id = k

variable {r t : Record UUID Entity} {k : UUID} {ent : Entity}

theorem keyed_values (h : Keyed r) : r.values.map Entity.id = r.keys := by
  unfold Record.values Record.keys
  rw [List.map_map]
  exact List.map_congr_left (fun e he => h e.1 e.2 ((r.mem_entries e.1 e.2).mp he))

theorem keyed_set (h : Keyed r) (ent : Entity) : Keyed (r.set ent.id ent) := by
  intro k ent' hget
  rw [Record.get_set] at hget
  split_ifs at hget with hk
  · rw [hk, Option.some.inj hget]
  · exact h k ent' hget

theorem keyed_setdefault (h : Keyed r) (ent : Entity) : Keyed (setdefault r ent.id ent) := by
  unfold setdefault
  split_ifs
  · exact h
  · exact keyed_set h ent

theorem mem_keys_set : k ∈ (r.set ent.id ent).keys ↔ k = ent.id ∨ k ∈ r.keys := by
  rw [Record.mem_keys, Record.mem_keys, Record.get_set]
  split_ifs with h
  · simp [h]
  · simp [h]

theorem mem_keys_setdefault (c : UUID) :
    k ∈ (setdefault r c ent).keys ↔ k = c ∨ k ∈ r.keys := by
  unfold setdefault
  split_ifs with h
  · constructor
    · exact Or.inr
    · rintro (rfl | hk)
      · exact h
      · exact hk
  · rw [Record.mem_keys, Record.mem_keys, Record.get_set]
    split_ifs with hk
    · simp [hk]
    · simp [hk]

theorem keyed_empty : Keyed ∅ := fun _ _ h => by cases h

theorem takeSeed_spec (source : Record UUID Entity) (sid : UUID) (ht : Keyed t) :
    Keyed (takeSeed source t sid) ∧
    (∀ k, k ∈ (takeSeed source t sid).keys ↔
      k ∈ t.keys ∨ ∃ ent, source.get sid = some ent ∧ ent.id = k) ∧
    (takeSeed source t sid).keys.length ≤ t.keys.length+1 := by
  unfold takeSeed
  cases hget : source.get sid with
  | none => exact ⟨ht, by simp, Nat.le_succ _⟩
  | some ent =>
    refine ⟨keyed_set ht ent, fun k => ?_, ?_⟩
    · simp only [mem_keys_set, Option.some.injEq, exists_eq_left']
      rw [or_comm, eq_comm]
    · simp only [keys_set]
      split_ifs
      · exact Nat.le_succ _
      · rw [List.length_append]
        exact le_rfl

/-- The seeds that a record holds, under their ids. -/
theorem fold_seeds (source : Record UUID Entity) (sids : List UUID) (ht : Keyed t) :
    Keyed (sids.foldl (takeSeed source) t) ∧
    (∀ k, k ∈ (sids.foldl (takeSeed source) t).keys ↔
      k ∈ t.keys ∨ ∃ sid ∈ sids, ∃ ent, source.get sid = some ent ∧ ent.id = k) ∧
    (sids.foldl (takeSeed source) t).keys.length ≤ t.keys.length+sids.length := by
  induction sids generalizing t with
  | nil => exact ⟨ht, by simp, le_rfl⟩
  | cons sid sids ih =>
    obtain ⟨hseed, hmem, hone⟩ := takeSeed_spec source sid ht
    obtain ⟨hkeyed, hkeys, hlen⟩ := ih hseed
    rw [List.foldl_cons, List.length_cons]
    refine ⟨hkeyed, fun k => ?_, by omega⟩
    rw [hkeys, hmem, or_assoc]
    simp only [List.mem_cons, exists_eq_or_imp]

theorem fold_setdefault (ents : List Entity) (ht : Keyed t) :
    Keyed (ents.foldl (fun r ent => setdefault r ent.id ent) t) ∧
    ∀ k, k ∈ (ents.foldl (fun r ent => setdefault r ent.id ent) t).keys ↔
      k ∈ t.keys ∨ k ∈ ents.map Entity.id := by
  induction ents generalizing t with
  | nil => exact ⟨ht, by simp⟩
  | cons ent ents ih =>
    obtain ⟨hkeyed, hkeys⟩ := ih (keyed_setdefault ht ent)
    refine ⟨hkeyed, fun k => ?_⟩
    rw [List.foldl_cons, hkeys, mem_keys_setdefault, List.map_cons, List.mem_cons]
    tauto

/-- The record holds the seeds that were fetched under their ids, and the listing. -/
theorem byId_spec (sids : List UUID) (fetched : Record UUID Entity) (entities : List Entity) :
    Keyed (byId sids fetched entities) ∧
    (∀ sid ∈ sids, ∀ ent, fetched.get sid = some ent → ent.id = sid →
      sid ∈ (byId sids fetched entities).keys) ∧
    ∀ k ∈ entities.map Entity.id, k ∈ (byId sids fetched entities).keys := by
  obtain ⟨hkeyed, hseeds, -⟩ := fold_seeds fetched sids keyed_empty
  obtain ⟨hkeyed', hfetched⟩ := fold_setdefault fetched.values hkeyed
  obtain ⟨hkeyed'', hall⟩ := fold_setdefault entities hkeyed'
  refine ⟨hkeyed'', fun sid hsid ent hget hid => ?_, fun k hk => ?_⟩
  · exact (hall sid).mpr (Or.inl ((hfetched sid).mpr (Or.inl ((hseeds sid).mpr
      (Or.inr ⟨sid, hsid, ent, hget, hid⟩)))))
  · exact (hall k).mpr (Or.inr hk)

theorem keys_length (r : Record UUID Entity) : r.keys.length = r.entries.length := List.length_map _

/-- Filling keeps what is there, and stops at the bound or takes everything. -/
theorem fill_spec (bound : ℕ) (es : List (UUID × Entity)) (hes : ∀ e ∈ es, e.2.id = e.1)
    (ht : Keyed t) :
    Keyed (fill bound t es) ∧ (∀ k ∈ t.keys, k ∈ (fill bound t es).keys) ∧
    (fill bound t es).keys.length ≤ max bound t.keys.length ∧
    (bound ≤ (fill bound t es).keys.length ∨ ∀ e ∈ es, e.1 ∈ (fill bound t es).keys) := by
  induction es generalizing t with
  | nil => exact ⟨ht, fun k hk => hk, le_max_right _ _, Or.inr (by simp)⟩
  | cons e es ih =>
    rw [fill, ← keys_length]
    split_ifs with hbound
    · exact ⟨ht, fun k hk => hk, le_max_right _ _, Or.inl hbound⟩
    · have hid : e.2.id = e.1 := hes e List.mem_cons_self
      have hkeyed : Keyed (setdefault t e.1 e.2) := hid ▸ keyed_setdefault ht e.2
      obtain ⟨h1, h2, h3, h4⟩ := ih (fun e' he' => hes e' (List.mem_cons_of_mem e he')) hkeyed
      have hlen : (setdefault t e.1 e.2).keys.length ≤ t.keys.length+1 := by
        unfold setdefault
        split_ifs with hmem
        · omega
        · rw [keys_set, if_neg hmem, List.length_append]
          exact le_rfl
      refine ⟨h1, fun k hk => h2 k ((mem_keys_setdefault e.1).mpr (Or.inr hk)), by omega, ?_⟩
      refine h4.imp_right (fun hall e' he' => ?_)
      obtain rfl | he' := List.mem_cons.mp he'
      · exact h2 _ ((mem_keys_setdefault e'.1).mpr (Or.inl rfl))
      · exact hall e' he'

/-- Trimming keeps the seeds, and at least as many entities as the bound allows. -/
theorem trim_spec (bound : ℕ) (sids : List UUID) (hr : Keyed r) :
    Keyed (trim bound sids r) ∧ (∀ sid ∈ sids, sid ∈ r.keys → sid ∈ (trim bound sids r).keys) ∧
    min bound r.keys.length ≤ (trim bound sids r).keys.length ∧
    (trim bound sids r).keys.length ≤ max bound sids.length := by
  unfold trim
  rw [← keys_length]
  split_ifs with hbound
  · obtain ⟨hkeyed, hkeys, hlen⟩ := fold_seeds r sids keyed_empty
    obtain ⟨h1, h2, h3, h4⟩ := fill_spec bound r.entries
      (fun e he => hr e.1 e.2 ((r.mem_entries e.1 e.2).mp he)) hkeyed
    have hzero : (∅ : Record UUID Entity).keys.length = 0 := rfl
    refine ⟨h1, fun sid hsid hmem => h2 sid ((hkeys sid).mpr (Or.inr ?_)), ?_, by omega⟩
    · obtain ⟨ent, hent⟩ := Option.isSome_iff_exists.mp ((r.mem_keys sid).mp hmem)
      exact ⟨sid, hsid, ent, hent, hr sid ent hent⟩
    · obtain h4 | h4 := h4
      · exact (min_le_left _ _).trans h4
      · apply (min_le_right _ _).trans
        apply (List.subperm_of_subset r.nodup (fun k hk => ?_)).length_le
        obtain ⟨e, he, rfl⟩ := List.mem_map.mp hk
        exact h4 e he
  · exact ⟨hr, fun sid _ hmem => hmem, min_le_right _ _,
      (not_lt.mp hbound).trans (le_max_left _ _)⟩

end Augment

section Rows

variable {β : Type} {storage : StorageCoordinator β} {entryEntities : List (UUID × ℚ)}

def listed (storage : StorageCoordinator β) : List Entity :=
  storage.listEntities MAX_ENTITIES_FOR_PPR

/-- A listing has hit its cap. -/
def Capped (storage : StorageCoordinator β) : Prop :=
  MAX_ENTITIES_FOR_PPR ≤ (listed storage).length ∨
    MAX_RELATIONSHIPS_FOR_PPR ≤ (storage.listRelationships MAX_RELATIONSHIPS_FOR_PPR).length

def fetched (storage : StorageCoordinator β) (entryEntities : List (UUID × ℚ)) (perSeed : ℕ) :
    Record UUID Entity :=
  storage.getEntitiesBatch (fetchIds (seedIds entryEntities)
    ((listed storage).map Entity.id) (neighborhoods storage entryEntities perSeed))

/-- The entity is in the listing, or is fetched after the listing hit its cap. -/
def Resolvable (storage : StorageCoordinator β) (entryEntities : List (UUID × ℚ))
    (perSeed : ℕ) (k : UUID) : Prop :=
  k ∈ (listed storage).map Entity.id ∨
    Capped storage ∧ ∃ ent, (fetched storage entryEntities perSeed).get k = some ent ∧ ent.id = k

theorem values_keys {r : Record UUID Entity} (h : Keyed r) :
    (r.values.map Entity.id).Nodup := by
  rw [keyed_values h]
  exact r.nodup

theorem graphRows_capped (hcap : Capped storage) (perSeed maxNeighborhood : ℕ) :
    graphRows storage entryEntities perSeed maxNeighborhood =
      ((trim (max maxNeighborhood (listed storage).length) (seedIds entryEntities)
        (byId (seedIds entryEntities) (fetched storage entryEntities perSeed)
          (listed storage))).values,
        mergedRelationships (storage.listRelationships MAX_RELATIONSHIPS_FOR_PPR)
          (neighborhoods storage entryEntities perSeed)) :=
  if_pos hcap

theorem graphRows_whole (hcap : ¬ Capped storage) (perSeed maxNeighborhood : ℕ) :
    graphRows storage entryEntities perSeed maxNeighborhood =
      (listed storage,storage.listRelationships MAX_RELATIONSHIPS_FOR_PPR) :=
  if_neg hcap

/-- No entity is in the graph twice, every seed that can be had is in it, and the graph is not
smaller than the listing. -/
theorem graphRows_spec (hlisted : ((listed storage).map Entity.id).Nodup)
    (perSeed maxNeighborhood : ℕ) :
    ((graphRows storage entryEntities perSeed maxNeighborhood).1.map Entity.id).Nodup ∧
    (∀ k ∈ entryEntities.map Prod.fst, Resolvable storage entryEntities perSeed k →
      k ∈ (graphRows storage entryEntities perSeed maxNeighborhood).1.map Entity.id) ∧
    (listed storage).length ≤
      (graphRows storage entryEntities perSeed maxNeighborhood).1.length ∧
    (graphRows storage entryEntities perSeed maxNeighborhood).1.length ≤
      max (max maxNeighborhood (listed storage).length) (seedIds entryEntities).length := by
  by_cases hcap : Capped storage
  · rw [graphRows_capped hcap]
    obtain ⟨hkeyed, hseeds, hslice⟩ := byId_spec (seedIds entryEntities)
      (fetched storage entryEntities perSeed) (listed storage)
    obtain ⟨htrim, hkept, hmin, hmax⟩ := trim_spec
      (max maxNeighborhood (listed storage).length) (seedIds entryEntities) hkeyed
    have hlen : ∀ r : Record UUID Entity, r.values.length = r.keys.length := by
      intro r
      rw [Record.values, Record.keys, List.length_map, List.length_map]
    have hsub := (List.subperm_of_subset hlisted (fun k hk => hslice k hk)).length_le
    rw [List.length_map] at hsub
    refine ⟨values_keys htrim, fun k hk hres => ?_, ?_, ?_⟩
    · have hsid : k ∈ seedIds entryEntities := mem_firsts.mpr hk
      rw [keyed_values htrim]
      apply hkept k hsid
      obtain hlist | ⟨-, ent, hget, hid⟩ := hres
      · exact hslice k hlist
      · exact hseeds k hsid ent hget hid
    · rw [hlen]
      exact (le_min (le_max_right _ _) hsub).trans hmin
    · rw [hlen]
      exact hmax
  · rw [graphRows_whole hcap]
    refine ⟨hlisted, fun k _ hres => ?_, le_rfl, ?_⟩
    · obtain hlist | ⟨hcap', -⟩ := hres
      · exact hlist
      · exact absurd hcap' hcap
    · exact (le_max_right _ _).trans (le_max_left _ _)

end Rows

section Returned

variable {β : Type} (storage : StorageCoordinator β) (entryEntities : List (UUID × ℚ))
  (o : Options)

def scores (entities : List Entity) (relationships : List Relationship) :
    Fin entities.length → ℚ :=
  pagerank entities.length (buildPprGraph entities (triples relationships)).edges o.damping
    o.maxIter o.tol
    (some (buildPersonalizationVector entryEntities (entityIdToIdx entities)))

def scoreRecord (entities : List Entity) (pr : Fin entities.length → ℚ) : Record UUID ℚ :=
  Record.ofList ((List.finRange entities.length).map (fun i => ((entities.get i).id,pr i)))

theorem scoreRecord_get {entities : List Entity} (h : (entities.map Entity.id).Nodup)
    (pr : Fin entities.length → ℚ) (i : Fin entities.length) :
    (scoreRecord entities pr).get (entities.get i).id = some (pr i) := by
  have hkeys : ((List.finRange entities.length).map
      (fun i => ((entities.get i).id,pr i))).map Prod.fst = entities.map Entity.id := by
    rw [List.map_map]
    apply List.ext_getElem
    · simp
    · intro j h1 h2
      simp
  have hentries : (scoreRecord entities pr).entries =
      (List.finRange entities.length).map (fun i => ((entities.get i).id,pr i)) := by
    apply (Record.foldl_set_entries _ _ _).trans (List.nil_append _)
    rw [List.map_append, hkeys]
    exact h
  rw [← Record.mem_entries, hentries]
  exact List.mem_map_of_mem (List.mem_finRange i)

theorem scoreRecord_none {entities : List Entity} (pr : Fin entities.length → ℚ) {k : UUID}
    (hk : k ∉ entities.map Entity.id) : (scoreRecord entities pr).get k = none := by
  have h := Record.get_ofList_append [] ((List.finRange entities.length).map
    (fun i => ((entities.get i).id,pr i))) k (by
      intro e he hek
      obtain ⟨i, -, rfl⟩ := List.mem_map.mp he
      exact hk (List.mem_map.mpr ⟨_, List.get_mem entities i, hek⟩))
  exact h

theorem whole_mass {entities : List Entity} (h : (entities.map Entity.id).Nodup)
    (pr : Fin entities.length → ℚ) (cid : UUID) :
    (List.finRange entities.length).map (massFor entities pr cid) =
      entities.map (fun ent => ent.sourceChunkIds.count cid*max 0
        (((scoreRecord entities pr).get ent.id).getD 0)) := by
  have hget : (List.finRange entities.length).map entities.get = entities :=
    List.map_get_finRange entities
  have hmass : ∀ i, massFor entities pr cid i = (entities.get i).sourceChunkIds.count cid*max 0
      (((scoreRecord entities pr).get (entities.get i).id).getD 0) := by
    intro i
    rw [scoreRecord_get h, Option.getD_some, massFor]
    split_ifs with hneg
    · rw [max_eq_left hneg, mul_zero]
    · rw [max_eq_right (not_le.mp hneg).le]
  calc (List.finRange entities.length).map (massFor entities pr cid)
      = ((List.finRange entities.length).map entities.get).map (fun ent =>
          ent.sourceChunkIds.count cid*max 0
            (((scoreRecord entities pr).get ent.id).getD 0)) := by
        rw [List.map_map]
        exact List.map_congr_left (fun i _ => hmass i)
    _ = _ := by rw [hget]

theorem overlap_iff {entities : List Entity} (h : (entities.map Entity.id).Nodup) :
    0 < (buildPersonalizationVector entryEntities (entityIdToIdx entities)).sum ↔
      ∃ e ∈ entryEntities, e.1 ∈ entities.map Entity.id := by
  rw [seeds_sum_pos _ _ (index_bound h)]
  simp only [mem_index h]

def hydration (storage : StorageCoordinator β) (l : List (UUID × ℚ)) (ids : List UUID) :
    List (UUID × ℚ × Chunk β) :=
  l.filterMap (fun e =>
    ((storage.getChunksBatch ids).get e.1).map (fun chunk => (e.1,e.2,hydrated chunk e.2)))

theorem hydration_sublist (storage : StorageCoordinator β) (l : List (UUID × ℚ))
    (ids : List UUID) :
    List.Sublist ((hydration storage l ids).map (fun r => (r.1,r.2.1))) l := by
  induction l with
  | nil => exact List.Sublist.refl _
  | cons e l ih =>
    unfold hydration at ih ⊢
    cases hget : (storage.getChunksBatch ids).get e.1 with
    | none =>
      rw [List.filterMap_cons_none (by rw [hget]; rfl)]
      exact ih.cons e
    | some chunk =>
      rw [List.filterMap_cons_some (by rw [hget]; rfl), List.map_cons]
      exact ih.cons_cons e

theorem channel_results (entities : List Entity) (pr : Fin entities.length → ℚ) :
    ∃ ids, (channel storage o entities pr).results =
      hydration storage ((scoreChunksViaPpr entities pr o.topEntities
        o.chunkSimilarity).take o.limit) ids := by
  have hunique := (score_chunks_spec entities pr o.topEntities o.chunkSimilarity).1
  have hentries : (Record.ofList (scoreChunksViaPpr entities pr o.topEntities
      o.chunkSimilarity)).entries =
        scoreChunksViaPpr entities pr o.topEntities o.chunkSimilarity :=
    (Record.foldl_set_entries _ ∅ hunique).trans (List.nil_append _)
  refine ⟨((scoreChunksViaPpr entities pr o.topEntities o.chunkSimilarity).take
    o.limit).map Prod.fst, ?_⟩
  unfold channel hydration
  by_cases hempty : ((scoreChunksViaPpr entities pr o.topEntities
      o.chunkSimilarity).take o.limit).map Prod.fst = []
  · rw [if_pos hempty, List.map_eq_nil_iff.mp hempty]
    rfl
  · rw [if_neg hempty]
    simp only
    rw [List.filterMap_map]
    apply List.filterMap_congr
    intro e he
    have hget : (Record.ofList (scoreChunksViaPpr entities pr o.topEntities
        o.chunkSimilarity)).get e.1 = some e.2 := by
      rw [← Record.mem_entries, hentries]
      exact List.mem_of_mem_take he
    simp only [Function.comp_apply, hget, Option.getD_some]

theorem channel_scores (entities : List Entity) (pr : Fin entities.length → ℚ) :
    (channel storage o entities pr).entityScores = scoreRecord entities pr ∧
    ∀ d ∈ (channel storage o entities pr).outDegradations, d.reason ≠ "no_seed_overlap" := by
  unfold channel
  dsimp only
  split_ifs
  · exact ⟨rfl, by simp [degradation]⟩
  · exact ⟨rfl, by simp [degradation]⟩
  · exact ⟨rfl, by simp⟩

theorem retrieve_overlap {entities : List Entity} (h : (entities.map Entity.id).Nodup)
    (relationships : List Relationship)
    (hseed : ∃ e ∈ entryEntities, e.1 ∈ entities.map Entity.id) :
    retrieve storage entryEntities o entities relationships =
      channel storage o entities (scores entryEntities o entities relationships) :=
  if_neg (not_le.mpr ((overlap_iff entryEntities h).mpr hseed))

theorem retrieve_none {entities : List Entity} (h : (entities.map Entity.id).Nodup)
    (relationships : List Relationship)
    (hseed : ¬ ∃ e ∈ entryEntities, e.1 ∈ entities.map Entity.id) :
    (retrieve storage entryEntities o entities relationships).results = [] ∧
      (retrieve storage entryEntities o entities relationships).entityScores = ∅ := by
  have hsum : (buildPersonalizationVector entryEntities (entityIdToIdx entities)).sum ≤ 0 :=
    not_lt.mp (fun hpos => hseed ((overlap_iff entryEntities h).mp hpos))
  have heq : retrieve storage entryEntities o entities relationships =
      ⟨[],∅,[degradation "no_seed_overlap"
        ("no query seed entity survived into the PPR graph after seed "++
          "augmentation; graph channel returned nothing — recall continues "++
          "on the vector-only path")]⟩ := if_pos hsum
  rw [heq]
  exact ⟨rfl, rfl⟩

theorem retrieve_chunks_eq (hlisted : listed storage ≠ []) (hentry : entryEntities ≠ []) :
    pprRetrieveChunks storage entryEntities o =
      retrieve storage entryEntities o
        (graphRows storage entryEntities o.neighborhoodPerSeedLimit
          o.maxNeighborhoodEntities).1
        (graphRows storage entryEntities o.neighborhoodPerSeedLimit
          o.maxNeighborhoodEntities).2 := by
  unfold pprRetrieveChunks
  rw [if_neg hentry]
  exact if_neg hlisted

variable {storage entryEntities o}

/-- Every seed that can be had is in the graph, and scores. -/
theorem seeds_scored (hlisted : ((listed storage).map Entity.id).Nodup)
    (hnonempty : listed storage ≠ []) (hd : 0 ≤ o.damping) (hd' : o.damping < 1)
    {k : UUID} (hk : k ∈ entryEntities.map Prod.fst)
    (hres : Resolvable storage entryEntities o.neighborhoodPerSeedLimit k) :
    (∃ q, (pprRetrieveChunks storage entryEntities o).entityScores.get k = some q ∧ 0 < q) ∧
    ∀ d ∈ (pprRetrieveChunks storage entryEntities o).outDegradations,
      d.reason ≠ "no_seed_overlap" := by
  have hentry : entryEntities ≠ [] := by
    rintro rfl
    cases hk
  obtain ⟨hnodup, hseeds, -, -⟩ := @graphRows_spec β storage entryEntities hlisted
    o.neighborhoodPerSeedLimit o.maxNeighborhoodEntities
  rw [retrieve_chunks_eq storage entryEntities o hnonempty hentry]
  generalize hrows : graphRows storage entryEntities o.neighborhoodPerSeedLimit
    o.maxNeighborhoodEntities = rows at hnodup hseeds
  obtain ⟨e, he, hek⟩ := List.mem_map.mp hk
  have hmem := hseeds k hk hres
  have hseed : ∃ e ∈ entryEntities, e.1 ∈ rows.1.map Entity.id := ⟨e, he, hek ▸ hmem⟩
  rw [retrieve_overlap storage entryEntities o hnodup rows.2 hseed]
  obtain ⟨hscores, hdegraded⟩ := channel_scores storage o rows.1
    (scores entryEntities o rows.1 rows.2)
  refine ⟨?_, hdegraded⟩
  rw [hscores]
  obtain ⟨ent, hent, hid⟩ := List.mem_map.mp hmem
  obtain ⟨i, hi, rfl⟩ := List.getElem_of_mem hent
  rw [← hid]
  refine ⟨_, scoreRecord_get hnodup _ ⟨i, hi⟩, ?_⟩
  have hbound := (Accel.PageRank.lower_bound (edges_pos rows.1 (triples rows.2)) hd hd'.le
    o.maxIter o.tol
    (some (buildPersonalizationVector entryEntities (entityIdToIdx rows.1)))) ⟨i, hi⟩
  refine lt_of_lt_of_le (mul_pos (sub_pos.mpr hd') ?_) hbound
  apply (teleport_seeds hnodup ((overlap_iff entryEntities hnodup).mpr hseed) ⟨i, hi⟩).mpr
  exact List.mem_map.mpr ⟨e, he, hek.trans hid.symm⟩

theorem mem_hydration {l : List (UUID × ℚ)} {ids : List UUID} {r : UUID × ℚ × Chunk β}
    (h : r ∈ hydration storage l ids) : (r.1,r.2.1) ∈ l :=
  (hydration_sublist storage l ids).subset (List.mem_map_of_mem h)

def smallStorage : StorageCoordinator Unit where
  listEntities _ := [⟨1,[10]⟩,⟨2,[10,11]⟩,⟨3,[12]⟩]
  listRelationships _ := [⟨7,1,2,1⟩]
  getEntityRelationships _ _ := none
  getEntitiesBatch _ := ∅
  getChunksBatch _ := ∅

def smallOptions : Options where
  damping := 85/100
  maxIter := 20
  tol := 1/1000
  topEntities := 3
  chunkSimilarity := none
  limit := 5

theorem seeds_scored_small :
    ∃ q, (pprRetrieveChunks smallStorage [(2,1)] smallOptions).entityScores.get 2 = some q ∧
      0 < q :=
  (@seeds_scored Unit smallStorage [(2,1)] smallOptions (by decide) (by decide)
    (by norm_num [smallOptions]) (by norm_num [smallOptions]) 2 (by decide)
    (Or.inl (by decide))).1

/-- The chunks come once each, by falling scores, and from entities that relationships connect
to a seed; where no entity is cut off, the score is the whole mass of its entities. -/
theorem results_sound (hlisted : ((listed storage).map Entity.id).Nodup) :
    (pprRetrieveChunks storage entryEntities o).results.length ≤ o.limit ∧
    ((pprRetrieveChunks storage entryEntities o).results.map Prod.fst).Nodup ∧
    (pprRetrieveChunks storage entryEntities o).results.Pairwise (fun a b => b.2.1 ≤ a.2.1) ∧
    ∀ r ∈ (pprRetrieveChunks storage entryEntities o).results, 0 < r.2.1 ∧
      (∃ ent ∈ (graphRows storage entryEntities o.neighborhoodPerSeedLimit
          o.maxNeighborhoodEntities).1, r.1 ∈ ent.sourceChunkIds ∧
        SeedConnected entryEntities
          (graphRows storage entryEntities o.neighborhoodPerSeedLimit
            o.maxNeighborhoodEntities).1
          (graphRows storage entryEntities o.neighborhoodPerSeedLimit
            o.maxNeighborhoodEntities).2 ent.id) ∧
      (((graphRows storage entryEntities o.neighborhoodPerSeedLimit
          o.maxNeighborhoodEntities).1.length : ℤ) ≤ o.topEntities →
        r.2.1 = ((graphRows storage entryEntities o.neighborhoodPerSeedLimit
          o.maxNeighborhoodEntities).1.map (fun ent => ent.sourceChunkIds.count r.1*max 0
            (((pprRetrieveChunks storage entryEntities o).entityScores.get ent.id).getD 0))).sum*
          blend o.chunkSimilarity r.1) := by
  by_cases hentry : entryEntities = []
  · have hnone : pprRetrieveChunks storage entryEntities o = ⟨[],∅,[]⟩ := if_pos hentry
    simp [hnone]
  by_cases hnonempty : listed storage = []
  · have hnone : pprRetrieveChunks storage entryEntities o = ⟨[],∅,[]⟩ := by
      unfold pprRetrieveChunks
      rw [if_neg hentry]
      exact if_pos hnonempty
    simp [hnone]
  obtain ⟨hnodup, -⟩ := @graphRows_spec β storage entryEntities hlisted
    o.neighborhoodPerSeedLimit o.maxNeighborhoodEntities
  rw [retrieve_chunks_eq storage entryEntities o hnonempty hentry]
  generalize graphRows storage entryEntities o.neighborhoodPerSeedLimit
    o.maxNeighborhoodEntities = rows at hnodup ⊢
  by_cases hseed : ∃ e ∈ entryEntities, e.1 ∈ rows.1.map Entity.id
  · rw [retrieve_overlap storage entryEntities o hnodup rows.2 hseed,
      (channel_scores storage o rows.1 _).1]
    obtain ⟨ids, hresults⟩ := channel_results storage o rows.1
      (scores entryEntities o rows.1 rows.2)
    obtain ⟨hunique, hfalling, hscores⟩ := score_chunks_spec rows.1
      (scores entryEntities o rows.1 rows.2) o.topEntities o.chunkSimilarity
    have hsub := hydration_sublist storage ((scoreChunksViaPpr rows.1
      (scores entryEntities o rows.1 rows.2) o.topEntities o.chunkSimilarity).take o.limit) ids
    rw [hresults]
    refine ⟨?_, ?_, ?_, fun r hr => ?_⟩
    · have hlen := hsub.length_le
      rw [List.length_map, List.length_take] at hlen
      exact hlen.trans (min_le_left _ _)
    · have hnodup' := hunique.sublist ((hsub.trans (List.take_sublist _ _)).map Prod.fst)
      rwa [List.map_map] at hnodup'
    · exact List.pairwise_map.mp (hfalling.sublist (hsub.trans (List.take_sublist _ _)))
    · obtain ⟨⟨i, hi, hpos, hcid⟩, hscore⟩ :=
        hscores _ (List.mem_of_mem_take (mem_hydration hr))
      dsimp only at hcid hscore
      have hmass : 0 < ((ranked rows.1 (scores entryEntities o rows.1 rows.2)
          o.topEntities).map (massFor rows.1 (scores entryEntities o rows.1 rows.2) r.1)).sum := by
        apply (mass_pos rows.1 _ hpos hcid).trans_le
        apply List.single_le_sum
        · intro x hx
          obtain ⟨j, -, rfl⟩ := List.mem_map.mp hx
          exact mass_nonneg rows.1 _ r.1 j
        · exact List.mem_map_of_mem hi
      refine ⟨?_, ⟨rows.1.get i, List.get_mem rows.1 i, hcid, ?_⟩, fun hwhole => ?_⟩
      · rw [hscore]
        exact mul_pos hmass (blend_pos _ _)
      · exact scored_connected hnodup ((overlap_iff entryEntities hnodup).mpr hseed) o.damping
          o.maxIter o.tol hpos.ne'
      · rw [hscore, ((ranked_whole rows.1 _ hwhole).map _).sum_eq, whole_mass hnodup]
  · rw [(retrieve_none storage entryEntities o hnodup rows.2 hseed).1]
    simp

def stockedStorage : StorageCoordinator Unit :=
  { smallStorage with
    getChunksBatch := fun ids => Record.ofList (ids.map (fun id => (id,⟨id,0,0,"",none,none⟩))) }

theorem results_sound_small :
    (pprRetrieveChunks stockedStorage [(2,1)] smallOptions).results.map Prod.fst = [10,11] ∧
      (pprRetrieveChunks stockedStorage [(2,1)] smallOptions).results.Pairwise
        (fun a b => b.2.1 ≤ a.2.1) ∧
      ∀ r ∈ (pprRetrieveChunks stockedStorage [(2,1)] smallOptions).results, 0 < r.2.1 ∧
        r.2.1 = (smallStorage.listEntities 0).foldr (fun ent total =>
          ent.sourceChunkIds.count r.1*max 0 (((pprRetrieveChunks stockedStorage [(2,1)]
            smallOptions).entityScores.get ent.id).getD 0)+total) 0 := by
  obtain ⟨-, -, hfalling, hsound⟩ :=
    @results_sound Unit stockedStorage [(2,1)] smallOptions (by decide)
  refine ⟨by decide +kernel, hfalling, fun r hr => ?_⟩
  obtain ⟨hpos, -, hscore⟩ := hsound r hr
  refine ⟨hpos, (hscore (by decide)).trans ?_⟩
  have hblend : blend smallOptions.chunkSimilarity r.1 = 1 := by simp [blend, smallOptions]
  rw [hblend, mul_one]
  rfl

end Returned

section Order

variable {entities entities' : List Entity}

def moved (hperm : entities.Perm entities') (i : Fin entities.length) : Fin entities'.length :=
  ⟨entities'.idxOf (entities.get i),
    List.idxOf_lt_length_of_mem (hperm.mem_iff.mp (List.get_mem entities i))⟩

theorem get_moved (hperm : entities.Perm entities') (i : Fin entities.length) :
    entities'.get (moved hperm i) = entities.get i :=
  List.getElem_idxOf _

theorem moved_bijective (h : (entities.map Entity.id).Nodup) (hperm : entities.Perm entities') :
    Function.Bijective (moved hperm) := by
  have hinjective : Function.Injective (moved hperm) := by
    intro i j hij
    have hget : entities.get i = entities.get j := by
      rw [← get_moved hperm i, ← get_moved hperm j, hij]
    exact (List.nodup_iff_injective_get.mp h.of_map) hget
  refine (Fintype.bijective_iff_injective_and_card _).mpr ⟨hinjective, ?_⟩
  rw [Fintype.card_fin, Fintype.card_fin, hperm.length_eq]

noncomputable def places (h : (entities.map Entity.id).Nodup) (hperm : entities.Perm entities') :
    Fin entities.length ≃ Fin entities'.length :=
  Equiv.ofBijective (moved hperm) (moved_bijective h hperm)

section Fixed

variable (h : (entities.map Entity.id).Nodup) (hperm : entities.Perm entities')

include h hperm

theorem nodup_perm : (entities'.map Entity.id).Nodup := (hperm.map Entity.id).nodup_iff.mp h

theorem index_places (k : UUID) (i : Fin entities.length) :
    (entityIdToIdx entities').get k = some (places h hperm i).val ↔
      (entityIdToIdx entities).get k = some i.val := by
  rw [index_get h, index_get (nodup_perm h hperm)]
  have hget : entities'.get (places h hperm i) = entities.get i := get_moved hperm i
  constructor
  · rintro ⟨hi, hid⟩
    refine ⟨i.isLt, ?_⟩
    rw [← hid]
    exact congrArg Entity.id hget.symm
  · rintro ⟨hi, hid⟩
    refine ⟨(places h hperm i).isLt, ?_⟩
    rw [← hid]
    exact congrArg Entity.id hget

/-- An entity is looked up under its new place, or in neither listing. -/
theorem index_moved (k : UUID) :
    (∃ i : Fin entities.length, (entityIdToIdx entities).get k = some i.val ∧
      (entityIdToIdx entities').get k = some (places h hperm i).val) ∨
    (entityIdToIdx entities).get k = none ∧ (entityIdToIdx entities').get k = none := by
  cases hget : (entityIdToIdx entities).get k with
  | some i =>
    obtain ⟨hi, -⟩ := (index_get h k i).mp hget
    exact Or.inl ⟨⟨i, hi⟩, rfl, (index_places h hperm k ⟨i, hi⟩).mpr hget⟩
  | none =>
    right
    refine ⟨rfl, ?_⟩
    rw [← Option.not_isSome_iff_eq_none, ← Record.mem_keys, mem_index (nodup_perm h hperm),
      ← (hperm.map Entity.id).mem_iff, ← mem_index h, Record.mem_keys, hget]
    simp

theorem kept_moved (r : UUID × UUID × ℚ) :
    Accel.PageRank.kept entities'.length (edgesOf (entityIdToIdx entities') r) =
      (Accel.PageRank.kept entities.length (edgesOf (entityIdToIdx entities) r)).map
        (fun e => (places h hperm e.1,places h hperm e.2.1,e.2.2)) := by
  unfold edgesOf
  obtain ⟨i, hi, hi'⟩ | ⟨hi, hi'⟩ := index_moved h hperm r.1
  · obtain ⟨j, hj, hj'⟩ | ⟨hj, hj'⟩ := index_moved h hperm r.2.1
    · simp only [hi, hi', hj, hj']
      by_cases hij : i = j
      · simp [hij, Accel.PageRank.kept]
      · have hne : ¬ i.val = j.val := fun hval => hij (Fin.ext hval)
        have hne' : ¬ (places h hperm i).val = (places h hperm j).val := fun hval =>
          hij ((places h hperm).injective (Fin.ext hval))
        simp [hne, hne', Accel.PageRank.kept]
    · simp [hi, hi', hj, hj', Accel.PageRank.kept]
  · simp [hi, hi', Accel.PageRank.kept]

theorem kept_graph {rs rs' : List (UUID × UUID × ℚ)} (hrs : rs.Perm rs') :
    (Accel.PageRank.kept entities'.length (buildPprGraph entities' rs').edges).Perm
      ((Accel.PageRank.kept entities.length (buildPprGraph entities rs).edges).map
        (fun e => (places h hperm e.1,places h hperm e.2.1,e.2.2))) := by
  have hflat : ∀ (es : List Entity) (ts : List (UUID × UUID × ℚ)),
      Accel.PageRank.kept es.length (buildPprGraph es ts).edges =
        ts.flatMap (fun r =>
          Accel.PageRank.kept es.length (edgesOf (entityIdToIdx es) r)) := by
    intro es ts
    exact List.filterMap_flatMap
  rw [hflat, hflat, List.map_flatMap]
  simp only [← kept_moved h hperm]
  exact (hrs.flatMap_right _).symm

theorem seeds_moved (entries : List (UUID × ℚ)) (i : Fin entities.length) :
    (buildPersonalizationVector entries (entityIdToIdx entities')).getD
        (places h hperm i) 0 =
      (buildPersonalizationVector entries (entityIdToIdx entities)).getD i 0 := by
  have hfold : ∀ vec vec' : List ℚ, vec.length = entities.length →
      vec'.length = entities'.length →
      (∀ i : Fin entities.length, vec'.getD (places h hperm i) 0 = vec.getD i 0) →
      (entries.foldl (seeded (entityIdToIdx entities')) vec').getD (places h hperm i) 0 =
        (entries.foldl (seeded (entityIdToIdx entities)) vec).getD i 0 := by
    induction entries with
    | nil => exact fun vec vec' _ _ hvec => hvec i
    | cons e entries ih =>
      intro vec vec' hlen hlen' hvec
      rw [List.foldl_cons, List.foldl_cons]
      apply ih
      · rw [seeded_length, hlen]
      · rw [seeded_length, hlen']
      · intro j
        simp only [seeded_getD, hvec, hlen, hlen', index_places h hperm, Fin.is_lt]
  rw [buildPersonalizationVector, buildPersonalizationVector, index_length h,
    index_length (nodup_perm h hperm)]
  apply hfold
  · exact List.length_replicate
  · exact List.length_replicate
  · intro j
    simp [List.getD_eq_getElem?_getD]

theorem seeds_sum_moved (entries : List (UUID × ℚ)) :
    (buildPersonalizationVector entries (entityIdToIdx entities')).sum =
      (buildPersonalizationVector entries (entityIdToIdx entities)).sum := by
  have hsum : ∀ {es : List Entity}, (es.map Entity.id).Nodup →
      (buildPersonalizationVector entries (entityIdToIdx es)).sum =
        ∑ i : Fin es.length,
          (buildPersonalizationVector entries (entityIdToIdx es)).getD i 0 := by
    intro es hes
    have hlen : (buildPersonalizationVector entries (entityIdToIdx es)).length = es.length := by
      rw [seeds_length, index_length hes]
    rw [← Accel.PageRank.sum_getD, hlen]
  rw [hsum h, hsum (nodup_perm h hperm), ← Equiv.sum_comp (places h hperm)]
  exact Finset.sum_congr rfl (fun i _ => seeds_moved h hperm entries i)

/-- The score of an entity does not depend on its place. -/
theorem scores_moved {relationships relationships' : List Relationship}
    (hrel : relationships.Perm relationships') (entries : List (UUID × ℚ)) (o : Options)
    (hseed : ∃ e ∈ entries, e.1 ∈ entities.map Entity.id) (i : Fin entities.length) :
    scores entries o entities' relationships' (places h hperm i) =
      scores entries o entities relationships i := by
  have hsum := (overlap_iff entries h).mpr hseed
  apply Accel.PageRank.pagerank_relabel (kept_graph h hperm (hrel.map _))
  intro j
  have hlen : ∀ {es : List Entity}, (es.map Entity.id).Nodup →
      (buildPersonalizationVector entries (entityIdToIdx es)).length = es.length := by
    intro es hes
    rw [seeds_length, index_length hes]
  rw [Accel.PageRank.teleport_given (hlen h) (seeds_nonneg entries _) hsum,
    Accel.PageRank.teleport_given (hlen (nodup_perm h hperm)) (seeds_nonneg entries _)
      (by rw [seeds_sum_moved h hperm]; exact hsum),
    seeds_sum_moved h hperm, seeds_moved h hperm]

end Fixed

/-- Where the listings are whole, their order makes no difference to the scores of the entities,
nor does it decide whether there are any. -/
theorem scores_unordered {β : Type} {storage storage' : StorageCoordinator β}
    {entryEntities : List (UUID × ℚ)} {o : Options}
    (hlisted : ((listed storage).map Entity.id).Nodup)
    (hcap : ¬ Capped storage) (hperm : (listed storage).Perm (listed storage'))
    (hrel : (storage.listRelationships MAX_RELATIONSHIPS_FOR_PPR).Perm
      (storage'.listRelationships MAX_RELATIONSHIPS_FOR_PPR)) (k : UUID) :
    (pprRetrieveChunks storage entryEntities o).entityScores.get k =
      (pprRetrieveChunks storage' entryEntities o).entityScores.get k := by
  have hcap' : ¬ Capped storage' := by
    unfold Capped
    rw [← hperm.length_eq, ← hrel.length_eq]
    exact hcap
  have hlisted' := nodup_perm hlisted hperm
  by_cases hentry : entryEntities = []
  · rw [pprRetrieveChunks, if_pos hentry, pprRetrieveChunks, if_pos hentry]
  by_cases hnonempty : listed storage = []
  · have hnonempty' : listed storage' = [] := (hnonempty ▸ hperm).nil_eq.symm
    have hnone : ∀ s : StorageCoordinator β, listed s = [] →
        pprRetrieveChunks s entryEntities o = ⟨[],∅,[]⟩ := by
      intro s hs
      rw [pprRetrieveChunks, if_neg hentry]
      exact if_pos hs
    rw [hnone storage hnonempty, hnone storage' hnonempty']
  have hnonempty' : listed storage' ≠ [] := fun h' =>
    hnonempty ((h' ▸ hperm).eq_nil)
  rw [retrieve_chunks_eq storage entryEntities o hnonempty hentry,
    retrieve_chunks_eq storage' entryEntities o hnonempty' hentry,
    graphRows_whole hcap, graphRows_whole hcap']
  have hsame : ∀ e : UUID × ℚ, e.1 ∈ (listed storage').map Entity.id ↔
      e.1 ∈ (listed storage).map Entity.id := fun e => (hperm.map Entity.id).mem_iff.symm
  by_cases hseed : ∃ e ∈ entryEntities, e.1 ∈ (listed storage).map Entity.id
  · have hseed' : ∃ e ∈ entryEntities, e.1 ∈ (listed storage').map Entity.id := by
      simpa only [hsame] using hseed
    rw [retrieve_overlap storage entryEntities o hlisted _ hseed,
      retrieve_overlap storage' entryEntities o hlisted' _ hseed',
      (channel_scores storage o _ _).1, (channel_scores storage' o _ _).1]
    by_cases hk : k ∈ (listed storage).map Entity.id
    · obtain ⟨ent, hent, rfl⟩ := List.mem_map.mp hk
      obtain ⟨i, hi, rfl⟩ := List.getElem_of_mem hent
      have hget : (listed storage').get (places hlisted hperm ⟨i, hi⟩) =
          (listed storage).get ⟨i, hi⟩ := get_moved hperm ⟨i, hi⟩
      have hleft := scoreRecord_get hlisted (scores entryEntities o (listed storage)
        (storage.listRelationships MAX_RELATIONSHIPS_FOR_PPR)) ⟨i, hi⟩
      have hright := scoreRecord_get hlisted' (scores entryEntities o (listed storage')
        (storage'.listRelationships MAX_RELATIONSHIPS_FOR_PPR)) (places hlisted hperm ⟨i, hi⟩)
      rw [hget, scores_moved hlisted hperm hrel entryEntities o hseed] at hright
      exact hleft.trans hright.symm
    · rw [scoreRecord_none _ hk, scoreRecord_none _ (fun hk' =>
        hk ((hperm.map Entity.id).mem_iff.mpr hk'))]
  · have hseed' : ¬ ∃ e ∈ entryEntities, e.1 ∈ (listed storage').map Entity.id := by
      simpa only [hsame] using hseed
    rw [(retrieve_none storage entryEntities o hlisted _ hseed).2,
      (retrieve_none storage' entryEntities o hlisted' _ hseed').2]

def backwardStorage : StorageCoordinator Unit :=
  { smallStorage with
    listEntities := fun _ => [⟨3,[12]⟩,⟨2,[10,11]⟩,⟨1,[10]⟩] }

theorem scores_unordered_small :
    (pprRetrieveChunks smallStorage [(2,1)] smallOptions).entityScores.get 1 =
      (pprRetrieveChunks backwardStorage [(2,1)] smallOptions).entityScores.get 1 :=
  @scores_unordered Unit smallStorage backwardStorage [(2,1)] smallOptions (by decide)
    (by simp [Capped, listed, smallStorage, MAX_ENTITIES_FOR_PPR, MAX_RELATIONSHIPS_FOR_PPR])
    (by decide) (List.Perm.refl _) 1

end Order

end Uru.Query.PprRetrieval
