import Mathlib.Algebra.BigOperators.Group.List.Basic
import Mathlib.Data.List.Nodup
import Mathlib.Tactic
import Uru.Lib.Ranking
import Uru.Lib.Record
import Uru.Lib.SortOn
import Uru.Query.FusedLists
import Uru.Query.KeywordIndex
import Uru.Query.KeywordSearcher
import Uru.Query.RankFusion
import Uru.Query.RankFusionExact

/-!
# The order of the lists that are fused

Fusion looks at the places of a list and hardly at its scores, so each list has
to come by falling scores. The similarity and keyword searches give theirs in
that order. The graph search scores chunks in the order in which they were
read, and sorts nothing; and even among equal scores a place makes a
difference. A query, whatever its expansions are, needs that at most one chunk
comes from the graph and that no two similarities are equal; where its
expansions have that as well, the lists fall and their fusion is the same
whatever the order of the reads.
-/

set_option autoImplicit false

namespace Uru.Query.SourceOrder
open Uru.Lib Uru.Query.FusedLists Uru.Query.KeywordIndex Uru.Query.Keyword
open Uru.Query.RankFusion hiding Source

structure Entity where
  id : ℕ
  mentionCount : ℕ
  sourceChunkIds : List ℕ
deriving DecidableEq

def dotProduct (a b : List ℚ) : ℚ := (List.zipWith (· * ·) a b).sum

/-- The keyword index, the chunks that were listed for it, and the order in which
the set of a text's candidates is walked. -/
structure Keywords where
  tokenizer : Tokenizer
  params : Params
  listed : List Chunk
  walk : String → List ℕ
  walk_nodup : ∀ text, (walk text).Nodup
  walk_candidates : ∀ text, (walk text).toFinset =
    (indexChunks tokenizer listed).index.candidates tokenizer text

/-- The rows of a store, and what its searches answer to one query: by falling
scores, each row once. Entities found by similarity are stored; without a
threshold at most five are asked for. -/
structure Store where
  entities : List Entity
  chunks : List Chunk
  similarEntities : List (ℕ × ℚ)
  anyEntities : List (ℕ × ℚ)
  similarChunks : List (Chunk × ℚ)
  fulltextChunks : List (Chunk × ℚ)
  keywords : Keywords
  entity_keys : (entities.map Entity.id).Nodup
  chunk_keys : (chunks.map Chunk.id).Nodup
  similar_falling : Falling similarEntities
  similar_keys : (similarEntities.map Prod.fst).Nodup
  similar_stored : ∀ p ∈ similarEntities, p.1 ∈ entities.map Entity.id ∧ p.2 ≤ 1
  any_falling : Falling anyEntities
  any_keys : (anyEntities.map Prod.fst).Nodup
  any_stored : ∀ p ∈ anyEntities, p.1 ∈ entities.map Entity.id ∧ p.2 ≤ 1
  any_length : anyEntities.length ≤ 5
  chunk_falling : Falling similarChunks
  similar_chunk_keys : (similarChunks.map (fun e => e.1.id)).Nodup
  fulltext_falling : Falling fulltextChunks
  fulltext_keys : (fulltextChunks.map (fun e => e.1.id)).Nodup
  fulltext_scores : ∀ e ∈ fulltextChunks, 0 ≤ e.2

/-- A query; without an embedding nothing is searched by similarity, and without
keywords its text is searched for. -/
structure SearchQuery where
  queryText : String
  keywords : List String
  queryEmbedding : Option (List ℚ)
  linkedEntityIds : List ℕ
  minEntitySimilarity : ℚ

/-- A search that is not made gives an empty list. -/
structure QueryConfig where
  maxChunks : ℕ
  maxEntities : ℕ
  graphChunkQuerySimWeight : ℚ
  fulltext : Bool
  enableQueryExpansion : Bool
  enableMultiStage : Bool
  rrfK : ℕ
  weight : SourceType → ℚ

section Searches

variable (cfg : QueryConfig) (q : SearchQuery) (s : Store)

def similar : List (ℕ × ℚ) := if q.queryEmbedding.isSome then s.similarEntities else []

def getEntitiesBatch (ids : List ℕ) : List Entity := s.entities.filter (fun e => e.id ∈ ids)

/-- The batch is read as a dict. -/
def fetched (ids : List (ℕ × ℚ)) : List (Entity × ℚ) :=
  ids.filterMap (fun p =>
    ((getEntitiesBatch s (ids.map Prod.fst)).find? (fun e => e.id = p.1)).map (fun e => (e,p.2)))

def vectorEntities : List (Entity × ℚ) := fetched s ((similar q s).take (cfg.maxEntities*2))

def vectorChunks : List (Chunk × ℚ) := if q.queryEmbedding.isSome then s.similarChunks else []

/-- Linked entities first, then the most similar of the others. -/
def linkedOrSimilar : List (ℕ × ℚ) :=
  let linked := (firsts (q.linkedEntityIds.take 10)).map (fun id => (id,(1 : ℚ)))
  linked++((similar q s).take 8).filter (fun p => p.1 ∉ linked.map Prod.fst)

/-- If there are none, those found without a threshold are taken. -/
def retried : Bool :=
  (linkedOrSimilar q s).isEmpty ∧ q.queryEmbedding.isSome ∧ 0 < q.minEntitySimilarity

def entityIdsToFetch : List (ℕ × ℚ) :=
  if retried q s then s.anyEntities.take 5 else linkedOrSimilar q s

def graphEntities : List (Entity × ℚ) := fetched s (entityIdsToFetch q s)

/-- The chunks of the entities, each with the first entity that has it. -/
def chunkIdToInfo : List (ℕ × (Entity × ℚ)) :=
  (graphEntities q s).flatMap (fun e => (e.1.sourceChunkIds.take 5).map (fun id => (id,e)))

def getChunksBatch (ids : List ℕ) : List Chunk := s.chunks.filter (fun c => c.id ∈ ids)

def minGraphSim : ℚ := 3/10

/-- A chunk with an embedding has to be similar; a negative similarity counts as
none. -/
def admitted (c : Chunk) : Bool :=
  match q.queryEmbedding, c.embedding with
  | some queryEmbedding, some embedding =>
    dotProduct queryEmbedding embedding < 0 ∨
      minGraphSim ≤ dotProduct queryEmbedding embedding
  | _, _ => true

def chunkScore (info : Entity × ℚ) (c : Chunk) : ℚ :=
  let entityScore := info.2*(1+1/10*(min info.1.mentionCount 10 : ℕ))
  match q.queryEmbedding, c.embedding with
  | some queryEmbedding, some embedding =>
    let querySim := dotProduct queryEmbedding embedding
    if querySim < 0 then entityScore
    else cfg.graphChunkQuerySimWeight*querySim+
      (1-cfg.graphChunkQuerySimWeight)*entityScore
  | _, _ => entityScore

/-- In the order of the rows of the batch. -/
def graphChunks : List (Chunk × ℚ) :=
  let info := chunkIdToInfo q s
  (getChunksBatch s (info.map Prod.fst)).filterMap (fun c =>
    if admitted q c then
      (info.find? (fun p => p.1 = c.id)).map (fun p => (c,chunkScore cfg q p.2 c))
    else none)

def searchedText : String :=
  if q.keywords.isEmpty then q.queryText else " ".intercalate q.keywords

/-- Full-text scores are taken over the largest one. -/
def keywordChunks : List (Chunk × ℚ) :=
  if cfg.fulltext then
    match s.fulltextChunks.map Prod.snd with
    | [] => []
    | x::scores =>
      let maxScore := scores.foldl max x
      let maxScore := if maxScore = 0 then 1 else maxScore
      s.fulltextChunks.map (fun e => (e.1,e.2/maxScore))
  else
    let results := (indexChunks s.keywords.tokenizer s.keywords.listed).search
      s.keywords.tokenizer s.keywords.params (searchedText q) (cfg.maxChunks*2) (1/10)
      (s.keywords.walk (searchedText q))
    results.map (fun e => (e.1,normalizeBm25Score e.2))

end Searches

section Lists

abbrev Search := SearchQuery × Store

variable (cfg : QueryConfig) (searches : List Search)

/-- The query comes first, then its expansions, of which two are searched. -/
def queriesToSearch : List Search := searches.take (if cfg.enableQueryExpansion then 3 else 1)

def suffix (i : ℕ) : Option ℕ := if i = 0 then none else some i

def chunkResults (e : Search) (i : ℕ) : List (Source × List (Chunk × ℚ)) :=
  [(⟨.vector,suffix i⟩,vectorChunks e.1 e.2),(⟨.graph,suffix i⟩,graphChunks cfg e.1 e.2),
    (⟨.keyword,suffix i⟩,keywordChunks cfg e.1 e.2)]

def entityResults (e : Search) (i : ℕ) : List (Source × List (Entity × ℚ)) :=
  [(⟨.vector,suffix i⟩,vectorEntities cfg e.1 e.2),(⟨.graph,suffix i⟩,graphEntities e.1 e.2)]

def chunkLists : Record Source (List (Chunk × ℚ)) :=
  Record.ofList ((queriesToSearch cfg searches).zipIdx.flatMap
    (fun e => chunkResults cfg e.1 e.2))

def entityLists : Record Source (List (Entity × ℚ)) :=
  Record.ofList ((queriesToSearch cfg searches).zipIdx.flatMap
    (fun e => entityResults cfg e.1 e.2))

def fusedChunks : List (Chunk × ℚ) :=
  let lists := handed cfg.enableMultiStage (chunkLists cfg searches)
  reciprocalRankFusion lists cfg.rrfK (some (weights cfg.weight lists)) Chunk.id

def fusedEntities : List (Entity × ℚ) :=
  reciprocalRankFusion (handed cfg.enableMultiStage (entityLists cfg searches)) cfg.rrfK
    (some (entityWeights cfg.weight)) Entity.id

end Lists

section Reads

variable {cfg : QueryConfig} {q : SearchQuery} {s s' : Store}

theorem fetched_eq (s : Store) (ids : List (ℕ × ℚ)) : fetched s ids =
    ids.filterMap (fun p => (s.entities.find? (fun e => e.id = p.1)).map (fun e => (e,p.2))) := by
  refine List.filterMap_congr (fun p hp => ?_)
  rw [getEntitiesBatch, List.find?_filter]
  have hmem : p.1 ∈ ids.map Prod.fst := List.mem_map_of_mem hp
  congr 2
  funext e
  by_cases he : e.id = p.1
  · simp [he, hmem]
  · simp [he]

/-- Entities that are not stored are left out. -/
theorem fetched_scored (s : Store) (ids : List (ℕ × ℚ)) : scored Entity.id (fetched s ids) =
    ids.filter (fun p => p.1 ∈ s.entities.map Entity.id) := by
  rw [fetched_eq]
  induction ids with
  | nil => rfl
  | cons p ids ih =>
    rw [List.filterMap_cons, List.filter_cons]
    cases hfind : s.entities.find? (fun e => e.id = p.1) with
    | none =>
      have hnot : p.1 ∉ s.entities.map Entity.id := by
        intro hmem
        obtain ⟨e, he, hid⟩ := List.mem_map.mp hmem
        exact List.find?_eq_none.mp hfind e he (by simpa using hid)
      rw [if_neg (by simpa using hnot)]
      exact ih
    | some e =>
      have hid : e.id = p.1 := by simpa using List.find?_some hfind
      have hmem : p.1 ∈ s.entities.map Entity.id :=
        List.mem_map.mpr ⟨e, List.mem_of_find?_eq_some hfind, hid⟩
      rw [if_pos (by simpa using hmem)]
      exact List.cons_eq_cons.mpr ⟨Prod.ext hid rfl, ih⟩

theorem fetched_stored {ids : List (ℕ × ℚ)} (h : ∀ p ∈ ids, p.1 ∈ s.entities.map Entity.id) :
    scored Entity.id (fetched s ids) = ids := by
  rw [fetched_scored]
  exact List.filter_eq_self.mpr (fun p hp => by simpa using h p hp)

def requested (q : SearchQuery) (s : Store) (c : Chunk) : Bool :=
  c.id ∈ (chunkIdToInfo q s).map Prod.fst ∧ admitted q c = true

theorem graphChunks_read (cfg : QueryConfig) (q : SearchQuery) (s : Store) :
    (graphChunks cfg q s).map Prod.fst = s.chunks.filter (requested q s) := by
  simp only [graphChunks, getChunksBatch]
  induction s.chunks with
  | nil => rfl
  | cons c chunks ih =>
    by_cases hid : c.id ∈ (chunkIdToInfo q s).map Prod.fst
    · obtain ⟨p, hp, hpid⟩ := List.mem_map.mp hid
      have hsome : ((chunkIdToInfo q s).find? (fun p => p.1 = c.id)).isSome :=
        List.find?_isSome.mpr ⟨p, hp, by simpa using hpid⟩
      obtain ⟨info, hinfo⟩ := Option.isSome_iff_exists.mp hsome
      rw [List.filter_cons_of_pos (by simpa using hid), List.filterMap_cons]
      by_cases hadm : admitted q c = true
      · rw [List.filter_cons_of_pos (by simp [requested, hadm, hid]), if_pos hadm, hinfo]
        exact congrArg (c :: ·) ih
      · rw [List.filter_cons_of_neg (by simp [requested, hadm]), if_neg hadm]
        exact ih
    · rw [List.filter_cons_of_neg (by simpa using hid),
        List.filter_cons_of_neg (by simp only [requested, hid]; simp)]
      exact ih

theorem graphChunks_keys (cfg : QueryConfig) (q : SearchQuery) (s : Store) :
    ((graphChunks cfg q s).map (fun e => e.1.id)).Nodup := by
  have hmap : (graphChunks cfg q s).map (fun e => e.1.id) =
      ((graphChunks cfg q s).map Prod.fst).map Chunk.id := by
    rw [List.map_map]
    rfl
  rw [hmap, graphChunks_read]
  exact s.chunk_keys.sublist (List.filter_sublist.map Chunk.id)

end Reads

/-- The same rows and answers; rows may come in another order, and so may answers
that are equally similar. -/
structure Reordered (s s' : Store) : Prop where
  entities : s.entities.Perm s'.entities
  chunks : s.chunks.Perm s'.chunks
  similarEntities : s.similarEntities.Perm s'.similarEntities
  anyEntities : s.anyEntities.Perm s'.anyEntities
  similarChunks : s.similarChunks.Perm s'.similarChunks
  fulltextChunks : s.fulltextChunks = s'.fulltextChunks
  keywords : s.keywords = s'.keywords

def Rerun (e e' : Search) : Prop := e.1 = e'.1 ∧ Reordered e.2 e'.2

/-- In every configuration, of the query and of its expansions: the lists fall,
and their fusions agree whatever the order of the reads. -/
structure Meets (searches : List Search) : Prop where
  chunks_fall : ∀ again, List.Forall₂ Rerun searches again → ∀ cfg c l,
    (handed cfg.enableMultiStage (chunkLists cfg again)).get c = some l → Ranked Chunk.id l
  entities_fall : ∀ again, List.Forall₂ Rerun searches again → ∀ cfg c l,
    (handed cfg.enableMultiStage (entityLists cfg again)).get c = some l → Ranked Entity.id l
  chunks_agree : ∀ again, List.Forall₂ Rerun searches again → ∀ cfg,
    Agree Chunk.id (fusedChunks cfg searches) (fusedChunks cfg again)
  entities_agree : ∀ again, List.Forall₂ Rerun searches again → ∀ cfg,
    Agree Entity.id (fusedEntities cfg searches) (fusedEntities cfg again)

/-- At most one chunk comes from the graph, and no answers are equally similar. -/
structure Settled (q : SearchQuery) (s : Store) : Prop where
  graph : ∀ c ∈ s.chunks, ∀ c' ∈ s.chunks, requested q s c = true → requested q s c' = true → c = c'
  chunks : ((vectorChunks q s).map Prod.snd).Nodup
  entities : ((similar q s).map Prod.snd).Nodup
  retry : retried q s = true → (s.anyEntities.map Prod.snd).Nodup

section Settled

variable {cfg : QueryConfig} {q : SearchQuery} {s s' : Store}

theorem falling_unique {α : Type} {l l' : List (α × ℚ)} (h : Falling l) (h' : Falling l')
    (hn : (l.map Prod.snd).Nodup) (hp : l.Perm l') : l = l' := by
  refine List.Perm.eq_of_pairwise (fun a b ha hb hab hba => ?_) h h' hp
  exact List.inj_on_of_nodup_map hn ha (hp.mem_iff.mpr hb) (le_antisymm hba hab)

theorem one_unique {α : Type} {l l' : List α} (hone : l.length ≤ 1) (hp : l.Perm l') : l = l' := by
  match l, hone with
  | [], _ => exact hp.nil_eq
  | [a], _ => exact (List.singleton_perm.mp hp)

theorem all_equal_length {α : Type} {l : List α} (hn : l.Nodup) (h : ∀ a ∈ l, ∀ b ∈ l, a = b) :
    l.length ≤ 1 := by
  match l with
  | [] => exact Nat.zero_le 1
  | [_] => exact le_rfl
  | a::b::l =>
    rw [h b (by simp) a (by simp)] at hn
    exact absurd List.mem_cons_self (List.nodup_cons.mp hn).1

theorem find_id {l l' : List Entity} (hn : (l.map Entity.id).Nodup) (hp : l.Perm l') (id : ℕ) :
    l.find? (fun e => e.id = id) = l'.find? (fun e => e.id = id) := by
  rw [← List.head?_filter, ← List.head?_filter]
  refine congrArg List.head? (one_unique ?_ (hp.filter _))
  refine all_equal_length (hn.of_map.filter _) (fun e he e' he' => ?_)
  rw [List.mem_filter, decide_eq_true_iff] at he he'
  exact List.inj_on_of_nodup_map hn he.1 he'.1 (he.2.trans he'.2.symm)

theorem fetched_reordered (hr : Reordered s s') (ids : List (ℕ × ℚ)) :
    fetched s ids = fetched s' ids := by
  rw [fetched_eq, fetched_eq]
  refine List.filterMap_congr (fun p _ => ?_)
  rw [find_id s.entity_keys hr.entities]

theorem similar_reordered (h : Settled q s) (hr : Reordered s s') : similar q s = similar q s' := by
  have hn := h.entities
  unfold similar at hn ⊢
  split_ifs at hn ⊢ with hsome
  · exact falling_unique s.similar_falling s'.similar_falling hn hr.similarEntities
  · rfl

theorem vectorChunks_reordered (h : Settled q s) (hr : Reordered s s') :
    vectorChunks q s = vectorChunks q s' := by
  have hn := h.chunks
  unfold vectorChunks at hn ⊢
  split_ifs at hn ⊢ with hsome
  · exact falling_unique s.chunk_falling s'.chunk_falling hn hr.similarChunks
  · rfl

theorem vectorEntities_reordered (h : Settled q s) (hr : Reordered s s') :
    vectorEntities cfg q s = vectorEntities cfg q s' := by
  rw [vectorEntities, vectorEntities, similar_reordered h hr, fetched_reordered hr]

theorem graphEntities_reordered (h : Settled q s) (hr : Reordered s s') :
    graphEntities q s = graphEntities q s' := by
  have hfound : linkedOrSimilar q s = linkedOrSimilar q s' := by
    rw [linkedOrSimilar, linkedOrSimilar, similar_reordered h hr]
  have hretried : retried q s = retried q s' := by
    rw [retried, retried, hfound]
  have hids : entityIdsToFetch q s = entityIdsToFetch q s' := by
    unfold entityIdsToFetch
    rw [← hretried, ← hfound]
    split_ifs with hretry
    · rw [falling_unique s.any_falling s'.any_falling (h.retry hretry) hr.anyEntities]
    · rfl
  rw [graphEntities, graphEntities, hids, fetched_reordered hr]

theorem info_reordered (h : Settled q s) (hr : Reordered s s') :
    chunkIdToInfo q s = chunkIdToInfo q s' := by
  rw [chunkIdToInfo, chunkIdToInfo, graphEntities_reordered h hr]

theorem graphChunks_one (h : Settled q s) : (graphChunks cfg q s).length ≤ 1 := by
  have hlen : (s.chunks.filter (requested q s)).length ≤ 1 := by
    refine all_equal_length (s.chunk_keys.of_map.filter _) (fun c hc c' hc' => ?_)
    rw [List.mem_filter] at hc hc'
    exact h.graph c hc.1 c' hc'.1 hc.2 hc'.2
  rw [← graphChunks_read cfg, List.length_map] at hlen
  exact hlen

theorem graphChunks_reordered (h : Settled q s) (hr : Reordered s s') :
    graphChunks cfg q s = graphChunks cfg q s' := by
  refine one_unique (graphChunks_one h) ?_
  unfold graphChunks getChunksBatch
  rw [info_reordered h hr]
  exact (hr.chunks.filter _).filterMap _

theorem keywordChunks_reordered (hr : Reordered s s') :
    keywordChunks cfg q s = keywordChunks cfg q s' := by
  rw [keywordChunks, keywordChunks, hr.fulltextChunks, hr.keywords]

theorem reordered_settled (h : Settled q s) (hr : Reordered s s') : Settled q s' where
  graph c hc c' hc' hreq hreq' := by
    unfold requested at hreq hreq'
    rw [← info_reordered h hr] at hreq hreq'
    exact h.graph c (hr.chunks.mem_iff.mpr hc) c' (hr.chunks.mem_iff.mpr hc') hreq hreq'
  chunks := vectorChunks_reordered h hr ▸ h.chunks
  entities := similar_reordered h hr ▸ h.entities
  retry hretry := by
    have hfound : linkedOrSimilar q s = linkedOrSimilar q s' := by
      rw [linkedOrSimilar, linkedOrSimilar, similar_reordered h hr]
    rw [retried, ← hfound, ← retried] at hretry
    exact (hr.anyEntities.map Prod.snd).nodup_iff.mp (h.retry hretry)

theorem mem_chunkLists {searches : List Search} {c : Source} {l : List (Chunk × ℚ)}
    (h : (chunkLists cfg searches).get c = some l) :
    ∃ e ∈ queriesToSearch cfg searches, ∃ i, (c,l) ∈ chunkResults cfg e i := by
  obtain ⟨e, he, hmem⟩ := List.mem_flatMap.mp (Record.mem_of_ofList h)
  exact ⟨e.1, (List.mem_zipIdx' he).2 ▸ List.getElem_mem _, e.2, hmem⟩

theorem mem_entityLists {searches : List Search} {c : Source} {l : List (Entity × ℚ)}
    (h : (entityLists cfg searches).get c = some l) :
    ∃ e ∈ queriesToSearch cfg searches, ∃ i, (c,l) ∈ entityResults cfg e i := by
  obtain ⟨e, he, hmem⟩ := List.mem_flatMap.mp (Record.mem_of_ofList h)
  exact ⟨e.1, (List.mem_zipIdx' he).2 ▸ List.getElem_mem _, e.2, hmem⟩

/-- Searches with the same results give the same lists. -/
theorem flatMap_again {β : Type} {f : Search → ℕ → List β} {l l' : List Search}
    (h : List.Forall₂ (fun e e' => f e = f e') l l') (n : ℕ) :
    (l.zipIdx n).flatMap (fun e => f e.1 e.2) = (l'.zipIdx n).flatMap (fun e => f e.1 e.2) := by
  induction h generalizing n with
  | nil => rfl
  | cons he _ ih =>
    rw [List.zipIdx_cons, List.zipIdx_cons, List.flatMap_cons, List.flatMap_cons, ih, he]

theorem vectorChunks_ranked (q : SearchQuery) (s : Store) : Falling (vectorChunks q s) ∧
    ((vectorChunks q s).map (fun e => e.1.id)).Nodup := by
  unfold vectorChunks
  split_ifs
  · exact ⟨s.chunk_falling, s.similar_chunk_keys⟩
  · exact ⟨List.Pairwise.nil, List.nodup_nil⟩

theorem keywordChunks_ranked (cfg : QueryConfig) (q : SearchQuery) (s : Store) :
    Falling (keywordChunks cfg q s) ∧ ((keywordChunks cfg q s).map (fun e => e.1.id)).Nodup := by
  have hscaled : ∀ (l : List (Chunk × ℚ)) (f : ℚ → ℚ), Falling l →
      (l.map (fun e => e.1.id)).Nodup → Monotone f →
      Falling (l.map (fun e => (e.1,f e.2))) ∧
        ((l.map (fun e => (e.1,f e.2))).map (fun e => e.1.id)).Nodup := by
    intro l f hl hn hf
    refine ⟨hl.map hf, ?_⟩
    rw [List.map_map]
    exact hn
  unfold keywordChunks
  split_ifs
  · split
    · exact ⟨List.Pairwise.nil, List.nodup_nil⟩
    · rename_i x scores hscores
      refine hscaled _ (fun y => y/_) s.fulltext_falling s.fulltext_keys (fun a b hab => ?_)
      refine div_le_div_of_nonneg_right hab ?_
      have hx : x ∈ s.fulltextChunks.map Prod.snd := hscores ▸ List.mem_cons_self
      obtain ⟨e, he, rfl⟩ := List.mem_map.mp hx
      split_ifs with hzero
      · exact zero_le_one
      · rw [List.foldl_max]
        exact le_max_of_le_left (s.fulltext_scores e he)
  · exact hscaled _ _ (search_falling _ _ _ _ _ _ _)
      (search_keys _ _ _ _ _ _ (s.keywords.walk_nodup _)) normalize_bm25_monotone

theorem ranked_of_scored {l : List (Entity × ℚ)} {ids : List (ℕ × ℚ)}
    (h : scored Entity.id l = ids) (hfall : Falling ids) (hn : (ids.map Prod.fst).Nodup) :
    Falling l ∧ (l.map (fun e => e.1.id)).Nodup := by
  subst h
  refine ⟨List.pairwise_map.mp hfall, ?_⟩
  rw [scored, List.map_map] at hn
  exact hn

theorem similar_ranked (q : SearchQuery) (s : Store) : Falling (similar q s) ∧
    ((similar q s).map Prod.fst).Nodup ∧
      ∀ p ∈ similar q s, p.1 ∈ s.entities.map Entity.id ∧ p.2 ≤ 1 := by
  unfold similar
  split_ifs
  · exact ⟨s.similar_falling, s.similar_keys, s.similar_stored⟩
  · exact ⟨List.Pairwise.nil, List.nodup_nil, fun p hp => absurd hp List.not_mem_nil⟩

theorem vectorEntities_scored (cfg : QueryConfig) (q : SearchQuery) (s : Store) :
    scored Entity.id (vectorEntities cfg q s) = (similar q s).take (cfg.maxEntities*2) :=
  fetched_stored (fun p hp => ((similar_ranked q s).2.2 p (List.mem_of_mem_take hp)).1)

theorem vectorEntities_ranked (cfg : QueryConfig) (q : SearchQuery) (s : Store) :
    Falling (vectorEntities cfg q s) ∧
      ((vectorEntities cfg q s).map (fun e => e.1.id)).Nodup := by
  obtain ⟨hfall, hn, -⟩ := similar_ranked q s
  exact ranked_of_scored (vectorEntities_scored cfg q s) (hfall.sublist (List.take_sublist _ _))
    (hn.sublist ((List.take_sublist _ _).map Prod.fst))

theorem linkedOrSimilar_ranked (q : SearchQuery) (s : Store) :
    Falling (linkedOrSimilar q s) ∧ ((linkedOrSimilar q s).map Prod.fst).Nodup := by
  obtain ⟨hfall, hn, hle⟩ := similar_ranked q s
  have hlinked : (firsts (q.linkedEntityIds.take 10)).map
      (Prod.fst ∘ fun id => (id,(1 : ℚ))) = firsts (q.linkedEntityIds.take 10) := List.map_id _
  unfold linkedOrSimilar
  constructor
  · refine List.pairwise_append.mpr ⟨?_, ?_, fun a ha b hb => ?_⟩
    · exact List.pairwise_map.mpr (List.pairwise_of_forall (fun _ _ => le_rfl))
    · exact (hfall.sublist (List.take_sublist 8 _)).filter _
    · obtain ⟨id, _, rfl⟩ := List.mem_map.mp ha
      exact (hle b (List.mem_of_mem_take (List.mem_filter.mp hb).1)).2
  · rw [List.map_append, List.map_map, hlinked, List.nodup_append]
    refine ⟨firsts_nodup _, ?_, fun a ha b hb heq => ?_⟩
    · exact hn.sublist ((List.filter_sublist.trans (List.take_sublist 8 _)).map Prod.fst)
    · obtain ⟨p, hp, rfl⟩ := List.mem_map.mp hb
      have hnot := (List.mem_filter.mp hp).2
      rw [decide_eq_true_iff] at hnot
      exact hnot (heq ▸ ha)

theorem graphEntities_ranked (q : SearchQuery) (s : Store) :
    Falling (graphEntities q s) ∧ ((graphEntities q s).map (fun e => e.1.id)).Nodup := by
  have hfetch : Falling (entityIdsToFetch q s) ∧
      ((entityIdsToFetch q s).map Prod.fst).Nodup := by
    unfold entityIdsToFetch
    split_ifs
    · exact ⟨s.any_falling.sublist (List.take_sublist 5 _),
        s.any_keys.sublist ((List.take_sublist 5 _).map Prod.fst)⟩
    · exact linkedOrSimilar_ranked q s
  exact ranked_of_scored (fetched_scored s _) (hfetch.1.filter _)
    (hfetch.2.sublist (List.filter_sublist.map Prod.fst))

theorem graphChunks_falling (h : Settled q s) : Falling (graphChunks cfg q s) := by
  have hone := @graphChunks_one cfg q s h
  match graphChunks cfg q s, hone with
  | [], _ => exact List.Pairwise.nil
  | [e], _ => exact List.pairwise_singleton _ e

theorem chunkResults_ranked (h : Settled q s) {i : ℕ} {c : Source} {l : List (Chunk × ℚ)}
    (hl : (c,l) ∈ chunkResults cfg (q,s) i) :
    Falling l ∧ (l.map (fun e => e.1.id)).Nodup := by
  simp only [chunkResults, List.mem_cons, Prod.mk.injEq, List.not_mem_nil, or_false] at hl
  rcases hl with ⟨-, rfl⟩ | ⟨-, rfl⟩ | ⟨-, rfl⟩
  · exact vectorChunks_ranked q s
  · exact ⟨graphChunks_falling h, graphChunks_keys cfg q s⟩
  · exact keywordChunks_ranked cfg q s

theorem entityResults_ranked {i : ℕ} {c : Source} {l : List (Entity × ℚ)}
    (hl : (c,l) ∈ entityResults cfg (q,s) i) :
    Falling l ∧ (l.map (fun e => e.1.id)).Nodup := by
  simp only [entityResults, List.mem_cons, Prod.mk.injEq, List.not_mem_nil, or_false] at hl
  rcases hl with ⟨-, rfl⟩ | ⟨-, rfl⟩
  · exact vectorEntities_ranked cfg q s
  · exact graphEntities_ranked q s

theorem chunkResults_again (h : Settled q s) (hr : Reordered s s') :
    chunkResults cfg (q,s) = chunkResults cfg (q,s') := by
  funext i
  simp only [chunkResults]
  rw [vectorChunks_reordered h hr, graphChunks_reordered h hr, keywordChunks_reordered hr]

theorem entityResults_again (h : Settled q s) (hr : Reordered s s') :
    entityResults cfg (q,s) = entityResults cfg (q,s') := by
  funext i
  simp only [entityResults]
  rw [vectorEntities_reordered h hr, graphEntities_reordered h hr]

/-- The searches that are made are settled. -/
theorem made_again {searches again : List Search}
    (h : ∀ e ∈ searches.take 3, Settled e.1 e.2) (hr : List.Forall₂ Rerun searches again) :
    List.Forall₂ (fun e e' => Settled e.1 e.2 ∧ Rerun e e') (queriesToSearch cfg searches)
      (queriesToSearch cfg again) := by
  refine (List.forall₂_and_left _ _).mpr ⟨fun e he => h e ?_, List.forall₂_take _ hr⟩
  refine List.take_subset_take_left searches ?_ he
  split_ifs
  · exact le_rfl
  · exact Nat.le_of_ble_eq_true rfl

/-- They are settled when they are made again. -/
theorem settled_again {searches again : List Search}
    (h : ∀ e ∈ searches.take 3, Settled e.1 e.2) (hr : List.Forall₂ Rerun searches again) :
    ∀ e ∈ queriesToSearch cfg again, Settled e.1 e.2 := by
  refine ((List.forall₂_and_left (R := fun _ _ => True) _ _).mp
    ((made_again h hr).flip.imp ?_)).1
  rintro ⟨q,s'⟩ ⟨_,s⟩ ⟨hs, rfl, hrs⟩
  exact ⟨reordered_settled hs hrs, trivial⟩

/-- Lists that are settled fall and agree. -/
theorem settled_meets {searches : List Search} (h : ∀ e ∈ searches.take 3, Settled e.1 e.2) :
    Meets searches where
  chunks_fall again hr cfg c l hget := by
    obtain ⟨l', hget', hids, hfalling⟩ := handed_get hget
    obtain ⟨⟨q,s'⟩, he, i, hl⟩ := mem_chunkLists hget'
    exact handed_ranked hids hfalling (chunkResults_ranked (settled_again h hr _ he) hl)
  entities_fall again hr cfg c l hget := by
    obtain ⟨l', hget', hids, hfalling⟩ := handed_get hget
    obtain ⟨⟨q,s'⟩, he, i, hl⟩ := mem_entityLists hget'
    exact handed_ranked hids hfalling (entityResults_ranked hl)
  chunks_agree again hr cfg := by
    have hlists : chunkLists cfg again = chunkLists cfg searches := by
      refine congrArg Record.ofList (flatMap_again ?_ 0).symm
      refine (made_again h hr).imp ?_
      rintro ⟨q,s⟩ ⟨_,s'⟩ ⟨hs, rfl, hrs⟩
      exact chunkResults_again hs hrs
    simp only [fusedChunks, hlists]
    exact agree_refl _ _
  entities_agree again hr cfg := by
    have hlists : entityLists cfg again = entityLists cfg searches := by
      refine congrArg Record.ofList (flatMap_again ?_ 0).symm
      refine (made_again h hr).imp ?_
      rintro ⟨q,s⟩ ⟨_,s'⟩ ⟨hs, rfl, hrs⟩
      exact entityResults_again hs hrs
    simp only [fusedEntities, hlists]
    exact agree_refl _ _

end Settled

def only (base : SourceType) (maxEntities : ℕ) : QueryConfig where
  maxChunks := 0
  maxEntities := maxEntities
  graphChunkQuerySimWeight := 0
  fulltext := false
  enableQueryExpansion := false
  enableMultiStage := false
  rrfK := 60
  weight b := if b = base then 1 else 0

section Turned

variable {q : SearchQuery} {s s' : Store} {expansions expansions' : List Search}

theorem only_chunk_weights (base : SourceType) (n : ℕ) (q : SearchQuery) (s : Store)
    (expansions : List Search) :
    ∀ l ∈ (chunkLists (only base n) ((q,s)::expansions)).entries,
      ((weights (only base n).weight (chunkLists (only base n) ((q,s)::expansions))).get
        l.1).getD 1 = if l.1 = ⟨base,none⟩ then 1 else 0 := by
  intro l hl
  have hkey : l.1 ∈ [(⟨.vector,none⟩ : Source),⟨.graph,none⟩,⟨.keyword,none⟩] :=
    List.mem_map_of_mem hl
  obtain ⟨b, hb⟩ : ∃ b, l.1 = ⟨b,none⟩ := by
    simp only [List.mem_cons, List.not_mem_nil, or_false] at hkey
    rcases hkey with h | h | h
    · exact ⟨_, h⟩
    · exact ⟨_, h⟩
    · exact ⟨_, h⟩
  rw [weights_get _ hl (by rw [hb]), Option.getD_some, hb, only]
  simp

theorem only_entityWeights {base : SourceType} (hbase : base ≠ .keyword) (n : ℕ) (q : SearchQuery)
    (s : Store) (expansions : List Search) :
    ∀ l ∈ (entityLists (only base n) ((q,s)::expansions)).entries,
      ((entityWeights (only base n).weight).get l.1).getD 1 =
        if l.1 = ⟨base,none⟩ then 1 else 0 := by
  intro l hl
  have hkey : l.1 ∈ [(⟨.vector,none⟩ : Source),⟨.graph,none⟩] := List.mem_map_of_mem hl
  simp only [List.mem_cons, List.not_mem_nil, or_false] at hkey
  rcases hkey with h | h
  · rw [h]
    cases base <;> rfl
  · rw [h]
    cases base with
    | vector => rfl
    | graph => rfl
    | keyword => exact absurd rfl hbase

/-- Two chunks of one list that change places. -/
theorem chunks_disagree {base : SourceType} {l l' : List (Chunk × ℚ)}
    (hl : (chunkLists (only base 0) ((q,s)::expansions)).get ⟨base,none⟩ = some l)
    (hl' : (chunkLists (only base 0) ((q,s')::expansions')).get ⟨base,none⟩ = some l')
    (hn : (l.map (fun e => e.1.id)).Nodup) (hn' : (l'.map (fun e => e.1.id)).Nodup)
    {e e' : Chunk × ℚ} (h : Earlier l e e') (h' : Earlier l' e' e) (heq : e.2 = e'.2) :
    ¬ Agree Chunk.id (fusedChunks (only base 0) ((q,s)::expansions))
      (fusedChunks (only base 0) ((q,s')::expansions')) := by
  have hids : ∀ l : List (Chunk × ℚ), (scored Chunk.id l).map Prod.fst =
      l.map (fun e => e.1.id) := fun l => by
    rw [scored, List.map_map]
    rfl
  exact not_agree hl hl' (only_chunk_weights base 0 q s expansions)
    (only_chunk_weights base 0 q s' expansions') (hids l ▸ hn) (hids l' ▸ hn') (earlier_map _ h)
    (earlier_map _ h') heq

theorem entities_disagree {base : SourceType} (hbase : base ≠ .keyword) {n : ℕ}
    {l l' : List (Entity × ℚ)} {p p' : List (ℕ × ℚ)}
    (hl : (entityLists (only base n) ((q,s)::expansions)).get ⟨base,none⟩ = some l)
    (hl' : (entityLists (only base n) ((q,s')::expansions')).get ⟨base,none⟩ = some l')
    (hp : scored Entity.id l = p) (hp' : scored Entity.id l' = p') (hn : (p.map Prod.fst).Nodup)
    (hn' : (p'.map Prod.fst).Nodup) {e e' : ℕ × ℚ} (h : Earlier p e e') (h' : Earlier p' e' e)
    (heq : e.2 = e'.2) :
    ¬ Agree Entity.id (fusedEntities (only base n) ((q,s)::expansions))
      (fusedEntities (only base n) ((q,s')::expansions')) := by
  subst hp hp'
  exact not_agree hl hl' (only_entityWeights hbase n q s expansions)
    (only_entityWeights hbase n q s' expansions') hn hn' h h' heq

theorem Reordered.refl (s : Store) : Reordered s s :=
  ⟨.refl _, .refl _, .refl _, .refl _, .refl _, rfl, rfl⟩

/-- The query's own reads come in another order. -/
theorem rerun_first (h : Reordered s s') (q : SearchQuery) (expansions : List Search) :
    List.Forall₂ Rerun ((q,s)::expansions) ((q,s')::expansions) :=
  .cons ⟨rfl, h⟩ (List.forall₂_same.mpr (fun e _ => ⟨rfl, Reordered.refl e.2⟩))

def reversedChunks (s : Store) : Store :=
  { s with
    chunks := s.chunks.reverse
    chunk_keys := by
      rw [List.map_reverse]
      exact List.nodup_reverse.mpr s.chunk_keys }

def turnedChunks (s : Store) : Store :=
  { s with
    similarChunks := turn s.similarChunks
    chunk_falling := turn_falling _
    similar_chunk_keys := ((turn_perm _).map _).nodup_iff.mpr s.similar_chunk_keys }

def turnedSimilar (s : Store) : Store :=
  { s with
    similarEntities := turn s.similarEntities
    similar_falling := turn_falling _
    similar_keys := ((turn_perm _).map _).nodup_iff.mpr s.similar_keys
    similar_stored := fun p hp => s.similar_stored p ((turn_perm _).mem_iff.mp hp) }

def turnedAny (s : Store) : Store :=
  { s with
    anyEntities := turn s.anyEntities
    any_falling := turn_falling _
    any_keys := ((turn_perm _).map _).nodup_iff.mpr s.any_keys
    any_stored := fun p hp => s.any_stored p ((turn_perm _).mem_iff.mp hp)
    any_length := (turn_perm _).length_eq.trans_le s.any_length }

theorem graphChunks_reversed (cfg : QueryConfig) (q : SearchQuery) (s : Store) :
    graphChunks cfg q (reversedChunks s) = (graphChunks cfg q s).reverse := by
  have hinfo : chunkIdToInfo q (reversedChunks s) = chunkIdToInfo q s := rfl
  have hchunks : (reversedChunks s).chunks = s.chunks.reverse := rfl
  unfold graphChunks getChunksBatch
  simp only [hinfo, hchunks, List.filter_reverse, List.filterMap_reverse]

/-- Of two chunks from the graph one order of the reads does not fall, or two
orders disagree. -/
theorem meets_graph (h : Meets ((q,s)::expansions)) : ∀ c ∈ s.chunks, ∀ c' ∈ s.chunks, requested q s c = true →
    requested q s c' = true → c = c' := by
  intro c hc c' hc' hreq hreq'
  by_contra hne
  have hr : Reordered s (reversedChunks s) :=
    { Reordered.refl s with chunks := (List.reverse_perm _).symm }
  have hread : ∀ c ∈ s.chunks, requested q s c = true →
      ∃ e ∈ graphChunks (only .graph 0) q s, e.1 = c := by
    intro c hc hreq
    have hmem : c ∈ s.chunks.filter (requested q s) := List.mem_filter.mpr ⟨hc, hreq⟩
    rw [← graphChunks_read (only .graph 0)] at hmem
    exact List.mem_map.mp hmem
  obtain ⟨e, he, rfl⟩ := hread c hc hreq
  obtain ⟨e', he', rfl⟩ := hread c' hc' hreq'
  have hagain := rerun_first hr q expansions
  have hfalls := (h.chunks_fall _ (rerun_first (Reordered.refl s) q expansions) (only .graph 0)
    ⟨.graph,none⟩ _ rfl).falling
  have hfalls' := (h.chunks_fall _ hagain (only .graph 0) ⟨.graph,none⟩ _ rfl).falling
  have hback := graphChunks_reversed (only .graph 0) q s
  have hswap : ∀ a b, Earlier (graphChunks (only .graph 0) q s) a b → False := by
    intro a b hab
    have hba : Earlier (graphChunks (only .graph 0) q (reversedChunks s)) b a :=
      hback ▸ earlier_reverse.mpr hab
    have hle := List.pairwise_iff_forall_sublist.mp hfalls hab
    have hge := List.pairwise_iff_forall_sublist.mp hfalls' hba
    exact chunks_disagree rfl rfl (graphChunks_keys _ q s) (graphChunks_keys _ q _) hab hba
      (le_antisymm hge hle) (h.chunks_agree _ hagain (only .graph 0))
  rcases earlier_total he he' (fun heq => hne (congrArg Prod.fst heq)) with hab | hba
  · exact hswap e e' hab
  · exact hswap e' e hba

theorem meets_chunks (h : Meets ((q,s)::expansions)) : ((vectorChunks q s).map Prod.snd).Nodup := by
  by_contra hn
  obtain ⟨e, e', hearlier, heq⟩ := exists_tie hn
  have hr : Reordered s (turnedChunks s) :=
    { Reordered.refl s with similarChunks := (turn_perm _).symm }
  have hvector : vectorChunks q s = s.similarChunks ∧
      vectorChunks q (turnedChunks s) = turn s.similarChunks := by
    unfold vectorChunks at hearlier ⊢
    split_ifs at hearlier ⊢ with hsome
    · exact ⟨rfl, rfl⟩
    · exact absurd hearlier.mem.1 List.not_mem_nil
  have hkeys := s.similar_chunk_keys
  rw [hvector.1] at hearlier
  refine @chunks_disagree q s (turnedChunks s) expansions expansions .vector _ _ rfl rfl
    (vectorChunks_ranked q s).2 (vectorChunks_ranked q _).2 e e' (hvector.1 ▸ hearlier) ?_ heq
    (h.chunks_agree _ (rerun_first hr q expansions) (only .vector 0))
  rw [hvector.2]
  exact turn_earlier hkeys.of_map hearlier heq

theorem meets_entities (h : Meets ((q,s)::expansions)) : ((similar q s).map Prod.snd).Nodup := by
  by_contra hn
  obtain ⟨e, e', hearlier, heq⟩ := exists_tie hn
  have hr : Reordered s (turnedSimilar s) :=
    { Reordered.refl s with similarEntities := (turn_perm _).symm }
  have hsimilar : similar q s = s.similarEntities ∧
      similar q (turnedSimilar s) = turn s.similarEntities := by
    unfold similar at hearlier ⊢
    split_ifs at hearlier ⊢ with hsome
    · exact ⟨rfl, rfl⟩
    · exact absurd hearlier.mem.1 List.not_mem_nil
  rw [hsimilar.1] at hearlier
  -- with so many entities the whole answer is taken
  set cfg := only .vector s.similarEntities.length with hcfg
  have hscored : scored Entity.id (vectorEntities cfg q s) = s.similarEntities := by
    rw [vectorEntities_scored, hsimilar.1]
    exact List.take_of_length_le (Nat.le_mul_of_pos_right _ two_pos)
  have hscored' : scored Entity.id (vectorEntities cfg q (turnedSimilar s)) =
      turn s.similarEntities := by
    rw [vectorEntities_scored, hsimilar.2]
    exact List.take_of_length_le
      ((turn_perm _).length_eq.trans_le (Nat.le_mul_of_pos_right _ two_pos))
  exact @entities_disagree q s (turnedSimilar s) expansions expansions .vector (by decide)
    s.similarEntities.length _ _ _ _ rfl rfl hscored hscored' s.similar_keys
    (turnedSimilar s).similar_keys e e' hearlier
    (turn_earlier s.similar_keys.of_map hearlier heq) heq
    (h.entities_agree _ (rerun_first hr q expansions) cfg)

theorem meets_retry (h : Meets ((q,s)::expansions)) (hretry : retried q s = true) :
    (s.anyEntities.map Prod.snd).Nodup := by
  by_contra hn
  obtain ⟨e, e', hearlier, heq⟩ := exists_tie hn
  have hr : Reordered s (turnedAny s) :=
    { Reordered.refl s with anyEntities := (turn_perm _).symm }
  have hids : entityIdsToFetch q s = s.anyEntities := by
    rw [entityIdsToFetch, if_pos hretry, List.take_of_length_le s.any_length]
  have hids' : entityIdsToFetch q (turnedAny s) = turn s.anyEntities := by
    rw [entityIdsToFetch, if_pos (show retried q (turnedAny s) = true from hretry),
      List.take_of_length_le (turnedAny s).any_length]
    rfl
  have hscored : scored Entity.id (graphEntities q s) = s.anyEntities := by
    rw [graphEntities, hids]
    exact fetched_stored (fun p hp => (s.any_stored p hp).1)
  have hscored' : scored Entity.id (graphEntities q (turnedAny s)) = turn s.anyEntities := by
    rw [graphEntities, hids']
    exact fetched_stored (fun p hp => ((turnedAny s).any_stored p hp).1)
  exact @entities_disagree q s (turnedAny s) expansions expansions .graph (by decide) 0 _ _ _ _
    rfl rfl hscored hscored' s.any_keys (turnedAny s).any_keys e e' hearlier
    (turn_earlier s.any_keys.of_map hearlier heq) heq
    (h.entities_agree _ (rerun_first hr q expansions) (only .graph 0))

end Turned

namespace Ascending

def noKeywords : Keywords where
  tokenizer := { lower := String.toList, wordChar := Char.isAlphanum }
  params := { log := fun x => x }
  listed := []
  walk _ := []
  walk_nodup _ := List.nodup_nil
  walk_candidates _ := by
    ext
    simp [BM25Index.candidates, indexChunks, BM25Index.empty]

def store : Store where
  entities := [⟨0,0,[1,2]⟩]
  chunks := [⟨1,"ice",some [1/2]⟩,⟨2,"snow",some [9/10]⟩]
  similarEntities := [(0,9/10)]
  anyEntities := []
  similarChunks := []
  fulltextChunks := []
  keywords := noKeywords
  entity_keys := by decide
  chunk_keys := by decide
  similar_falling := List.pairwise_singleton _ _
  similar_keys := by decide
  similar_stored p hp := by
    rw [List.mem_singleton.mp hp]
    exact ⟨List.mem_cons_self, by norm_num⟩
  any_falling := List.Pairwise.nil
  any_keys := List.nodup_nil
  any_stored p hp := absurd hp List.not_mem_nil
  any_length := Nat.zero_le 5
  chunk_falling := List.Pairwise.nil
  similar_chunk_keys := List.nodup_nil
  fulltext_falling := List.Pairwise.nil
  fulltext_keys := List.nodup_nil
  fulltext_scores e he := absurd he List.not_mem_nil

def query (queryText : String) : SearchQuery where
  queryText := queryText
  keywords := []
  queryEmbedding := some [1]
  linkedEntityIds := []
  minEntitySimilarity := 1/2

def single : Store :=
  { store with
    chunks := [⟨2,"snow",some [9/10]⟩]
    chunk_keys := by decide }

theorem single_settled (text : String) : Settled (query text) single where
  graph c hc c' hc' _ _ := (List.mem_singleton.mp hc).trans (List.mem_singleton.mp hc').symm
  chunks := List.nodup_nil
  entities := List.nodup_singleton _
  retry h := by
    have hfound : (linkedOrSimilar (query text) single).isEmpty = false := rfl
    simp [retried, hfound] at h

end Ascending

end Uru.Query.SourceOrder
