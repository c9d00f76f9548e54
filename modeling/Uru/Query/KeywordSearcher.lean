import Mathlib.Tactic
import Uru.Lib.Record
import Uru.Lib.SortOn
import Uru.Query.KeywordIndex

/-!
# The keyword searcher

It indexes the chunks of a namespace under their ids. Whatever the order in
which a search walks its candidates, the chunks it finds come by falling scores,
each of them once.
-/

set_option autoImplicit false

namespace Uru.Query.Keyword
open Uru.Lib Uru.Query.KeywordIndex

structure Chunk where
  id : ℕ
  content : String
  embedding : Option (List ℚ)
deriving DecidableEq

structure KeywordSearcher where
  index : BM25Index ℕ
  chunks : Record ℕ Chunk

variable (z : Tokenizer) (p : Params)

def KeywordSearcher.indexChunk (s : KeywordSearcher) (chunk : Chunk) : KeywordSearcher where
  chunks := s.chunks.set chunk.id chunk
  index := s.index.step z (.addDocument chunk.id chunk.content)

def indexChunks (chunks : List Chunk) : KeywordSearcher :=
  chunks.foldl (KeywordSearcher.indexChunk z) ⟨BM25Index.empty,∅⟩

def KeywordSearcher.search (s : KeywordSearcher) (query : String) (limit : ℕ) (minScore : ℚ)
    (candidates : List ℕ) : List (Chunk × ℚ) :=
  (s.index.search z p query limit minScore candidates).filterMap (fun r =>
    (s.chunks.get r.1).map (fun chunk => (chunk,r.2)))

def normalizeBm25Score (score : ℚ) : ℚ := if score ≤ 0 then 0 else min 1 (score/10)

theorem normalize_bm25_monotone : Monotone normalizeBm25Score := by
  intro a b hab
  unfold normalizeBm25Score
  split_ifs with ha hb hb
  · exact le_rfl
  · exact le_min zero_le_one (by linarith)
  · exact absurd (hab.trans hb) ha
  · exact min_le_min_left 1 (by linarith)

theorem chunks_id (chunks : List Chunk) {id : ℕ} {chunk : Chunk}
    (h : (indexChunks z chunks).chunks.get id = some chunk) : chunk.id = id := by
  induction chunks using List.reverseRecOn with
  | nil => cases h
  | append_singleton chunks c ih =>
    rw [indexChunks, List.foldl_append, ← indexChunks, List.foldl_cons, List.foldl_nil,
      KeywordSearcher.indexChunk] at h
    simp only [Record.get_set] at h
    split_ifs at h with hid
    · cases h
      exact hid.symm
    · exact ih h

theorem found_falling (s : BM25Index ℕ) (query : String) (limit : ℕ) (minScore : ℚ)
    (candidates : List ℕ) :
    (s.search z p query limit minScore candidates).Pairwise (fun a b => b.2 ≤ a.2) :=
  ((sortOn_pairwise (fun r : ℕ × ℚ => OrderDual.toDual r.2) _).sublist (List.take_sublist _ _)).imp
    (fun h => OrderDual.toDual_le_toDual.mp h)

theorem found_nodup (s : BM25Index ℕ) (query : String) (limit : ℕ) (minScore : ℚ)
    {candidates : List ℕ} (hc : candidates.Nodup) :
    ((s.search z p query limit minScore candidates).map Prod.fst).Nodup := by
  have hscored : ((candidates.filterMap (fun docId =>
      if minScore < s.score z p query docId then some (docId,s.score z p query docId)
      else none)).map Prod.fst).Nodup := by
    refine List.pairwise_map.mpr (List.pairwise_filterMap.mpr (hc.imp ?_))
    intro a b hne x hx y hy
    rw [Option.ite_none_right_eq_some, Option.some.injEq] at hx hy
    rw [← hx.2, ← hy.2]
    exact hne
  exact ((((sortOn_perm _ _).map Prod.fst).nodup_iff).mpr hscored).sublist
    ((List.take_sublist _ _).map Prod.fst)

theorem search_falling (s : KeywordSearcher) (query : String) (limit : ℕ) (minScore : ℚ)
    (candidates : List ℕ) :
    (s.search z p query limit minScore candidates).Pairwise (fun a b => b.2 ≤ a.2) := by
  refine List.pairwise_filterMap.mpr ((found_falling z p s.index query limit minScore
    candidates).imp ?_)
  intro a b hab x hx y hy
  obtain ⟨_, -, rfl⟩ := Option.map_eq_some_iff.mp hx
  obtain ⟨_, -, rfl⟩ := Option.map_eq_some_iff.mp hy
  exact hab

theorem search_keys (chunks : List Chunk) (query : String) (limit : ℕ) (minScore : ℚ)
    {candidates : List ℕ} (hc : candidates.Nodup) :
    (((indexChunks z chunks).search z p query limit minScore candidates).map
      (fun e => e.1.id)).Nodup := by
  refine List.pairwise_map.mpr (List.pairwise_filterMap.mpr ?_)
  refine (List.pairwise_map.mp (found_nodup z p _ query limit minScore hc)).imp ?_
  intro a b hab x hx y hy
  obtain ⟨c, hc, rfl⟩ := Option.map_eq_some_iff.mp hx
  obtain ⟨d, hd, rfl⟩ := Option.map_eq_some_iff.mp hy
  rw [chunks_id z chunks hc, chunks_id z chunks hd]
  exact hab

end Uru.Query.Keyword
