import Mathlib.Data.List.FinRange
import Mathlib.Tactic
import Uru.Accel.Mmr
import Uru.Lib.SortOn

/-!
# Diversity of the results

Both engines choose diverse results by marginal relevance, computed from
normalized embeddings; a result without one stands in with that of the query.
One engine puts the chosen results first and keeps the others behind them, the
other returns the chosen ones only. Nothing is lost or repeated by the first,
and the second returns its beginning.
-/

set_option autoImplicit false

namespace Uru.Query.Diversity
open Uru.Lib Uru.Accel.Mmr Uru.Lib.Greedy

def batchDotProduct (query : List ℚ) (candidates : List (List ℚ)) (threshold : ℚ) :
    List (ℕ × ℚ) :=
  sortOn (fun r => OrderDual.toDual r.2) (candidates.zipIdx.filterMap (fun c =>
    if threshold ≤ dot query c.1 then some (c.2,dot query c.1) else none))

/-- The scores by place, zero where a candidate has none. -/
def relevance (query : List ℚ) (candidates : List (List ℚ)) : List ℚ :=
  (batchDotProduct query candidates 0).foldl (fun scores r => scores.set r.1 r.2)
    (List.replicate candidates.length 0)

theorem written_other {rs : List (ℕ × ℚ)} {i : ℕ} (h : ∀ r ∈ rs, r.1 ≠ i) (vec : List ℚ) :
    (rs.foldl (fun scores r => scores.set r.1 r.2) vec).getD i 0 = vec.getD i 0 := by
  induction rs generalizing vec with
  | nil => rfl
  | cons r rs ih =>
    rw [List.foldl_cons, ih (fun r' hr' => h r' (List.mem_cons_of_mem r hr')),
      List.getD_eq_getElem?_getD, List.getElem?_set_ne (h r List.mem_cons_self),
      List.getD_eq_getElem?_getD]

theorem written {rs : List (ℕ × ℚ)} (hn : (rs.map Prod.fst).Nodup) {i : ℕ} {x : ℚ}
    (h : (i,x) ∈ rs) {vec : List ℚ} (hi : i < vec.length) :
    (rs.foldl (fun scores r => scores.set r.1 r.2) vec).getD i 0 = x := by
  induction rs generalizing vec with
  | nil => cases h
  | cons r rs ih =>
    obtain ⟨hnew, hn⟩ := List.nodup_cons.mp hn
    rw [List.foldl_cons]
    rcases List.mem_cons.mp h with rfl | h
    · rw [written_other (fun r' hr' he => hnew (List.mem_map.mpr ⟨r', hr', he⟩)),
        List.getD_eq_getElem?_getD, List.getElem?_set_self hi, Option.getD_some]
    · exact ih hn h (by rwa [List.length_set])

/-- A candidate's score is its likeness to the query, and zero where that is negative. -/
theorem relevance_clamped (query : List ℚ) (candidates : List (List ℚ)) (i : ℕ)
    (hi : i < candidates.length) :
    (relevance query candidates).getD i 0 = max 0 (dot query candidates[i]) := by
  have hmem : ∀ r, r ∈ batchDotProduct query candidates 0 ↔
      ∃ h : r.1 < candidates.length, 0 ≤ dot query candidates[r.1] ∧
        r.2 = dot query candidates[r.1] := by
    rintro ⟨j, x⟩
    rw [batchDotProduct, mem_sortOn, List.mem_filterMap]
    constructor
    · rintro ⟨⟨c, j'⟩, hc, hif⟩
      obtain ⟨hj, hget⟩ := List.getElem?_eq_some_iff.mp (List.mem_zipIdx_iff_getElem?.mp hc)
      dsimp only at hj hget hif
      split_ifs at hif with hpos
      cases hif
      rw [← hget] at hpos ⊢
      exact ⟨hj, hpos, rfl⟩
    · rintro ⟨hj, hpos, hx⟩
      refine ⟨(candidates[j],j),
        List.mem_zipIdx_iff_getElem?.mpr (List.getElem?_eq_getElem hj), ?_⟩
      rw [if_pos hpos, ← hx]
  have hnodup : ((batchDotProduct query candidates 0).map Prod.fst).Nodup := by
    apply (((sortOn_perm _ _).map Prod.fst).nodup_iff).mpr
    have hsub : List.Sublist ((candidates.zipIdx.filterMap (fun c =>
        if (0 : ℚ) ≤ dot query c.1 then some (c.2,dot query c.1) else none)).map Prod.fst)
          (candidates.zipIdx.map Prod.snd) := by
      generalize candidates.zipIdx = l
      induction l with
      | nil => exact List.Sublist.refl _
      | cons c l ih =>
        rw [List.filterMap_cons, List.map_cons]
        split_ifs
        · exact ih.cons_cons _
        · exact ih.cons _
    apply List.Nodup.sublist hsub
    rw [List.zipIdx_map_snd]
    exact List.nodup_range'
  rw [relevance]
  by_cases hpos : 0 ≤ dot query candidates[i]
  · rw [max_eq_right hpos]
    apply written hnodup ((hmem (i,_)).mpr ⟨hi, hpos, rfl⟩)
    rw [List.length_replicate]
    exact hi
  · rw [max_eq_left (not_le.mp hpos).le, written_other, List.getD_eq_getElem?_getD,
      List.getElem?_replicate, if_pos hi, Option.getD_some]
    rintro ⟨j, x⟩ hr rfl
    obtain ⟨hj, hpos', -⟩ := (hmem (j,x)).mp hr
    exact hpos hpos'

section Select

variable {α : Type} (embedding : α → Option (List ℚ)) (normalize : List ℚ → List ℚ)
  (queryEmbedding : List ℚ)

def normEmbeddings (results : List α) (i : Fin results.length) : List ℚ :=
  normalize ((embedding (results.get i)).getD queryEmbedding)

def scores (results : List α) (i : Fin results.length) : ℚ :=
  (relevance (normalize queryEmbedding)
    (List.ofFn (normEmbeddings embedding normalize queryEmbedding results))).getD i 0

def selected (results : List α) (lambdaParam : ℚ) (k : ℕ) : List (Fin results.length) :=
  mmrRust (normEmbeddings embedding normalize queryEmbedding results)
    (scores embedding normalize queryEmbedding results) lambdaParam k

def mmrDiversitySelect (chunks : List α) (k : ℕ) (lambdaParam : ℚ) : List α :=
  if chunks.length ≤ k then chunks
  else if chunks.all (fun c => (embedding c).isNone) then chunks.take k
  else (selected embedding normalize queryEmbedding chunks lambdaParam k).map chunks.get

def mmrSelectFused (fusedResults : List α) (k : ℕ) (lambdaParam : ℚ) : List α :=
  if fusedResults.length ≤ k then fusedResults
  else if fusedResults.all (fun r => (embedding r).isNone) then fusedResults
  else
    let indices := selected embedding normalize queryEmbedding fusedResults lambdaParam k
    indices.map fusedResults.get++
      ((List.finRange fusedResults.length).filter (fun i => i ∉ indices)).map fusedResults.get

variable {embedding normalize queryEmbedding} {results : List α} {lambdaParam : ℚ} {k : ℕ}

theorem selected_length (hk : k ≤ results.length) :
    (selected embedding normalize queryEmbedding results lambdaParam k).length = k := by
  rw [selected, mmrRust_greedy, greedy, select_length (List.nodup_finRange _),
    List.length_finRange]
  exact min_eq_left hk

theorem selected_nodup :
    (selected embedding normalize queryEmbedding results lambdaParam k).Nodup := by
  rw [selected, mmrRust_greedy]
  exact select_nodup k

/-- Chosen places first, the other ones behind them, are all the places. -/
theorem chosen_first {n : ℕ} {indices : List (Fin n)} (h : indices.Nodup) :
    (indices++(List.finRange n).filter (fun i => i ∉ indices)).Perm (List.finRange n) := by
  apply (List.perm_ext_iff_of_nodup ?_ (List.nodup_finRange n)).mpr
  · intro i
    simp [em]
  · apply h.append ((List.nodup_finRange n).filter _)
    intro i hi hi'
    exact of_decide_eq_true (List.mem_filter.mp hi').2 hi

theorem fused_perm :
    (mmrSelectFused embedding normalize queryEmbedding results k lambdaParam).Perm results := by
  unfold mmrSelectFused
  split_ifs
  · exact List.Perm.refl _
  · exact List.Perm.refl _
  · dsimp only
    rw [← List.map_append]
    apply ((chosen_first selected_nodup).map results.get).trans
    rw [List.map_get_finRange]

theorem scores_clamped (i : Fin results.length) :
    scores embedding normalize queryEmbedding results i =
      max 0 (dot (normalize queryEmbedding)
        (normEmbeddings embedding normalize queryEmbedding results i)) := by
  have hi : i.val < (List.ofFn
      (normEmbeddings embedding normalize queryEmbedding results)).length := by
    rw [List.length_ofFn]
    exact i.isLt
  rw [scores, relevance_clamped _ _ _ hi, List.getElem_ofFn]

/-- Reordering loses and repeats nothing, and the other engine's answer is its beginning, as
long as the number of results asked for. Relevance is the likeness to the query, clamped. -/
theorem diversity_spec (embedding : α → Option (List ℚ)) (normalize : List ℚ → List ℚ)
    (queryEmbedding : List ℚ) (results : List α) (k : ℕ) (lambdaParam : ℚ) :
    (mmrSelectFused embedding normalize queryEmbedding results k lambdaParam).Perm results ∧
    mmrDiversitySelect embedding normalize queryEmbedding results k lambdaParam =
      (mmrSelectFused embedding normalize queryEmbedding results k lambdaParam).take k ∧
    (mmrDiversitySelect embedding normalize queryEmbedding results k lambdaParam).length =
      min k results.length ∧
    ∀ i, scores embedding normalize queryEmbedding results i =
      max 0 (dot (normalize queryEmbedding)
        (normEmbeddings embedding normalize queryEmbedding results i)) := by
  have htake : mmrDiversitySelect embedding normalize queryEmbedding results k lambdaParam =
      (mmrSelectFused embedding normalize queryEmbedding results k lambdaParam).take k := by
    unfold mmrDiversitySelect mmrSelectFused
    split_ifs with hk hnone
    · rw [List.take_of_length_le hk]
    · rfl
    · dsimp only
      rw [List.take_append_of_le_length, List.take_of_length_le]
      · rw [List.length_map, selected_length (not_le.mp hk).le]
      · rw [List.length_map, selected_length (not_le.mp hk).le]
  refine ⟨fused_perm, htake, ?_, scores_clamped⟩
  rw [htake, List.length_take, fused_perm.length_eq]

end Select

end Uru.Query.Diversity
