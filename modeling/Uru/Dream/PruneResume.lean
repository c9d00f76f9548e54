import Uru.Dream.GraphMirror
import Uru.Dream.ResumeExact

/-!
# Resuming a run that prunes edges

The planner proposes one operation for every edge that is weak, open, and
without a live source chunk. An operation takes its own edge off the next plan,
so after `k` operations the new plan is the old one without its first `k`: a
resumption that passes over `k` positions of it loses `k` operations.
-/

set_option autoImplicit false

namespace Uru.Dream

open Uru.Storage Uru.Lib Uru.Lib.Table

structure PruneOp where
  relationshipId : UUID
  relationshipType : String
  confidence : ℚ
  threshold : ℚ
  deriving DecidableEq, Repr

abbrev Edges := Content × List UUID

section Plan

variable (targetPredicates : List String) (confidenceThreshold : ℚ)

def candidate (chunks : List UUID) (r : Relationship) : Bool :=
  r.relationshipType ∈ targetPredicates && r.confidence < confidenceThreshold &&
    r.validTo.isNone && r.sourceChunkIds.all (fun cid => cid ∉ chunks)

def pruneOp (r : Relationship) : PruneOp where
  relationshipId := r.id
  relationshipType := r.relationshipType
  confidence := r.confidence
  threshold := confidenceThreshold

def planVectorcypherPruneEdges (s : Edges) : List PruneOp :=
  (s.1.relationships.filter (candidate targetPredicates confidenceThreshold s.2)).map
    (pruneOp confidenceThreshold)

def applyPrune (now : Time) (op : PruneOp) (s : Edges) : Edges :=
  ((applyVectorcypherPruneEdges now op.relationshipId s.1).1, s.2)

def pruneStack (now : Time) : Stack Edges PruneOp where
  planDream := planVectorcypherPruneEdges targetPredicates confidenceThreshold
  getApplyHandler op := some (applyPrune now op)
  applySurrealdbOp := applyPrune now
  llmOpKinds _ := false
  surrealdbNativeApplyKinds _ := true
  backendSupported _ := true
  backend := .sql
  runStore := true

end Plan

section Replan

variable {targetPredicates : List String} {confidenceThreshold : ℚ} {now : Time} {s : Edges}

theorem pruned_not_candidate (chunks : List UUID) (rid : UUID) (x : Relationship) :
    candidate targetPredicates confidenceThreshold chunks ((prune now rid).on x) =
      (candidate targetPredicates confidenceThreshold chunks x && x.id ≠ rid) := by
  by_cases hid : x.id = rid
  · cases hv : x.validTo with
    | none => simp [Update.on, Update.hits, prune, candidate, hid, hv]
    | some v => simp [Update.on, Update.hits, prune, candidate, hid, hv]
  · rw [Update.on_other (u := prune now rid) hid]
    simp [hid]

theorem candidates_after (chunks : List UUID) (rid : UUID) (xs : List Relationship) :
    (xs.map (prune now rid).on).filter
        (candidate targetPredicates confidenceThreshold chunks) =
      (xs.filter (candidate targetPredicates confidenceThreshold chunks)).filter
        (fun x => x.id ≠ rid) := by
  induction xs with
  | nil => rfl
  | cons x xs ih =>
    rw [List.map_cons, List.filter_cons, pruned_not_candidate, ih]
    by_cases hid : x.id = rid
    · cases hc : candidate targetPredicates confidenceThreshold chunks x
      · simp [hc]
      · simp [hc, hid]
    · cases hc : candidate targetPredicates confidenceThreshold chunks x
      · simp [hc]
      · have hon : (prune now rid).on x = x := Update.on_other hid
        simp [hc, hid, hon]

theorem prune_of_open {c : Content} {rid : UUID} {r : Relationship}
    (hr : c.relationships.find? (fun x => x.id = rid) = some r) (hopen : r.validTo = none) :
    (applyVectorcypherPruneEdges now rid c).1 = updateRelationships [prune now rid] c := by
  unfold applyVectorcypherPruneEdges
  rw [hr]
  dsimp only
  rw [hopen]

theorem replan_after_first (now : Time) {op : PruneOp} {rest : List PruneOp}
    (h : planVectorcypherPruneEdges targetPredicates confidenceThreshold s = op::rest) :
    planVectorcypherPruneEdges targetPredicates confidenceThreshold (applyPrune now op s) =
      rest := by
  obtain ⟨r, rs, hrs, rfl, rfl⟩ := List.map_eq_cons_iff.mp h
  obtain ⟨hr, hc⟩ := List.mem_filter.mp (hrs ▸ List.mem_cons_self : r ∈ s.1.relationships.filter _)
  have hfind : s.1.relationships.find? (fun x => x.id = r.id) = some r := by
    cases hf : s.1.relationships.find? (fun x => x.id = r.id) with
    | none => exact absurd (List.find?_eq_none.mp hf r hr) (by simp)
    | some x =>
      exact congrArg some (s.1.relationship_ext (List.mem_of_find?_eq_some hf) hr
        (by simpa using List.find?_some hf))
  have hopen : r.validTo = none := by
    simp only [candidate, Bool.and_eq_true] at hc
    exact Option.isNone_iff_eq_none.mp hc.1.2
  have hdistinct : r.id ∉ rs.map Relationship.id := by
    have hn := s.1.relationship_keys.sublist
      (List.filter_sublist (p := candidate targetPredicates confidenceThreshold s.2).map _)
    rw [hrs] at hn
    exact (List.nodup_cons.mp hn).1
  have hafter : (applyPrune now (pruneOp confidenceThreshold r) s).1.relationships =
      s.1.relationships.map (prune now r.id).on := by
    rw [applyPrune, pruneOp, prune_of_open hfind hopen]
    rfl
  have hchunks : (applyPrune now (pruneOp confidenceThreshold r) s).2 = s.2 := rfl
  rw [planVectorcypherPruneEdges, hafter, hchunks, candidates_after, hrs]
  congr 1
  rw [List.filter_cons_of_neg (by simp), List.filter_eq_self]
  intro x hx
  exact decide_eq_true (fun hid => hdistinct (hid ▸ List.mem_map_of_mem hx))

def applyAll (now : Time) (ops : List PruneOp) (s : Edges) : Edges :=
  ops.foldl (fun s op => applyPrune now op s) s

/-- Planning again after the first `k` operations gives the others. -/
theorem replan_after (k : ℕ) :
    planVectorcypherPruneEdges targetPredicates confidenceThreshold
        (applyAll now ((planVectorcypherPruneEdges targetPredicates confidenceThreshold
          s).take k) s) =
      (planVectorcypherPruneEdges targetPredicates confidenceThreshold s).drop k := by
  induction k generalizing s with
  | zero => rfl
  | succ k ih =>
    cases hp : planVectorcypherPruneEdges targetPredicates confidenceThreshold s with
    | nil => simpa [applyAll] using hp
    | cons op rest =>
      have hrest := replan_after_first now hp
      rw [List.take_succ_cons, List.drop_succ_cons, applyAll, List.foldl_cons, ← hrest]
      exact ih

/-- A pruning run that crashed after `k` operations is resumed correctly if and
only if it had done nothing yet or everything. -/
theorem prune_continues_iff (r : Run Edges PruneOp) (k : ℕ) (hk : checkpointed r = k)
    (hfollowed : r.followed =
      some (planVectorcypherPruneEdges targetPredicates confidenceThreshold s))
    (hrecorded : r.unrecorded = [])
    (hstore : r.store = applyAll now
      ((planVectorcypherPruneEdges targetPredicates confidenceThreshold s).take k) s) :
    Continues (pruneStack targetPredicates confidenceThreshold now) r .plan ↔
      k = 0 ∨ (planVectorcypherPruneEdges targetPredicates confidenceThreshold s).length ≤
        k := by
  have hplan : (pruneStack targetPredicates confidenceThreshold now).planDream r.store =
      (planVectorcypherPruneEdges targetPredicates confidenceThreshold s).drop k := by
    rw [hstore]
    exact replan_after k
  simp only [Continues, hfollowed, hrecorded, hplan, hk, Option.some.injEq, forall_eq',
    List.nil_append, List.drop_drop]
  constructor
  · intro h
    have hlen := h.length_eq
    simp only [List.length_drop] at hlen
    omega
  · rintro (rfl | h)
    · exact List.Perm.refl _
    · rw [List.drop_eq_nil_of_le h, List.drop_eq_nil_of_le (by omega)]

end Replan

section Runs

def weakEdge (rid : UUID) : Relationship where
  id := rid
  sourceEntityId := 1
  targetEntityId := 2
  relationshipType := "ASSOCIATED_WITH"
  sourceDocumentIds := []
  sourceChunkIds := []
  confidence := 1/10
  weight := 1
  validUntil := none
  validTo := none
  invalidatedAt := none
  invalidatedBy := none
  createdAt := 0
  updatedAt := 0
  columns := []

def twoWeakEdges : Edges :=
  ({ entities := []
     relationships := [weakEdge 10, weakEdge 11]
     entity_keys := by decide
     relationship_keys := by decide }, [])

def defaultPrune : Stack Edges PruneOp := pruneStack ["ASSOCIATED_WITH"] (2/5) 100

/-- Natively applied operations have a checkpoint that is a step of its own. -/
def surrealdbPrune : Stack Edges PruneOp :=
  { defaultPrune with backend := .surrealdb }

def tornRun : List (Event Edges) :=
  [.start, .plan, .iterate false, .crash, .resume, .plan, .iterate false, .checkpoint, .finish]

/-- A crash before the checkpoint of the first operation: its edge is gone from
the next plan, which is all that was left. -/
theorem torn_run_applies_once :
    Machine.Always (step surrealdbPrune) AppliedOnce (fresh twoWeakEdges) tornRun :=
  resume_applies_once surrealdbPrune twoWeakEdges tornRun (by decide +kernel)

/-- The process dies after its first operation; the resumed run comes to its
end and the second edge is still there. -/
theorem second_edge_never_pruned :
    ∃ r, Machine.run (step defaultPrune) (fresh twoWeakEdges)
        [.start, .plan, .iterate false, .crash, .resume, .plan, .iterate false, .finish] =
          some r ∧ r.ranThrough = true ∧ ¬ AppliedOnce r := by
  have hview : (Machine.run (step defaultPrune) (fresh twoWeakEdges)
      [.start, .plan, .iterate false, .crash, .resume, .plan, .iterate false, .finish]).map
        (fun r => (r.ranThrough, r.original.length, (r.applied++r.skipped).length)) =
      some (true, 2, 1) := by decide +kernel
  obtain ⟨r, hr, hv⟩ := Option.map_eq_some_iff.mp hview
  simp only [Prod.mk.injEq] at hv
  refine ⟨r, hr, hv.1, fun h => ?_⟩
  have hlen := (h.2 hv.1).length_le
  omega

end Runs

end Uru.Dream
