import Uru.Dream.MirrorLiveSet

/-!
# The operations whose mirror is exact

Mirroring shows what the rows show as long as no edge that the operation closes
carries a window of its own; taking it back does so as long as, moreover, no
such edge was tombstoned before or joined two absorbed members.
-/

set_option autoImplicit false

namespace Uru.Dream

open Uru.Storage Uru.Lib Uru.Lib.Table

variable (sanitizeCypherLabel : String → String)
variable (cfg : DreamConfig) (judge : CandidatePair → Decision)

/-- The graph shows the relational live set after the operation, and again
after both stores have taken it back. -/
def MirrorExact (op : MutationOp) (now back : Time) (c : Content) (g : Graph) : Prop :=
  let done := applyOp cfg judge now c op
  let mirrored := applyMirrorTargets sanitizeCypherLabel (extractMirrorTargets done.2) []
    now g
  let undone := dreamUndo sanitizeCypherLabel back op done.2 done.1 mirrored
  (∀ t, now ≤ t → SameLive t done.1 mirrored) ∧ (∀ t, back ≤ t → SameLive t undone.1 undone.2)

def Listed (c : Content) : MutationOp → Prop
  | .dedupeEntities op => op.canonicalId ∈ c.entities.map Entity.id
  | .pruneEdges _ _ => True

/-- The condition on the rows: an edge the operation closes has no other end of
life, and none of the edges it closes joins two absorbed members. -/
def Mirrorable (now : Time) (c : Content) : MutationOp → Prop
  | .dedupeEntities op => ∀ r ∈ c.relationships, Recorded (absorbed cfg judge op) r →
      Folds op.canonicalId (absorbed cfg judge op) r →
      ¬ Joins (absorbed cfg judge op) r ∧ r.validTo = none ∧ r.validUntil = none
  | .pruneEdges _ rid => ∀ r ∈ c.relationships, r.id = rid → r.live now = true →
      r.validUntil = none

variable {sanitizeCypherLabel cfg judge} {op : DedupeOp} {now back t : Time}
variable {c : Rows} {g : Graph} {r s : Relationship} {x : GraphEdge}

section Shown

theorem liveEnds_of_same (h : SameRow r s) : liveEnds t s = liveEnds t r := by
  rw [← h]
  rfl

theorem liveEnds_dead (h : r.invalidatedAt ≠ none) : liveEnds t r = none := by
  simp [liveEnds, Relationship.live, Option.isNone_iff_eq_none, h]

/-- A closed edge shows nothing from then on, unless it had a window. -/
theorem edgeEnds_closed (ht : now ≤ t) :
    edgeEnds t ((closeEdge now x.id).on x) = none ↔
      ∀ v, x.validUntil = some v → windowOpen t (some v) = false := by
  cases hv : x.validUntil with
  | none => simp [Update.on, Update.hits, closeEdge, hv, edgeEnds, windowOpen, ht]
  | some v => simp [Update.on, Update.hits, closeEdge, hv, edgeEnds]

theorem edge_window (hx : EdgeOf sanitizeCypherLabel now r x)
    (hclean : r.live now = true → r.validUntil = none) (ht : now ≤ t) :
    ∀ v, x.validUntil = some v → windowOpen t (some v) = false := by
  intro v hv
  by_cases htomb : Tombstoned r
  · exact hv ▸ closed_later (hx.closed htomb) ht
  · have hvu := hx.window htomb
    obtain ⟨hto, hinv⟩ := not_or.mp htomb
    refine closed_later ?_ ht
    by_contra hopen
    have hlive : r.live now = true := by
      simp_all [Relationship.live]
    rw [hv, hclean hlive] at hvu
    cases hvu

end Shown

section Forward

theorem forward_shown (hm : Mirrored sanitizeCypherLabel now c.toContent g)
    (hop : op.canonicalId ∈ c.entities.map Entity.id)
    (hclean : Mirrorable cfg judge now c.toContent (.dedupeEntities op))
    (hr : r ∈ c.relationships) (hx : EdgeOf sanitizeCypherLabel now r x) (ht : now ≤ t) :
    liveEnds t (mergedRow now op.opId op.canonicalId (absorbed cfg judge op) r) =
      edgeEnds t (mirroredEdge sanitizeCypherLabel now (extractMirrorTargets (.merges
        (applyVectorcypherDedupeEntities cfg judge now op c.toContent).2.merges)) g x) := by
  by_cases h : Recorded (absorbed cfg judge op) r
  · by_cases hf : Folds op.canonicalId (absorbed cfg judge op) r
    · have hdead : (mergedRow now op.opId op.canonicalId (absorbed cfg judge op)
          r).invalidatedAt = some now := mergedRow_folds (canonical_not_absorbed op) h hf
      rw [liveEnds_dead (by rw [hdead]; exact Option.some_ne_none _),
        mirroredEdge_folds hr hx.id h hf]
      exact ((edgeEnds_closed ht).mpr
        (edge_window hx (fun _ => (hclean r hr h hf).2.2) ht)).symm
    · rw [mergedRow_moves (canonical_not_absorbed op) h hf, mirroredEdge_moves hm hop hr hx h hf,
        edgeEnds, ← live_of_edgeOf hx ht]
      rfl
  · rw [mergedRow_of_not_recorded h, mirroredEdge_unrecorded hr hx.id h]
    exact same_of_edgeOf hx ht

end Forward

section Backward

theorem row_given_back (hn : ¬ (Recorded (absorbed cfg judge op) r ∧
      Folds op.canonicalId (absorbed cfg judge op) r))
    (hi : r.invalidatedAt = none → r.invalidatedBy = none) :
    SameRow r (unmergedRow now op.opId op.canonicalId back (absorbed cfg judge op) r
      (mergedRow now op.opId op.canonicalId (absorbed cfg judge op) r)) := by
  refine (row_restored_iff (canonical_not_absorbed op) hi).mpr (fun ⟨hinv, hj⟩ => hn ?_)
  exact ⟨⟨hinv, _, hj.1, Or.inl rfl⟩, folds_of_joins hj⟩

/-- A loop that was reopened shows its ends for ever; the row does so when it
has no end of life and its ends were given back. -/
theorem loop_shown_iff (hr : r ∈ c.relationships) (hx : EdgeOf sanitizeCypherLabel now r x)
    (h : Recorded (absorbed cfg judge op) r) :
    (∀ t, back ≤ t → liveEnds t (unmergedRow now op.opId op.canonicalId back
        (absorbed cfg judge op) r
        (mergedRow now op.opId op.canonicalId (absorbed cfg judge op) r)) =
      edgeEnds t { x with validUntil := none }) ↔
      ¬ Joins (absorbed cfg judge op) r ∧ r.validTo = none ∧ r.validUntil = none := by
  have hshown : ∀ t, edgeEnds t { x with validUntil := none } =
      some (r.sourceEntityId, r.targetEntityId) := by
    intro t
    rw [← (hx.ends h.1).1, ← (hx.ends h.1).2.1]
    rfl
  have hsame : ¬ Joins (absorbed cfg judge op) r → SameRow r
      (unmergedRow now op.opId op.canonicalId back (absorbed cfg judge op) r
        (mergedRow now op.opId op.canonicalId (absorbed cfg judge op) r)) := fun hj =>
    (row_restored_iff (canonical_not_absorbed op) (c.invalidation r hr)).mpr (fun hb => hj hb.2)
  constructor
  · intro hall
    have hj : ¬ Joins (absorbed cfg judge op) r := by
      intro hj
      have hback := (hall back le_rfl).trans (hshown back)
      rw [liveEnds] at hback
      split at hback
      · have hends := Prod.mk.inj (Option.some.inj hback)
        rcases joined_row_moved now back op.opId (canonical_not_absorbed op) h.1 hj with hne | hne
        · exact hne hends.1
        · exact hne hends.2
      · cases hback
    have hlive : ∀ t, back ≤ t → r.live t = true := by
      intro t ht
      have := (liveEnds_of_same (hsame hj)).symm.trans ((hall t ht).trans (hshown t))
      by_contra hdead
      simp [liveEnds, hdead] at this
    refine ⟨hj, ?_, ?_⟩
    · have := hlive back le_rfl
      simp only [Relationship.live, Bool.and_eq_true, Option.isNone_iff_eq_none] at this
      exact this.1.1
    · cases hv : r.validUntil with
      | none => rfl
      | some v =>
        have := hlive (max back v) (le_max_left _ _)
        simp [Relationship.live, hv, windowOpen] at this
  · rintro ⟨hj, hto, hv⟩ t _
    rw [liveEnds_of_same (hsame hj), hshown t]
    simp [liveEnds, Relationship.live, hto, hv, h.1, windowOpen]

theorem backward_shown_iff (hm : Mirrored sanitizeCypherLabel now c.toContent g)
    (hop : op.canonicalId ∈ c.entities.map Entity.id) (hr : r ∈ c.relationships)
    (hx : EdgeOf sanitizeCypherLabel now r x) (hb : now ≤ back) {g' : Graph}
    (hg : g'.nodes.map GraphNode.id = g.nodes.map GraphNode.id) :
    (∀ t, back ≤ t → liveEnds t (unmergedRow now op.opId op.canonicalId back
        (absorbed cfg judge op) r
        (mergedRow now op.opId op.canonicalId (absorbed cfg judge op) r)) =
      edgeEnds t (unmirroredEdge sanitizeCypherLabel (extractUnmirrorTargets (.merges
        (applyVectorcypherDedupeEntities cfg judge now op c.toContent).2.merges)) g'
        (mirroredEdge sanitizeCypherLabel now (extractMirrorTargets (.merges
          (applyVectorcypherDedupeEntities cfg judge now op c.toContent).2.merges)) g x))) ↔
      (Recorded (absorbed cfg judge op) r → Folds op.canonicalId (absorbed cfg judge op) r →
        ¬ Joins (absorbed cfg judge op) r ∧ r.validTo = none ∧ r.validUntil = none) := by
  by_cases hn : Recorded (absorbed cfg judge op) r ∧
      Folds op.canonicalId (absorbed cfg judge op) r
  · rw [unmirrored_closed_edge hr hx.id hn.1 hn.2, loop_shown_iff hr hx hn.1]
    exact ⟨fun h _ _ => h, fun h => h hn.1 hn.2⟩
  · rw [unmirrored_other_edge hm hop hr hx hn hg]
    refine iff_of_true (fun t ht => ?_) (fun h hf => absurd ⟨h, hf⟩ hn)
    rw [liveEnds_of_same (row_given_back hn (c.invalidation r hr))]
    exact same_of_edgeOf hx (hb.trans ht)

end Backward

section Nodes

theorem retired_node (as : List UUID) (n : GraphNode) :
    (onRow (as.map (retireNode now)) n).validUntil =
      if n.id ∈ as ∧ n.validUntil = none then some now else n.validUntil := by
  rw [onRow_each _ (fun _ => rfl)]
  · cases hv : n.validUntil <;> by_cases hmem : n.id ∈ as <;>
      simp [Update.on, Update.hits, retireNode, hv, hmem]
  · intro k y
    unfold Update.on Update.hits retireNode
    grind

theorem restored_node (as : List UUID) (n : GraphNode) :
    (onRow (as.map restoreNode) n).validUntil = if n.id ∈ as then none else n.validUntil := by
  rw [onRow_each _ (fun _ => rfl)]
  · by_cases hmem : n.id ∈ as
    · rw [if_pos hmem, if_pos hmem, Update.on]
      split
      · rfl
      · next h => simp_all [Update.hits, restoreNode]
    · rw [if_neg hmem, if_neg hmem]
  · intro k y
    unfold Update.on Update.hits restoreNode
    grind

end Nodes

section Flag

theorem reverseMerges_unchanged (opId : UUID) (ms : List MergeRecord) (d : Content)
    (h : (reverseMerges back opId ms d).2 = false) : (reverseMerges back opId ms d).1 = d := by
  induction ms generalizing d with
  | nil => rfl
  | cons m ms ih =>
    rw [reverseMerges] at h ⊢
    by_cases hm : m.applied
    · rw [if_pos hm] at h ⊢
      simp only [Bool.or_eq_false_iff] at h
      obtain ⟨⟨he, hr⟩, hrest⟩ := h
      have hd : updateRelationships (reverseEdges back opId m)
          (updateEntities (reverseEntity m) d) = d :=
        content_eq (run_of_not_touched he) (run_of_not_touched hr)
      rw [hd] at hrest ⊢
      exact ih d hrest
    · rw [if_neg hm] at h ⊢
      exact ih d h

/-- A snapshot of a row that is still there makes the reversal report a
change. -/
theorem reverseMerges_reports (opId : UUID) (ms : List MergeRecord) (d : Content)
    {prev : PreviousRelationship}
    (hp : prev ∈ (ms.filter MergeRecord.applied).flatMap MergeRecord.previousRelationships)
    (hs : prev.id ∈ d.relationships.map Relationship.id) :
    (reverseMerges back opId ms d).2 = true := by
  induction ms generalizing d with
  | nil => simp at hp
  | cons m ms ih =>
    rw [reverseMerges]
    by_cases hm : m.applied
    · rw [if_pos hm]
      rw [List.filter_cons_of_pos hm, List.flatMap_cons, List.mem_append] at hp
      simp only [Bool.or_eq_true]
      rcases hp with hp | hp
      · obtain ⟨s, hmem, hid⟩ := List.mem_map.mp hs
        refine Or.inl (Or.inr (touched_of_mem (u := restore back prev) ?_ (fun _ => rfl) hmem hid))
        exact List.mem_append_left _ (List.mem_map_of_mem hp)
      · refine Or.inr (ih _ hp ?_)
        simp only [updateRelationships, updateEntities, run_keys]
        exact hs
    · rw [if_neg hm]
      rw [List.filter_cons_of_neg hm] at hp
      exact ih d hp hs

end Flag

section Dedupe

def consolidated (cfg : DreamConfig) (judge : CandidatePair → Decision) (now : Time) (op : DedupeOp)
    (c : Content) : Content × UndoRecord :=
  applyVectorcypherDedupeEntities cfg judge now op c

def consolidatedGraph (sanitizeCypherLabel : String → String) (cfg : DreamConfig)
    (judge : CandidatePair → Decision) (now : Time) (op : DedupeOp) (c : Content) (g : Graph) :
    Graph :=
  applyMirrorTargets sanitizeCypherLabel (extractMirrorTargets (.merges
    (consolidated cfg judge now op c).2.merges)) [] now g

theorem consolidated_relationships (c : Content) :
    (consolidated cfg judge now op c).1.relationships = c.relationships.map
      (mergedRow now op.opId op.canonicalId (absorbed cfg judge op)) :=
  apply_relationships op.one_canonical c

theorem consolidated_entities (c : Content) :
    (consolidated cfg judge now op c).1.entities = c.entities.map
      (fun e => (absorbed cfg judge op).foldl (fun e a => retired now a e) e) :=
  apply_entities c

theorem forward_same_live_iff (hm : Mirrored sanitizeCypherLabel now c.toContent g) :
    SameLive t (consolidated cfg judge now op c.toContent).1
        (consolidatedGraph sanitizeCypherLabel cfg judge now op c.toContent g) ↔
      ∀ r ∈ c.relationships, ∀ x ∈ g.edges, x.id = r.id →
        liveEnds t (mergedRow now op.opId op.canonicalId (absorbed cfg judge op) r) =
          edgeEnds t (mirroredEdge sanitizeCypherLabel now (extractMirrorTargets (.merges
            (consolidated cfg judge now op c.toContent).2.merges)) g x) := by
  refine same_live_iff hm (consolidated_entities c.toContent)
    (consolidated_relationships c.toContent) (mirror_nodes _ _ _ _) (mirror_edges _ _ _ _)
    (fun e => ?_) (fun n => onRow_key _ n) (mergedRow_id _ _ _)
    (fun x => (onRow_key _ _).trans (onRow_key _ x)) (fun e n hid hv => ?_)
  · rw [retired_entity]
    split <;> rfl
  · rw [consolidated, dedupe_targets, retired_node, retired_entity, hid, hv]
    split <;> rfl

theorem graph_ids (c : Content) : (consolidatedGraph sanitizeCypherLabel cfg judge now op c
    g).nodes.map GraphNode.id = g.nodes.map GraphNode.id := by
  rw [consolidatedGraph, mirror_nodes, List.map_map]
  exact List.map_congr_left (fun n _ => onRow_key _ n)

theorem reverted_edges (c : Content) (us : UnmirrorTargets) :
    (unmirrorTargets sanitizeCypherLabel us
        (consolidatedGraph sanitizeCypherLabel cfg judge now op c g)).edges =
      g.edges.map (fun x => unmirroredEdge sanitizeCypherLabel us
        (consolidatedGraph sanitizeCypherLabel cfg judge now op c g)
        (mirroredEdge sanitizeCypherLabel now (extractMirrorTargets (.merges
          (consolidated cfg judge now op c).2.merges)) g x)) := by
  rw [unmirror_edges]
  conv_lhs => rw [consolidatedGraph, mirror_edges, List.map_map]
  rfl

theorem reverted_nodes (c : Content) : (unmirrorTargets sanitizeCypherLabel
        (extractUnmirrorTargets (.merges (consolidated cfg judge now op c).2.merges))
        (consolidatedGraph sanitizeCypherLabel cfg judge now op c g)).nodes =
      g.nodes.map (fun n => onRow ((absorbed cfg judge op).map restoreNode)
        (onRow ((absorbed cfg judge op).map (retireNode now)) n)) := by
  have hids : (extractUnmirrorTargets (.merges
      (consolidated cfg judge now op c).2.merges)).restoreEntityIds = absorbed cfg judge op := by
    rw [extractUnmirrorTargets, consolidated, dedupe_targets]
  rw [unmirror_nodes, hids, consolidatedGraph, mirror_nodes, consolidated, dedupe_targets,
    List.map_map]
  rfl

theorem backward_same_live_iff (hm : Mirrored sanitizeCypherLabel now c.toContent g) :
    SameLive t (reverseVectorcypherDedupeEntities back
        (consolidated cfg judge now op c.toContent).2
        (consolidated cfg judge now op c.toContent).1).1
      (unmirrorTargets sanitizeCypherLabel (extractUnmirrorTargets (.merges
        (consolidated cfg judge now op c.toContent).2.merges))
        (consolidatedGraph sanitizeCypherLabel cfg judge now op c.toContent g)) ↔
      ∀ r ∈ c.relationships, ∀ x ∈ g.edges, x.id = r.id →
        liveEnds t (unmergedRow now op.opId op.canonicalId back (absorbed cfg judge op) r
          (mergedRow now op.opId op.canonicalId (absorbed cfg judge op) r)) =
        edgeEnds t (unmirroredEdge sanitizeCypherLabel (extractUnmirrorTargets (.merges
          (consolidated cfg judge now op c.toContent).2.merges))
          (consolidatedGraph sanitizeCypherLabel cfg judge now op c.toContent g)
          (mirroredEdge sanitizeCypherLabel now (extractMirrorTargets (.merges
            (consolidated cfg judge now op c.toContent).2.merges)) g x)) := by
  have hentities := undone_entities cfg judge op now back c.toContent
    (consolidated cfg judge now op c.toContent).1
  rw [consolidated_entities, List.map_map] at hentities
  refine same_live_iff hm hentities
    (undone_relationships cfg judge op now back c.toContent _ _
      (consolidated_relationships c.toContent) (mergedRow_id _ _ _))
    (reverted_nodes c.toContent) (reverted_edges c.toContent _) (fun e => ?_)
    (fun n => (onRow_key _ _).trans (onRow_key _ n))
    (fun r => (unmergedRow_id _ _ _ _ _).trans (mergedRow_id _ _ _ r))
    (fun x => ((onRow_key _ _).trans (onRow_key _ _)).trans
      ((onRow_key _ _).trans (onRow_key _ x))) (fun e n hid hv => ?_)
  · rw [Function.comp_apply, retired_entity]
    split <;> split <;> rfl
  · have hids : (onRow ((absorbed cfg judge op).map (retireNode now)) n).id = e.id :=
      (onRow_key _ n).trans hid
    rw [restored_node, retired_node, Function.comp_apply, retired_entity, hids, hid, hv]
    split <;> split <;> simp_all

/-- Without a snapshot nothing is undone, and the graph is left alone. -/
theorem not_recorded_of_silent (c : Rows)
    (h : (reverseVectorcypherDedupeEntities back
      (consolidated cfg judge now op c.toContent).2
      (consolidated cfg judge now op c.toContent).1).2 = false) :
    ∀ r ∈ c.relationships, ¬ Recorded (absorbed cfg judge op) r := by
  intro r hr hrec
  obtain ⟨prev, hp, hid⟩ := (mem_snapshots cfg judge now op.opId op.one_canonical hr).mpr hrec
  have hmem : prev.id ∈
      (consolidated cfg judge now op c.toContent).1.relationships.map Relationship.id := by
    rw [consolidated_relationships, List.map_map, hid]
    exact List.mem_map.mpr ⟨r, hr, mergedRow_id _ _ _ r⟩
  exact Bool.noConfusion ((reverseMerges_reports op.opId _ _ hp hmem).symm.trans h)

theorem dedupe_exact_iff (hm : Mirrored sanitizeCypherLabel now c.toContent g)
    (hop : op.canonicalId ∈ c.entities.map Entity.id) (hb : now ≤ back) :
    MirrorExact sanitizeCypherLabel cfg judge (.dedupeEntities op) now back c.toContent g ↔
      Mirrorable cfg judge now c.toContent (.dedupeEntities op) := by
  have hforward : Mirrorable cfg judge now c.toContent (.dedupeEntities op) → ∀ t, now ≤ t →
      SameLive t (consolidated cfg judge now op c.toContent).1
        (consolidatedGraph sanitizeCypherLabel cfg judge now op c.toContent g) :=
    fun hclean t ht => (forward_same_live_iff hm).mpr
      (fun r hr x hx hid => forward_shown hm hop hclean hr (hm.edge hr hx hid) ht)
  have hexact : MirrorExact sanitizeCypherLabel cfg judge (.dedupeEntities op) now back
      c.toContent g ↔
      (∀ t, now ≤ t → SameLive t (consolidated cfg judge now op c.toContent).1
        (consolidatedGraph sanitizeCypherLabel cfg judge now op c.toContent g)) ∧
      (∀ t, back ≤ t → SameLive t (reverseVectorcypherDedupeEntities back
          (consolidated cfg judge now op c.toContent).2
          (consolidated cfg judge now op c.toContent).1).1
        (if (reverseVectorcypherDedupeEntities back
            (consolidated cfg judge now op c.toContent).2
            (consolidated cfg judge now op c.toContent).1).2 then
          unmirrorTargets sanitizeCypherLabel (extractUnmirrorTargets (.merges
            (consolidated cfg judge now op c.toContent).2.merges))
            (consolidatedGraph sanitizeCypherLabel cfg judge now op c.toContent g)
        else consolidatedGraph sanitizeCypherLabel cfg judge now op c.toContent g)) := Iff.rfl
  rw [hexact]
  cases hflag : (reverseVectorcypherDedupeEntities back
      (consolidated cfg judge now op c.toContent).2
      (consolidated cfg judge now op c.toContent).1).2 with
  | false =>
    have hclean : Mirrorable cfg judge now c.toContent (.dedupeEntities op) :=
      fun r hr h => absurd h (not_recorded_of_silent c hflag r hr)
    refine iff_of_true ⟨hforward hclean, fun t ht => ?_⟩ hclean
    have hsame : (reverseVectorcypherDedupeEntities back
        (consolidated cfg judge now op c.toContent).2
        (consolidated cfg judge now op c.toContent).1).1 =
        (consolidated cfg judge now op c.toContent).1 :=
      reverseMerges_unchanged _ _ _ hflag
    rw [hsame]
    exact hforward hclean t (hb.trans ht)
  | true =>
    simp only [if_true, backward_same_live_iff hm]
    constructor
    · rintro ⟨-, hback⟩ r hr
      obtain ⟨x, hx, hedge⟩ := hm.edge_of r hr
      exact (backward_shown_iff hm hop hr hedge hb (graph_ids _)).mp
        (fun t ht => hback t ht r hr x hx hedge.id)
    · intro hclean
      refine ⟨hforward hclean, fun t ht r hr x hx hid => ?_⟩
      exact (backward_shown_iff hm hop hr (hm.edge hr hx hid) hb (graph_ids _)).mpr
        (hclean r hr) t ht

end Dedupe

section Prune

variable {rid : UUID}

/-- A copy shows what its rows show. -/
theorem noop_same_live (hm : Mirrored sanitizeCypherLabel now c.toContent g) (ht : now ≤ t) :
    SameLive t c.toContent
      (applyMirrorTargets sanitizeCypherLabel (extractMirrorTargets .noop) [] now g) := by
  refine (same_live_iff hm (List.map_id _).symm (List.map_id _).symm
    (mirror_nodes _ _ (extractMirrorTargets .noop) _)
    (mirror_edges _ _ (extractMirrorTargets .noop) _) (fun _ => rfl) (fun n => onRow_key _ n) (fun _ => rfl)
    (fun x => (onRow_key _ _).trans (onRow_key _ x)) (fun e n _ hv => hv)).mpr ?_
  exact fun r hr x hx hid => same_of_edgeOf (hm.edge hr hx hid) ht

theorem prune_row_other (h : r.id ≠ rid) : (prune now rid).on r = r :=
  Update.on_other h

theorem prune_row_dead (hid : r.id = rid) (hto : r.validTo = none) :
    liveEnds t ((prune now rid).on r) = none := by
  simp [Update.on, Update.hits, prune, hid, hto, liveEnds, Relationship.live]

theorem prune_shown (hx : EdgeOf sanitizeCypherLabel now r x) (ht : now ≤ t)
    (hto : r.id = rid → r.validTo = none)
    (hclean : r.id = rid → r.live now = true → r.validUntil = none) :
    liveEnds t ((prune now rid).on r) = edgeEnds t ((closeEdge now rid).on x) := by
  by_cases hid : r.id = rid
  · rw [prune_row_dead hid (hto hid), ← hid, ← hx.id]
    exact ((edgeEnds_closed ht).mpr (edge_window hx (hclean hid) ht)).symm
  · have hxid : (closeEdge now rid).on x = x := Update.on_other (fun h => hid (hx.id.symm.trans h))
    rw [prune_row_other hid, hxid]
    exact same_of_edgeOf hx ht

/-- A live edge with a window of its own stays in the graph. -/
theorem no_window_of_shown (hx : EdgeOf sanitizeCypherLabel now r x) (hid : r.id = rid)
    (hlive : r.live now = true)
    (h : liveEnds now ((prune now rid).on r) = edgeEnds now ((closeEdge now rid).on x)) :
    r.validUntil = none := by
  have hopen := (live_of_edgeOf hx le_rfl).symm.trans hlive
  have hnot : ¬ Tombstoned r := by
    intro htomb
    rw [hx.closed htomb] at hopen
    cases hopen
  rw [prune_row_dead hid (not_not.mp (not_or.mp hnot).1), ← hid, ← hx.id] at h
  rw [hx.window hnot] at hopen
  cases hv : r.validUntil with
  | none => rfl
  | some v =>
    have := (edgeEnds_closed le_rfl).mp h.symm v ((hx.window hnot).trans hv)
    rw [hv, this] at hopen
    cases hopen

theorem pruned_same_live_iff (hm : Mirrored sanitizeCypherLabel now c.toContent g) {q : ℚ} :
    SameLive t (updateRelationships [prune now rid] c.toContent)
        (applyMirrorTargets sanitizeCypherLabel (extractMirrorTargets (.relationships
          [{ relationshipId := rid, previousConfidence := q, previousValidTo := none }])) []
          now g) ↔
      ∀ r ∈ c.relationships, ∀ x ∈ g.edges, x.id = r.id →
        liveEnds t ((prune now rid).on r) = edgeEnds t ((closeEdge now rid).on x) := by
  refine same_live_iff hm (List.map_id _).symm (run_eq_map _ _) (mirror_nodes _ _ _ _)
    (mirror_edges _ _ _ _) (fun _ => rfl) (fun n => onRow_key _ n) (fun r => (prune now rid).on_key r)
    (fun x => (closeEdge now rid).on_key x) (fun e n _ hv => hv)

theorem prune_exact_iff (hm : Mirrored sanitizeCypherLabel now c.toContent g) (hb : now ≤ back)
    (opId : UUID) :
    MirrorExact sanitizeCypherLabel cfg judge (.pruneEdges opId rid) now back c.toContent g ↔
      Mirrorable cfg judge now c.toContent (.pruneEdges opId rid) := by
  have hnoop : applyVectorcypherPruneEdges now rid c.toContent = (c.toContent, .noop) →
      (MirrorExact sanitizeCypherLabel cfg judge (.pruneEdges opId rid) now back
        c.toContent g) := by
    intro h
    unfold MirrorExact applyOp
    simp only [h]
    exact ⟨fun t ht => noop_same_live hm ht, fun t ht => noop_same_live hm (hb.trans ht)⟩
  cases hfind : c.relationships.find? (fun r => r.id = rid) with
  | none =>
    refine iff_of_true (hnoop (by rw [applyVectorcypherPruneEdges, hfind])) ?_
    intro r hr hid
    have := List.find?_eq_none.mp hfind r hr
    simp [hid] at this
  | some s =>
    have hs := List.mem_of_find?_eq_some hfind
    have hsid : s.id = rid := by simpa using List.find?_some hfind
    cases hto : s.validTo with
    | some v =>
      refine iff_of_true (hnoop (by rw [applyVectorcypherPruneEdges, hfind]; simp [hto])) ?_
      intro r hr hid hlive
      rw [c.relationship_ext hr hs (hid.trans hsid.symm)] at hlive
      simp [Relationship.live, hto] at hlive
    | none =>
      have happly : applyVectorcypherPruneEdges now rid c.toContent =
          (updateRelationships [prune now rid] c.toContent, .relationships
            [{ relationshipId := rid, previousConfidence := s.confidence,
               previousValidTo := none }]) := by
        rw [applyVectorcypherPruneEdges, hfind]
        simp [hto]
      unfold MirrorExact applyOp
      simp only [happly, dreamUndo, pruned_same_live_iff hm]
      constructor
      · rintro ⟨hforward, -⟩ r hr hid hlive
        obtain ⟨x, hx, hedge⟩ := hm.edge_of r hr
        exact no_window_of_shown hedge hid hlive (hforward now le_rfl r hr x hx hedge.id)
      · intro hclean
        have hall : ∀ t, now ≤ t → ∀ r ∈ c.relationships, ∀ x ∈ g.edges, x.id = r.id →
            liveEnds t ((prune now rid).on r) = edgeEnds t ((closeEdge now rid).on x) := by
          intro t ht r hr x hx hid
          exact prune_shown (hm.edge hr hx hid) ht
            (fun h => ((c.relationship_ext hr hs (h.trans hsid.symm)) ▸ hto)) (hclean r hr)
        exact ⟨hall, fun t ht => hall t (hb.trans ht)⟩

end Prune

/-- For every copy of a namespace and every operation, mirroring and taking
back show the relational live set exactly when the rows allow it. -/
theorem mirror_exact_iff (sanitizeCypherLabel : String → String) (cfg : DreamConfig)
    (judge : CandidatePair → Decision) (op : MutationOp) (now back : Time) (c : Rows) (g : Graph)
    (hm : Mirrored sanitizeCypherLabel now c.toContent g) (hop : Listed c.toContent op)
    (hb : now ≤ back) :
    MirrorExact sanitizeCypherLabel cfg judge op now back c.toContent g ↔
      Mirrorable cfg judge now c.toContent op := by
  cases op with
  | dedupeEntities op => exact dedupe_exact_iff hm hop hb
  | pruneEdges opId rid => exact prune_exact_iff hm hb opId

section Joined

def joinedGraph : Graph where
  nodes := [⟨1, none, none, none⟩, ⟨2, none, none, none⟩, ⟨3, none, none, none⟩]
  edges := [⟨10, 2, 3, "KNOWS", none⟩]
  versions := []
  communities := []
  hasMember := []
  node_keys := by decide
  edge_keys := by decide

theorem joined_mirrored : Mirrored (fun label => label) 5 joined.toContent joinedGraph where
  node_of := by decide
  entity_of := by decide
  edge_of := by
    intro r hr
    rw [List.mem_singleton.mp hr]
    exact ⟨_, List.mem_singleton_self _, rfl, fun _ => ⟨rfl, rfl, rfl⟩, fun _ => rfl,
      fun h => h.elim (fun h => absurd rfl h) (fun h => absurd rfl h)⟩
  relationship_of := by decide

def secondAbsorbed : DedupeOp where
  opId := 77
  canonicalId := 1
  merges := [⟨1, 2, some 1, "Ann", "Ann", "PERSON", [], []⟩]
  one_canonical := by simp
  absorbed_once := by decide
  canonical_kept := by decide

theorem second_absorbed_exact :
    MirrorExact (fun label => label) defaults (fun _ => .merge) (.dedupeEntities secondAbsorbed)
      5 6 joined.toContent joinedGraph := by
  refine (mirror_exact_iff _ _ _ (.dedupeEntities secondAbsorbed) 5 6 joined joinedGraph
    joined_mirrored List.mem_cons_self (by decide)).mpr ?_
  intro r hr _ hf
  rw [List.mem_singleton.mp hr] at hf
  unfold Folds at hf
  exact absurd hf (by decide +kernel)

/-- When both ends of the edge are absorbed, the rows come back with the edge at
the survivor and the graph with the edge between the two members. -/
theorem joined_members_diverge :
    ∃ op, three.handed 77 = some op ∧
      Mirrored (fun label => label) 5 joined.toContent joinedGraph ∧
      ¬ MirrorExact (fun label => label) defaults (fun _ => .merge) (.dedupeEntities op) 5 6
        joined.toContent joinedGraph := by
  refine ⟨_, rfl, joined_mirrored, fun h => ?_⟩
  have hclean := (dedupe_exact_iff joined_mirrored (by decide) (by decide)).mp h
    (acquaintance 10 2 3) (by decide)
  refine (hclean ⟨rfl, 2, by decide +kernel, Or.inl rfl⟩ ?_).1 ?_
  · unfold Folds
    decide +kernel
  · unfold Joins
    decide +kernel

end Joined

end Uru.Dream
