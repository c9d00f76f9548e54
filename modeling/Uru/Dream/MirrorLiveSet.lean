import Uru.Dream.DedupeUndo
import Uru.Dream.MirrorTargets

/-!
# When the graph shows the same live set

Relational rows and their copies are compared row by row, by what they show at
a time. The graph has one window where the relational row has three tombstones:
closing an edge that already has a window changes nothing, and reopening one
forgets the window it had.
-/

set_option autoImplicit false

namespace Uru.Dream

open Uru.Storage Uru.Lib Uru.Lib.Table

section Live

def liveEnds (t : Time) (r : Relationship) : Option (UUID × UUID) :=
  if r.live t then some (r.sourceEntityId, r.targetEntityId) else none

def edgeEnds (t : Time) (x : GraphEdge) : Option (UUID × UUID) :=
  if windowOpen t x.validUntil then some (x.source, x.target) else none

/-- At time `t` both stores show the same entities and the same relationships
with the same ends. -/
def SameLive (t : Time) (c : Content) (g : Graph) : Prop :=
  (∀ id, (∃ e ∈ c.entities, e.id = id ∧ e.live t) ↔
    ∃ n ∈ g.nodes, n.id = id ∧ windowOpen t n.validUntil) ∧
  (∀ id ends, (∃ r ∈ c.relationships, r.id = id ∧ liveEnds t r = some ends) ↔
    ∃ x ∈ g.edges, x.id = id ∧ edgeEnds t x = some ends)

def Tombstoned (r : Relationship) : Prop := r.validTo ≠ none ∨ r.invalidatedAt ≠ none

variable (sanitizeCypherLabel : String → String)

/-- The edge that stands for a relationship. Its window is the row's own, or
closed when the row is tombstoned; the ends of an invalidated row may differ. -/
structure EdgeOf (now : Time) (r : Relationship) (x : GraphEdge) : Prop where
  id : x.id = r.id
  ends : r.invalidatedAt = none → x.source = r.sourceEntityId ∧
    x.target = r.targetEntityId ∧ x.label = sanitizeCypherLabel r.relationshipType
  window : ¬ Tombstoned r → x.validUntil = r.validUntil
  closed : Tombstoned r → windowOpen now x.validUntil = false

/-- The graph is a copy of the relational rows as of `now`. -/
structure Mirrored (now : Time) (c : Content) (g : Graph) : Prop where
  node_of : ∀ e ∈ c.entities, ∃ n ∈ g.nodes, n.id = e.id ∧ n.validUntil = e.validUntil
  entity_of : ∀ n ∈ g.nodes, ∃ e ∈ c.entities, e.id = n.id
  edge_of : ∀ r ∈ c.relationships, ∃ x ∈ g.edges, EdgeOf sanitizeCypherLabel now r x
  relationship_of : ∀ x ∈ g.edges, ∃ r ∈ c.relationships, r.id = x.id

variable {sanitizeCypherLabel} {now t : Time} {c d : Content} {g h : Graph}

theorem closed_later {v : Option Time} (hv : windowOpen now v = false) (ht : now ≤ t) :
    windowOpen t v = false := by
  cases v with
  | none => exact absurd hv (by simp [windowOpen])
  | some u =>
    simp only [windowOpen, decide_eq_false_iff_not, not_lt] at hv ⊢
    exact hv.trans ht

theorem Mirrored.node (hm : Mirrored sanitizeCypherLabel now c g) {e : Entity} {n : GraphNode}
    (he : e ∈ c.entities) (hn : n ∈ g.nodes) (hid : n.id = e.id) :
    n.validUntil = e.validUntil := by
  obtain ⟨m, hmem, hmid, hv⟩ := hm.node_of e he
  rw [← List.inj_on_of_nodup_map g.node_keys hmem hn (hmid.trans hid.symm)]
  exact hv

theorem Mirrored.edge (hm : Mirrored sanitizeCypherLabel now c g) {r : Relationship}
    {x : GraphEdge} (hr : r ∈ c.relationships) (hx : x ∈ g.edges) (hid : x.id = r.id) :
    EdgeOf sanitizeCypherLabel now r x := by
  obtain ⟨y, hmem, hy⟩ := hm.edge_of r hr
  rw [← List.inj_on_of_nodup_map g.edge_keys hmem hx (hy.id.trans hid.symm)]
  exact hy

theorem Mirrored.has_node (hm : Mirrored sanitizeCypherLabel now c g) {id : UUID}
    (hid : id ∈ c.entities.map Entity.id) : hasNode g id = true := by
  obtain ⟨e, he, rfl⟩ := List.mem_map.mp hid
  obtain ⟨n, hn, hnid, -⟩ := hm.node_of e he
  exact List.any_eq_true.mpr ⟨n, hn, by simp [hnid]⟩

/-- The live sets agree when the windows of the nodes do and each edge shows
what its row shows. -/
theorem same_live_iff (hm : Mirrored sanitizeCypherLabel now c g)
    {E : Entity → Entity} {N : GraphNode → GraphNode} {F : Relationship → Relationship}
    {G : GraphEdge → GraphEdge} (hd : d.entities = c.entities.map E)
    (hdr : d.relationships = c.relationships.map F) (hh : h.nodes = g.nodes.map N)
    (hhe : h.edges = g.edges.map G) (hE : ∀ e, (E e).id = e.id) (hN : ∀ n, (N n).id = n.id)
    (hF : ∀ r, (F r).id = r.id) (hG : ∀ x, (G x).id = x.id)
    (hnodes : ∀ e n, n.id = e.id → n.validUntil = e.validUntil →
      (N n).validUntil = (E e).validUntil) :
    SameLive t d h ↔ ∀ r ∈ c.relationships, ∀ x ∈ g.edges, x.id = r.id →
      liveEnds t (F r) = edgeEnds t (G x) := by
  have hentities : ∀ id, (∃ e ∈ d.entities, e.id = id ∧ e.live t) ↔
      ∃ n ∈ h.nodes, n.id = id ∧ windowOpen t n.validUntil := by
    intro id
    rw [hd, hh]
    simp only [List.mem_map, exists_exists_and_eq_and, hE, hN]
    constructor
    · rintro ⟨e, he, rfl, hlive⟩
      obtain ⟨n, hn, hid, hv⟩ := hm.node_of e he
      refine ⟨n, hn, hid, ?_⟩
      rw [hnodes e n hid hv]
      exact hlive
    · rintro ⟨n, hn, rfl, hopen⟩
      obtain ⟨e, he, hid⟩ := hm.entity_of n hn
      refine ⟨e, he, hid, ?_⟩
      rw [Entity.live, ← hnodes e n hid.symm (hm.node he hn hid.symm)]
      exact hopen
  rw [SameLive, and_iff_right hentities, hdr, hhe]
  have hview := same_view_iff Relationship.id GraphEdge.id (fun r => liveEnds t (F r))
    (fun x => edgeEnds t (G x))
    c.relationship_keys g.edge_keys
    (fun r hr => (hm.edge_of r hr).imp (fun x hx => ⟨hx.1, hx.2.id⟩)) hm.relationship_of
  rw [← hview]
  refine forall₂_congr (fun id ends => ?_)
  simp only [List.mem_map, exists_exists_and_eq_and, hF, hG]

theorem live_of_edgeOf {r : Relationship} {x : GraphEdge}
    (hx : EdgeOf sanitizeCypherLabel now r x) (ht : now ≤ t) :
    r.live t = windowOpen t x.validUntil := by
  by_cases htomb : Tombstoned r
  · rw [closed_later (hx.closed htomb) ht]
    rcases htomb with h | h <;> simp [Relationship.live, Option.isNone_iff_eq_none, h]
  · obtain ⟨hto, hinv⟩ := not_or.mp htomb
    rw [hx.window htomb]
    simp [Relationship.live, not_not.mp hto, not_not.mp hinv]

theorem same_of_edgeOf {r : Relationship} {x : GraphEdge}
    (hx : EdgeOf sanitizeCypherLabel now r x) (ht : now ≤ t) : liveEnds t r = edgeEnds t x := by
  have hlive := live_of_edgeOf hx ht
  rw [liveEnds, edgeEnds, ← hlive]
  refine if_ctx_congr Iff.rfl (fun h => ?_) (fun _ => rfl)
  have hinv : r.invalidatedAt = none := by
    simp only [Relationship.live, Bool.and_eq_true, Option.isNone_iff_eq_none] at h
    exact h.1.2
  rw [(hx.ends hinv).1, (hx.ends hinv).2.1]

end Live

section Forward

variable (sanitizeCypherLabel : String → String)

def mirroredEdge (now : Time) (ts : MirrorTargets) (g : Graph) (x : GraphEdge) : GraphEdge :=
  onRow (ts.invalidateRelationshipIds.map (closeEdge now))
    (onRow ((byLabel sanitizeCypherLabel ts.rewriteRelationships).map
      (moveEdge sanitizeCypherLabel g)) x)

theorem mirror_edges (now : Time) (ts : MirrorTargets) (g : Graph) :
    (applyMirrorTargets sanitizeCypherLabel ts [] now g).edges =
      g.edges.map (mirroredEdge sanitizeCypherLabel now ts g) := by
  simp only [applyMirrorTargets, materializeCommunitiesBatch, List.foldl_nil,
    softRetireEntitiesBatch, softInvalidateRelationshipsBatch, updateNodes, updateEdges,
    rewriteRelationshipEndpointsBatch, run_eq_map, List.map_map]
  rfl

theorem mirror_nodes (now : Time) (ts : MirrorTargets) (g : Graph) :
    (applyMirrorTargets sanitizeCypherLabel ts [] now g).nodes =
      g.nodes.map (onRow (ts.retireEntityIds.map (retireNode now))) := by
  simp only [applyMirrorTargets, materializeCommunitiesBatch, List.foldl_nil,
    softRetireEntitiesBatch, softInvalidateRelationshipsBatch, updateNodes, updateEdges,
    rewriteRelationshipEndpointsBatch, run_eq_map]

variable {sanitizeCypherLabel} {now : Time} {g : Graph} {x : GraphEdge}

theorem mem_byLabel {rw : Rewrite} {rws : List Rewrite} :
    rw ∈ byLabel sanitizeCypherLabel rws ↔ rw ∈ rws :=
  (List.perm_insertionSort _ _).mem_iff

theorem closeEdge_twice (k : UUID) (y : GraphEdge) :
    (closeEdge now k).on ((closeEdge now k).on y) = (closeEdge now k).on y := by
  unfold Update.on Update.hits closeEdge
  grind

theorem closed_edge (ids : List UUID) (x : GraphEdge) :
    onRow (ids.map (closeEdge now)) x =
      if x.id ∈ ids then (closeEdge now x.id).on x else x :=
  onRow_each _ (fun _ => rfl) closeEdge_twice ids x

theorem moveEdge_twice (rw : Rewrite) (y : GraphEdge) :
    (moveEdge sanitizeCypherLabel g rw).on ((moveEdge sanitizeCypherLabel g rw).on y) =
      (moveEdge sanitizeCypherLabel g rw).on y := by
  unfold Update.on Update.hits moveEdge
  grind

/-- When all rewrites of an edge agree, it is moved once. -/
theorem moved_edge (sanitizeCypherLabel : String → String) (g : Graph) (rws : List Rewrite)
    (rw : Rewrite) (hid : rw.relationshipId = x.id)
    (hone : ∀ rw' ∈ rws, rw'.relationshipId = x.id → rw' = rw) :
    onRow ((byLabel sanitizeCypherLabel rws).map (moveEdge sanitizeCypherLabel g)) x =
      if rw ∈ rws then (moveEdge sanitizeCypherLabel g rw).on x else x := by
  have huniform : ∀ u ∈ (byLabel sanitizeCypherLabel rws).map
      (moveEdge sanitizeCypherLabel g), u.target = x.id → ∀ y, GraphEdge.id y = x.id →
        u.on y = (moveEdge sanitizeCypherLabel g rw).on y := by
    intro u hu ht y _
    obtain ⟨rw', hmem, rfl⟩ := List.mem_map.mp hu
    rw [hone rw' (mem_byLabel.mp hmem) ht]
  rcases onRow_uniform _ huniform (fun y => Update.on_key _ y) (moveEdge_twice rw) with
    ⟨h, u, hu, ht⟩ | ⟨h, hnone⟩
  · obtain ⟨rw', hmem, rfl⟩ := List.mem_map.mp hu
    have hmem' := mem_byLabel.mp hmem
    rw [hone rw' hmem' ht] at hmem'
    rw [h, if_pos hmem']
  · rw [h, if_neg (fun hmem => hnone _ (List.mem_map_of_mem (mem_byLabel.mpr hmem)) hid)]

theorem unmoved_edge {rws : List Rewrite} (hnone : ∀ rw ∈ rws, rw.relationshipId ≠ x.id) :
    onRow ((byLabel sanitizeCypherLabel rws).map (moveEdge sanitizeCypherLabel g)) x = x := by
  refine onRow_of_unaddressed (fun u hu => ?_)
  obtain ⟨rw, hmem, rfl⟩ := List.mem_map.mp hu
  exact fun h => hnone rw (mem_byLabel.mp hmem) h.symm

/-- The edge is there under its label, its new ends exist, and one of them is
new: it is moved. -/
theorem moveEdge_on {rw : Rewrite} (hid : rw.relationshipId = x.id)
    (hlabel : x.label = sanitizeCypherLabel rw.relationshipType)
    (hsrc : hasNode g rw.sourceEntityId = true) (htgt : hasNode g rw.targetEntityId = true) :
    (moveEdge sanitizeCypherLabel g rw).on x =
      { x with source := rw.sourceEntityId, target := rw.targetEntityId } := by
  by_cases hends : x.source = rw.sourceEntityId ∧ x.target = rw.targetEntityId
  · have : ¬ (moveEdge sanitizeCypherLabel g rw).hits x := by
      simp [Update.hits, moveEdge, hends.1, hends.2]
    rw [Update.on, if_neg this, ← hends.1, ← hends.2]
  · rw [Update.on, if_pos]
    · rfl
    · have := not_and_or.mp hends
      simp only [Update.hits, moveEdge, hid, hlabel, hsrc, htgt]
      simpa using this

end Forward

section Backward

variable (sanitizeCypherLabel : String → String)

def unmirroredEdge (us : UnmirrorTargets) (g : Graph) (x : GraphEdge) : GraphEdge :=
  onRow (us.restoreRelationshipIds.map reopenEdge)
    (onRow ((byLabel sanitizeCypherLabel us.restoreEndpoints).map
      (moveEdge sanitizeCypherLabel (restoreEntitiesBatch us.restoreEntityIds g))) x)

theorem unmirror_edges (us : UnmirrorTargets) (g : Graph) :
    (unmirrorTargets sanitizeCypherLabel us g).edges =
      g.edges.map (unmirroredEdge sanitizeCypherLabel us g) := by
  change run (us.restoreRelationshipIds.map reopenEdge)
    (run ((byLabel sanitizeCypherLabel us.restoreEndpoints).map
      (moveEdge sanitizeCypherLabel (restoreEntitiesBatch us.restoreEntityIds g))) g.edges) = _
  rw [run_eq_map, run_eq_map, List.map_map]
  rfl

theorem unmirror_nodes (us : UnmirrorTargets) (g : Graph) :
    (unmirrorTargets sanitizeCypherLabel us g).nodes =
      g.nodes.map (onRow (us.restoreEntityIds.map restoreNode)) := by
  simp only [unmirrorTargets, restoreRelationshipsBatch, updateNodes, updateEdges,
    restoreRelationshipEndpointsBatch, rewriteRelationshipEndpointsBatch, run_eq_map,
    restoreEntitiesBatch]

variable {sanitizeCypherLabel} {g h : Graph} {x : GraphEdge}

theorem reopened_edge (ids : List UUID) (x : GraphEdge) :
    onRow (ids.map reopenEdge) x = if x.id ∈ ids then { x with validUntil := none } else x := by
  rw [onRow_each _ (fun _ => rfl)]
  · refine if_congr Iff.rfl ?_ rfl
    cases x
    simp [Update.on, Update.hits, reopenEdge]
  · intro k y
    unfold Update.on Update.hits reopenEdge
    grind

theorem hasNode_eq (hids : h.nodes.map GraphNode.id = g.nodes.map GraphNode.id) (id : UUID) :
    hasNode h id = hasNode g id := by
  have := congrArg (fun ids => ids.any (fun n => n = id)) hids
  simpa [hasNode, List.any_map, Function.comp_def] using this

theorem preEndpoints_id {ms : List MergeRecord} {rid : UUID} {rw : Rewrite}
    (hrw : preEndpoints ms rid = some rw) : rw.relationshipId = rid := by
  obtain ⟨prev, hfind, rfl⟩ := Option.map_eq_some_iff.mp hrw
  have hid : prev.id = rid := by simpa using List.find?_some hfind
  exact hid

end Backward

section Dedupe

variable {sanitizeCypherLabel : String → String}
variable {cfg : DreamConfig} {judge : CandidatePair → Decision} {op : DedupeOp}
variable {now back : Time} {c : Rows} {g : Graph} {r : Relationship} {x : GraphEdge}

/-- The targets of a consolidation, in terms of the members it absorbed. -/
theorem dedupe_targets (c : Content) :
    extractMirrorTargets (.merges
        (applyVectorcypherDedupeEntities cfg judge now op c).2.merges) =
      { retireEntityIds := absorbed cfg judge op
        invalidateRelationshipIds := (records cfg judge now op.opId op.merges c).flatMap
          (mergeInvalidates (resolve op.canonicalId (absorbed cfg judge op)))
        rewriteRelationships := (records cfg judge now op.opId op.merges c).flatMap
          (mergeRewrites (resolve op.canonicalId (absorbed cfg judge op))) } := by
  have hcanon := absorbedToCanonical_records cfg judge now op.opId op.one_canonical c
  have hretire := records_absorbed cfg judge now op.opId op.merges c
  unfold records at hcanon hretire
  unfold extractMirrorTargets applyVectorcypherDedupeEntities absorbed records
  dsimp only
  rw [hcanon, hretire]

theorem mem_dedupe_invalidates (hr : r ∈ c.relationships) :
    r.id ∈ (extractMirrorTargets (.merges (applyVectorcypherDedupeEntities cfg judge now op
        c.toContent).2.merges)).invalidateRelationshipIds ↔
      Recorded (absorbed cfg judge op) r ∧ Folds op.canonicalId (absorbed cfg judge op) r := by
  rw [dedupe_targets]
  exact mem_invalidates op.one_canonical (canonical_not_absorbed op) hr

theorem mem_dedupe_rewrites (hr : r ∈ c.relationships) {rw : Rewrite}
    (hid : rw.relationshipId = r.id) :
    rw ∈ (extractMirrorTargets (.merges (applyVectorcypherDedupeEntities cfg judge now op
        c.toContent).2.merges)).rewriteRelationships ↔
      Recorded (absorbed cfg judge op) r ∧
        ¬ Folds op.canonicalId (absorbed cfg judge op) r ∧
        rw = rewriteOf (resolve op.canonicalId (absorbed cfg judge op)) (snapshot r) := by
  rw [dedupe_targets]
  exact mem_rewrites op.one_canonical (canonical_not_absorbed op) hr hid

theorem mirroredEdge_folds (hr : r ∈ c.relationships) (hid : x.id = r.id)
    (h : Recorded (absorbed cfg judge op) r) (hf : Folds op.canonicalId (absorbed cfg judge op) r) :
    mirroredEdge sanitizeCypherLabel now (extractMirrorTargets (.merges
        (applyVectorcypherDedupeEntities cfg judge now op c.toContent).2.merges)) g x =
      (closeEdge now x.id).on x := by
  rw [mirroredEdge, unmoved_edge, closed_edge, if_pos]
  · rw [hid]
    exact (mem_dedupe_invalidates hr).mpr ⟨h, hf⟩
  · intro rw hmem hrw
    exact ((mem_dedupe_rewrites hr (hrw.trans hid)).mp hmem).2.1 hf

theorem mirroredEdge_unrecorded (hr : r ∈ c.relationships) (hid : x.id = r.id)
    (h : ¬ Recorded (absorbed cfg judge op) r) :
    mirroredEdge sanitizeCypherLabel now (extractMirrorTargets (.merges
        (applyVectorcypherDedupeEntities cfg judge now op c.toContent).2.merges)) g x = x := by
  rw [mirroredEdge, unmoved_edge, closed_edge, if_neg]
  · rw [hid]
    exact fun hmem => h ((mem_dedupe_invalidates hr).mp hmem).1
  · intro rw hmem hrw
    exact h ((mem_dedupe_rewrites hr (hrw.trans hid)).mp hmem).1

theorem resolve_listed (hop : op.canonicalId ∈ c.entities.map Entity.id) {id : UUID}
    (hid : id ∈ c.entities.map Entity.id) (as : List UUID) :
    resolve op.canonicalId as id ∈ c.entities.map Entity.id := by
  unfold resolve
  split
  · exact hop
  · exact hid

theorem mirroredEdge_moves (hm : Mirrored sanitizeCypherLabel now c.toContent g)
    (hop : op.canonicalId ∈ c.entities.map Entity.id) (hr : r ∈ c.relationships)
    (hx : EdgeOf sanitizeCypherLabel now r x)
    (h : Recorded (absorbed cfg judge op) r)
    (hf : ¬ Folds op.canonicalId (absorbed cfg judge op) r) :
    mirroredEdge sanitizeCypherLabel now (extractMirrorTargets (.merges
        (applyVectorcypherDedupeEntities cfg judge now op c.toContent).2.merges)) g x =
      { x with
        source := resolve op.canonicalId (absorbed cfg judge op) r.sourceEntityId
        target := resolve op.canonicalId (absorbed cfg judge op) r.targetEntityId } := by
  have hone := moved_edge sanitizeCypherLabel g
    (extractMirrorTargets (.merges (applyVectorcypherDedupeEntities cfg judge now op
      c.toContent).2.merges)).rewriteRelationships
    (rewriteOf (resolve op.canonicalId (absorbed cfg judge op)) (snapshot r)) hx.id.symm
    (fun rw' hmem hid => ((mem_dedupe_rewrites hr (hid.trans hx.id)).mp hmem).2.2)
  rw [if_pos ((mem_dedupe_rewrites hr rfl).mpr ⟨h, hf, rfl⟩)] at hone
  rw [mirroredEdge, hone, moveEdge_on hx.id.symm (hx.ends h.1).2.2
    (hm.has_node (resolve_listed hop (c.ends r hr).1 _))
    (hm.has_node (resolve_listed hop (c.ends r hr).2 _)), closed_edge, if_neg]
  · rfl
  · intro hmem
    rw [show GraphEdge.id { x with
      source := _, target := _ } = r.id from hx.id] at hmem
    exact hf ((mem_dedupe_invalidates hr).mp hmem).2

theorem mem_restoreEndpoints (hr : r ∈ c.relationships) {rw : Rewrite}
    (hid : rw.relationshipId = r.id) :
    rw ∈ (extractUnmirrorTargets (.merges (applyVectorcypherDedupeEntities cfg judge now op
        c.toContent).2.merges)).restoreEndpoints ↔
      Recorded (absorbed cfg judge op) r ∧
        ¬ Folds op.canonicalId (absorbed cfg judge op) r ∧ rw = endpointsOf (snapshot r) := by
  simp only [extractUnmirrorTargets, List.mem_filterMap, List.mem_dedup, List.mem_map]
  have hpre : Recorded (absorbed cfg judge op) r →
      ¬ Folds op.canonicalId (absorbed cfg judge op) r →
      preEndpoints (applyVectorcypherDedupeEntities cfg judge now op c.toContent).2.merges
        r.id = some (endpointsOf (snapshot r)) := by
    intro h hf
    obtain ⟨prev, hprev, hpid⟩ := (mem_snapshots cfg judge now op.opId
      op.one_canonical hr).mpr h
    unfold preEndpoints
    cases hfind : (((applyVectorcypherDedupeEntities cfg judge now op
        c.toContent).2.merges.filter MergeRecord.applied).flatMap
        MergeRecord.previousRelationships).reverse.find? (fun prev => prev.id = r.id) with
    | none =>
      have := List.find?_eq_none.mp hfind prev (List.mem_reverse.mpr hprev)
      simp [hpid] at this
    | some p =>
      have hp := List.mem_reverse.mp (List.mem_of_find?_eq_some hfind)
      have hpid : p.id = r.id := by simpa using List.find?_some hfind
      rw [snapshotOf_moved op.one_canonical (canonical_not_absorbed op) hr hf hp hpid]
      rfl
  constructor
  · rintro ⟨i, ⟨rw', hmem, hrwid⟩, hsome⟩
    have hi : i = r.id := (preEndpoints_id hsome).symm.trans hid
    obtain ⟨h, hf, -⟩ := (mem_dedupe_rewrites hr (hrwid.trans hi)).mp hmem
    rw [hi, hpre h hf] at hsome
    exact ⟨h, hf, (Option.some.inj hsome).symm⟩
  · rintro ⟨h, hf, rfl⟩
    exact ⟨r.id, ⟨_, (mem_dedupe_rewrites hr rfl).mpr ⟨h, hf, rfl⟩, rfl⟩, hpre h hf⟩

theorem mem_restore_relationships (hr : r ∈ c.relationships) :
    r.id ∈ (extractUnmirrorTargets (.merges (applyVectorcypherDedupeEntities cfg judge now op
        c.toContent).2.merges)).restoreRelationshipIds ↔
      Recorded (absorbed cfg judge op) r ∧ Folds op.canonicalId (absorbed cfg judge op) r :=
  mem_dedupe_invalidates hr

theorem unmirrored_closed_edge (hr : r ∈ c.relationships) (hid : x.id = r.id)
    (h : Recorded (absorbed cfg judge op) r)
    (hf : Folds op.canonicalId (absorbed cfg judge op) r) (g' : Graph) :
    unmirroredEdge sanitizeCypherLabel (extractUnmirrorTargets (.merges
        (applyVectorcypherDedupeEntities cfg judge now op c.toContent).2.merges)) g'
        (mirroredEdge sanitizeCypherLabel now (extractMirrorTargets (.merges
          (applyVectorcypherDedupeEntities cfg judge now op c.toContent).2.merges)) g x) =
      { x with validUntil := none } := by
  rw [mirroredEdge_folds hr hid h hf, unmirroredEdge, unmoved_edge, reopened_edge, if_pos]
  · unfold Update.on closeEdge
    split <;> rfl
  · rw [(closeEdge now x.id).on_key, hid]
    exact (mem_restore_relationships hr).mpr ⟨h, hf⟩
  · intro rw hmem hrw
    rw [(closeEdge now x.id).on_key] at hrw
    exact ((mem_restoreEndpoints hr (hrw.trans hid)).mp hmem).2.1 hf

/-- Any other edge is after mirroring and unmirroring what it was. -/
theorem unmirrored_other_edge (hm : Mirrored sanitizeCypherLabel now c.toContent g)
    (hop : op.canonicalId ∈ c.entities.map Entity.id) (hr : r ∈ c.relationships)
    (hx : EdgeOf sanitizeCypherLabel now r x)
    (hn : ¬ (Recorded (absorbed cfg judge op) r ∧
      Folds op.canonicalId (absorbed cfg judge op) r)) {g' : Graph}
    (hg : g'.nodes.map GraphNode.id = g.nodes.map GraphNode.id) :
    unmirroredEdge sanitizeCypherLabel (extractUnmirrorTargets (.merges
        (applyVectorcypherDedupeEntities cfg judge now op c.toContent).2.merges)) g'
        (mirroredEdge sanitizeCypherLabel now (extractMirrorTargets (.merges
          (applyVectorcypherDedupeEntities cfg judge now op c.toContent).2.merges)) g x) = x := by
  have hreopen : r.id ∉ (extractUnmirrorTargets (.merges (applyVectorcypherDedupeEntities cfg
      judge now op c.toContent).2.merges)).restoreRelationshipIds :=
    fun hmem => hn ((mem_restore_relationships hr).mp hmem)
  by_cases h : Recorded (absorbed cfg judge op) r
  · have hf := fun hf => hn ⟨h, hf⟩
    have hids : ∀ ids id, hasNode (restoreEntitiesBatch ids g') id = hasNode g id := by
      intro ids id
      exact hasNode_eq ((run_keys _ _).trans hg) id
    rw [mirroredEdge_moves hm hop hr hx h hf, unmirroredEdge]
    have hone := moved_edge sanitizeCypherLabel
      (restoreEntitiesBatch (extractUnmirrorTargets (.merges
        (applyVectorcypherDedupeEntities cfg judge now op
          c.toContent).2.merges)).restoreEntityIds g')
      (extractUnmirrorTargets (.merges (applyVectorcypherDedupeEntities cfg judge now op
        c.toContent).2.merges)).restoreEndpoints
      (x := { x with
        source := resolve op.canonicalId (absorbed cfg judge op) r.sourceEntityId
        target := resolve op.canonicalId (absorbed cfg judge op) r.targetEntityId })
      (endpointsOf (snapshot r)) hx.id.symm
      (fun rw' hmem hid => ((mem_restoreEndpoints hr (hid.trans hx.id)).mp hmem).2.2)
    rw [if_pos ((mem_restoreEndpoints hr rfl).mpr ⟨h, hf, rfl⟩)] at hone
    rw [hone, moveEdge_on hx.id.symm (hx.ends h.1).2.2
      ((hids _ _).trans (hm.has_node (c.ends r hr).1))
      ((hids _ _).trans (hm.has_node (c.ends r hr).2)), reopened_edge, if_neg]
    · have hends := hx.ends h.1
      cases x
      simp_all [endpointsOf, snapshot]
    · rwa [show GraphEdge.id { x with source := _, target := _ } = r.id from hx.id]
  · rw [mirroredEdge_unrecorded hr hx.id h, unmirroredEdge, unmoved_edge, reopened_edge, if_neg]
    · rwa [hx.id]
    · exact fun rw hmem hrw => h ((mem_restoreEndpoints hr (hrw.trans hx.id)).mp hmem).1

end Dedupe

end Uru.Dream
