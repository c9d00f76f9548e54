import Uru.Dream.Dedupe

/-!
# The graph's copy of what a dream operation did

The graph folds the tombstones of the relational rows onto one window per node
and edge. The mirror never sees the operation: it reads the undo record,
recomputes where the edges must end, and asks the graph for soft deletes and
repointings; undoing derives the reverse requests from the same record.
-/

set_option autoImplicit false

namespace Uru.Dream

open Uru.Storage Uru.Lib Uru.Lib.Table

section Graph

structure GraphNode where
  id : UUID
  validUntil : Option Time
  versionValidFrom : Option Time
  versionValidTo : Option Time
  deriving DecidableEq, Repr

structure GraphEdge where
  id : UUID
  source : UUID
  target : UUID
  label : String
  validUntil : Option Time
  deriving DecidableEq, Repr

structure EntityVersion where
  current : UUID
  validUntil : Option Time
  versionValidFrom : Time
  versionValidTo : Time
  retirementReason : String
  deriving DecidableEq, Repr

structure CommunityNode where
  id : UUID
  summary : String
  memberIds : List UUID
  summaryDepth : ℕ
  deriving DecidableEq, Repr

structure Graph where
  nodes : List GraphNode
  edges : List GraphEdge
  versions : List EntityVersion
  communities : List CommunityNode
  hasMember : List (UUID × UUID)
  node_keys : (nodes.map GraphNode.id).Nodup
  edge_keys : (edges.map GraphEdge.id).Nodup

def updateNodes (us : List (Update GraphNode.id)) (g : Graph) : Graph where
  nodes := run us g.nodes
  edges := g.edges
  versions := g.versions
  communities := g.communities
  hasMember := g.hasMember
  node_keys := by
    rw [run_keys]
    exact g.node_keys
  edge_keys := g.edge_keys

def updateEdges (us : List (Update GraphEdge.id)) (g : Graph) : Graph where
  nodes := g.nodes
  edges := run us g.edges
  versions := g.versions
  communities := g.communities
  hasMember := g.hasMember
  node_keys := g.node_keys
  edge_keys := by
    rw [run_keys]
    exact g.edge_keys

def hasNode (g : Graph) (id : UUID) : Bool := g.nodes.any (fun n => n.id = id)

end Graph

section Verbs

variable (sanitizeCypherLabel : String → String)

structure Rewrite where
  relationshipId : UUID
  sourceEntityId : UUID
  targetEntityId : UUID
  relationshipType : String
  deriving DecidableEq, Repr

def closeEdge (invalidatedAt : Time) (rid : UUID) : Update GraphEdge.id where
  target := rid
  guard x := x.validUntil.isNone
  set x := { x with validUntil := some invalidatedAt }
  keeps _ := rfl

def softInvalidateRelationshipsBatch (relationship_ids : List UUID) (invalidatedAt : Time)
    (g : Graph) : Graph :=
  updateEdges (relationship_ids.map (closeEdge invalidatedAt)) g

def retireNode (retiredAt : Time) (eid : UUID) : Update GraphNode.id where
  target := eid
  guard n := n.validUntil.isNone
  set n := { n with validUntil := some retiredAt, versionValidTo := some retiredAt }
  keeps _ := rfl

def versionOf (retiredAt : Time) (reason : String) (n : GraphNode) : EntityVersion where
  current := n.id
  validUntil := n.validUntil
  versionValidFrom := n.versionValidFrom.getD retiredAt
  versionValidTo := retiredAt
  retirementReason := reason

def softRetireEntitiesBatch (entity_ids : List UUID) (retiredAt : Time) (reason : String)
    (g : Graph) : Graph :=
  { updateNodes (entity_ids.map (retireNode retiredAt)) g with
    versions := g.versions++
      (g.nodes.filter (fun n => n.id ∈ entity_ids ∧ n.validUntil = none)).map
        (versionOf retiredAt reason) }

/-- The edge is created anew between the other nodes, when both exist and it is
not there already. -/
def moveEdge (g : Graph) (rw : Rewrite) : Update GraphEdge.id where
  target := rw.relationshipId
  guard x := x.label = sanitizeCypherLabel rw.relationshipType &&
    hasNode g rw.sourceEntityId && hasNode g rw.targetEntityId &&
    (x.source ≠ rw.sourceEntityId || x.target ≠ rw.targetEntityId)
  set x := { x with source := rw.sourceEntityId, target := rw.targetEntityId }
  keeps _ := rfl

def byLabel (rewrites : List Rewrite) : List Rewrite :=
  rewrites.insertionSort (fun a b =>
    sanitizeCypherLabel a.relationshipType ≤ sanitizeCypherLabel b.relationshipType)

def rewriteRelationshipEndpointsBatch (rewrites : List Rewrite) (g : Graph) : Graph :=
  updateEdges ((byLabel sanitizeCypherLabel rewrites).map
    (moveEdge sanitizeCypherLabel g)) g

def restoreNode (eid : UUID) : Update GraphNode.id where
  target := eid
  guard n := n.validUntil.isSome || n.versionValidTo.isSome
  set n := { n with validUntil := none, versionValidTo := none }
  keeps _ := rfl

/-- The snapshot written together with the retirement that is taken back. -/
def snapshotOf (n : GraphNode) (v : EntityVersion) : Bool :=
  v.current = n.id && (n.validUntil.isSome || n.versionValidTo.isSome) &&
    some v.versionValidTo = n.validUntil

def restoreEntitiesBatch (entity_ids : List UUID) (g : Graph) : Graph :=
  { updateNodes (entity_ids.map restoreNode) g with
    versions := g.versions.filter (fun v =>
      !(g.nodes.any (fun n => n.id ∈ entity_ids && snapshotOf n v))) }

def reopenEdge (rid : UUID) : Update GraphEdge.id where
  target := rid
  guard x := x.validUntil.isSome
  set x := { x with validUntil := none }
  keeps _ := rfl

def restoreRelationshipsBatch (relationship_ids : List UUID) (g : Graph) : Graph :=
  updateEdges (relationship_ids.map reopenEdge) g

def restoreRelationshipEndpointsBatch (rewrites : List Rewrite) (g : Graph) : Graph :=
  rewriteRelationshipEndpointsBatch sanitizeCypherLabel rewrites g

def materializeCommunity (g : Graph) (c : CommunityNode) : Graph :=
  { g with
    communities := g.communities.filter (fun d => d.id ≠ c.id)++[c]
    hasMember := g.hasMember++
      ((c.memberIds.filter (hasNode g)).map (fun m => (c.id, m))).filter
        (fun p => p ∉ g.hasMember) }

def materializeCommunitiesBatch (communities : List CommunityNode) (g : Graph) : Graph :=
  communities.foldl materializeCommunity g

end Verbs

section Targets

structure PrunedRelationship where
  relationshipId : UUID
  previousConfidence : ℚ
  previousValidTo : Option Time
  deriving DecidableEq, Repr

inductive Before where
  | noop
  | relationships (rows : List PrunedRelationship)
  | merges (ms : List MergeRecord)
  deriving DecidableEq, Repr

structure MirrorTargets where
  retireEntityIds : List UUID
  invalidateRelationshipIds : List UUID
  rewriteRelationships : List Rewrite
  deriving DecidableEq, Repr

/-- `absorbed_to_canonical.get(x, x)`, over all applied merges. -/
def absorbedToCanonical (ms : List MergeRecord) (x : UUID) : UUID :=
  match ms.reverse.find? (fun m => m.absorbedId = x) with
  | some m => m.canonicalId
  | none => x

/-- A loop under the map of all merges that its own merge did not list. -/
def becomesLoop (canon : UUID → UUID) (m : MergeRecord) (prev : PreviousRelationship) : Bool :=
  prev.id ∉ m.selfLoopsInvalidated &&
    canon prev.sourceEntityId = canon prev.targetEntityId

def moves (canon : UUID → UUID) (m : MergeRecord) (prev : PreviousRelationship) : Bool :=
  prev.id ∉ m.selfLoopsInvalidated &&
    canon prev.sourceEntityId ≠ canon prev.targetEntityId &&
    !(canon prev.sourceEntityId = prev.sourceEntityId &&
      canon prev.targetEntityId = prev.targetEntityId)

def rewriteOf (canon : UUID → UUID) (prev : PreviousRelationship) : Rewrite where
  relationshipId := prev.id
  sourceEntityId := canon prev.sourceEntityId
  targetEntityId := canon prev.targetEntityId
  relationshipType := prev.relationshipType

def mergeInvalidates (canon : UUID → UUID) (m : MergeRecord) : List UUID :=
  m.selfLoopsInvalidated++
    (m.previousRelationships.filter (becomesLoop canon m)).map PreviousRelationship.id

def mergeRewrites (canon : UUID → UUID) (m : MergeRecord) : List Rewrite :=
  (m.previousRelationships.filter (moves canon m)).map (rewriteOf canon)

def extractMirrorTargets : Before → MirrorTargets
  | .noop =>
    { retireEntityIds := [], invalidateRelationshipIds := [], rewriteRelationships := [] }
  | .relationships rows =>
    { retireEntityIds := []
      invalidateRelationshipIds := rows.map PrunedRelationship.relationshipId
      rewriteRelationships := [] }
  | .merges ms =>
    let appliedMerges := ms.filter MergeRecord.applied
    let canon := absorbedToCanonical appliedMerges
    { retireEntityIds := appliedMerges.map MergeRecord.absorbedId
      invalidateRelationshipIds := appliedMerges.flatMap (mergeInvalidates canon)
      rewriteRelationships := appliedMerges.flatMap (mergeRewrites canon) }

variable (sanitizeCypherLabel : String → String)

/-- First the edges are moved, then the loops closed and the members retired. -/
def applyMirrorTargets (targets : MirrorTargets) (communities : List CommunityNode)
    (stampAt : Time) (g : Graph) : Graph :=
  materializeCommunitiesBatch communities
    (softRetireEntitiesBatch targets.retireEntityIds stampAt "dream_consolidated"
      (softInvalidateRelationshipsBatch targets.invalidateRelationshipIds stampAt
        (rewriteRelationshipEndpointsBatch sanitizeCypherLabel
          targets.rewriteRelationships g)))

structure UnmirrorTargets where
  restoreEntityIds : List UUID
  restoreRelationshipIds : List UUID
  restoreEndpoints : List Rewrite
  deriving DecidableEq, Repr

def endpointsOf (prev : PreviousRelationship) : Rewrite where
  relationshipId := prev.id
  sourceEntityId := prev.sourceEntityId
  targetEntityId := prev.targetEntityId
  relationshipType := prev.relationshipType

/-- The last snapshot of a relationship wins. -/
def preEndpoints (ms : List MergeRecord) (rid : UUID) : Option Rewrite :=
  (((ms.filter MergeRecord.applied).flatMap MergeRecord.previousRelationships).reverse.find?
    (fun prev => prev.id = rid)).map endpointsOf

def extractUnmirrorTargets (before : Before) : UnmirrorTargets :=
  let forward := extractMirrorTargets before
  let rewrittenIds := (forward.rewriteRelationships.map Rewrite.relationshipId).dedup
  { restoreEntityIds := forward.retireEntityIds
    restoreRelationshipIds := forward.invalidateRelationshipIds
    restoreEndpoints :=
      match before with
      | .merges ms => rewrittenIds.filterMap (preEndpoints ms)
      | _ => [] }

def unmirrorTargets (targets : UnmirrorTargets) (g : Graph) : Graph :=
  restoreRelationshipsBatch targets.restoreRelationshipIds
    (restoreRelationshipEndpointsBatch sanitizeCypherLabel targets.restoreEndpoints
      (restoreEntitiesBatch targets.restoreEntityIds g))

end Targets

section Prune

def prune (now : Time) (rid : UUID) : Update Relationship.id where
  target := rid
  guard r := r.validTo.isNone
  set r := { r with validTo := some now, updatedAt := now }
  keeps _ := rfl

/-- A row that is gone or pruned already is left alone. -/
def applyVectorcypherPruneEdges (now : Time) (rid : UUID) (c : Content) : Content × Before :=
  match c.relationships.find? (fun r => r.id = rid) with
  | none => (c, .noop)
  | some r =>
    match r.validTo with
    | some _ => (c, .noop)
    | none =>
      (updateRelationships [prune now rid] c,
        .relationships
          [{ relationshipId := rid
             previousConfidence := r.confidence
             previousValidTo := none }])

end Prune

section Run

variable (sanitizeCypherLabel : String → String)
variable (cfg : DreamConfig) (judge : CandidatePair → Decision)

inductive MutationOp where
  | dedupeEntities (op : DedupeOp)
  | pruneEdges (opId rid : UUID)

def applyOp (now : Time) (c : Content) : MutationOp → Content × Before
  | .dedupeEntities op =>
    let done := applyVectorcypherDedupeEntities cfg judge now op c
    (done.1, .merges done.2.merges)
  | .pruneEdges _ rid => applyVectorcypherPruneEdges now rid c

/-- `dream_undo`: only consolidations have a reverse handler, and the graph
follows when the handler touched a row. -/
def dreamUndo (back : Time) (op : MutationOp) (before : Before) (c : Content) (g : Graph) :
    Content × Graph :=
  match op, before with
  | .dedupeEntities op, .merges ms =>
    let undone := reverseMerges back op.opId ms c
    (undone.1,
      if undone.2 then
        unmirrorTargets sanitizeCypherLabel (extractUnmirrorTargets before) g
      else g)
  | _, _ => (c, g)

end Run

end Uru.Dream
