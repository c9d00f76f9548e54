import Uru.Lib.Table
import Uru.Storage.Rows
import Mathlib.Data.Prod.Lex

/-!
# Consolidation of duplicate entities

An operation names the survivor of a group of similar entities and the members
it absorbs. Applying the operation points the edges of each absorbed member at the survivor, one member
after another, invalidates those that become loops, and tombstones the member;
what it finds along the way is its undo record. Reversing reads that record
and nothing else.
-/

set_option autoImplicit false

namespace Uru.Dream

open Uru.Storage Uru.Lib Uru.Lib.Table

/-- A namespace whose relationships end at its entities and whose invalidated
relationships name the operation that invalidated them. -/
structure Rows extends Content where
  ends : ∀ r ∈ relationships, r.sourceEntityId ∈ entities.map Entity.id ∧
    r.targetEntityId ∈ entities.map Entity.id
  invalidation : ∀ r ∈ relationships, r.invalidatedAt = none → r.invalidatedBy = none

def updateRelationships (us : List (Update Relationship.id)) (c : Content) : Content where
  entities := c.entities
  relationships := run us c.relationships
  entity_keys := c.entity_keys
  relationship_keys := by
    rw [run_keys]
    exact c.relationship_keys

def updateEntities (us : List (Update Entity.id)) (c : Content) : Content where
  entities := run us c.entities
  relationships := c.relationships
  entity_keys := by
    rw [run_keys]
    exact c.entity_keys
  relationship_keys := c.relationship_keys

section Plan

structure MergeEntry where
  canonicalId : UUID
  absorbedId : UUID
  similarityScore : Option ℚ
  canonicalName : String
  absorbedName : String
  entityType : String
  mergedSourceDocumentIds : List UUID
  mergedSourceChunkIds : List UUID
  deriving DecidableEq, Repr

/-- What the planner hands to the handler: one survivor, and members that are
absorbed once each. -/
structure DedupeOp where
  opId : UUID
  canonicalId : UUID
  merges : List MergeEntry
  one_canonical : ∀ m ∈ merges, m.canonicalId = canonicalId
  absorbed_once : (merges.map MergeEntry.absorbedId).Nodup
  canonical_kept : canonicalId ∉ merges.map MergeEntry.absorbedId

/-- Highest `mention_count`, then earliest `created_at`, then smallest id. -/
def rank (e : Entity) : ℤ ×ₗ Time ×ₗ UUID :=
  toLex (-e.mentionCount, toLex (e.createdAt, e.id))

/-- The direct edge to the survivor, else the strongest edge at the member. -/
def memberScore (bestScore : List ((ℕ × ℕ) × ℚ)) (threshold : ℚ) (ci mi : ℕ) : ℚ :=
  match bestScore.lookup (min mi ci, max mi ci) with
  | some s => s
  | none =>
    ((bestScore.filter (fun p => p.1.1 = mi ∨ p.1.2 = mi)).map Prod.snd).max?.getD threshold

end Plan

section Verifier

inductive Decision where
  | merge
  | keepSeparate
  | defer
  deriving DecidableEq, Repr

structure CandidatePair where
  canonicalId : UUID
  canonicalName : String
  canonicalEntityType : String
  absorbedId : UUID
  absorbedName : String
  absorbedEntityType : String
  similarityScore : ℚ

structure DreamConfig where
  dedupeVerifierBandLow : ℚ
  dedupeVerifierBandHigh : ℚ
  band : dedupeVerifierBandLow < dedupeVerifierBandHigh

/-- The two-model judge is asked about pairs inside the band only. -/
def maybeRunVerifier (cfg : DreamConfig) (judge : CandidatePair → Decision)
    (entry : MergeEntry) : Option Decision :=
  match entry.similarityScore with
  | none => none
  | some similarity =>
    if similarity < cfg.dedupeVerifierBandLow ∨ cfg.dedupeVerifierBandHigh ≤ similarity then
      none
    else
      some (judge
        { canonicalId := entry.canonicalId
          canonicalName := entry.canonicalName
          canonicalEntityType := entry.entityType
          absorbedId := entry.absorbedId
          absorbedName := entry.absorbedName
          absorbedEntityType := entry.entityType
          similarityScore := similarity })

def authorised : Option Decision → Bool
  | none => true
  | some d => d = .merge

end Verifier

structure PreviousRelationship where
  id : UUID
  sourceEntityId : UUID
  targetEntityId : UUID
  relationshipType : String
  deriving DecidableEq, Repr

structure MergeRecord where
  canonicalId : UUID
  absorbedId : UUID
  previousRelationships : List PreviousRelationship
  selfLoopsInvalidated : List UUID
  verifier : Option Decision
  applied : Bool
  deriving DecidableEq, Repr

structure UndoRecord where
  opId : UUID
  merges : List MergeRecord
  appliedAt : Time
  deriving DecidableEq, Repr

section Apply

def snapshot (r : Relationship) : PreviousRelationship where
  id := r.id
  sourceEntityId := r.sourceEntityId
  targetEntityId := r.targetEntityId
  relationshipType := r.relationshipType

/-- `invalidated_at` is the only tombstone the selection looks at. -/
def selected (absorbed : UUID) (r : Relationship) : Bool :=
  r.touches absorbed ∧ r.invalidatedAt = none

def selectRelationshipsTouching (absorbed : UUID) (c : Content) : List Relationship :=
  c.relationships.filter (selected absorbed)

def redirect (canonical absorbed x : UUID) : UUID := if x = absorbed then canonical else x

def newSrc (canonical absorbed : UUID) (r : Relationship) : UUID :=
  redirect canonical absorbed r.sourceEntityId

def newTgt (canonical absorbed : UUID) (r : Relationship) : UUID :=
  redirect canonical absorbed r.targetEntityId

def collapses (canonical absorbed : UUID) (r : Relationship) : Bool :=
  newSrc canonical absorbed r = newTgt canonical absorbed r

def invalidate (now : Time) (opId : UUID) (r : Relationship) : Relationship :=
  { r with invalidatedAt := some now, invalidatedBy := some opId }

def repoint (now : Time) (src tgt : UUID) (r : Relationship) : Relationship :=
  { r with sourceEntityId := src, targetEntityId := tgt, updatedAt := now }

def rewrite (now : Time) (opId canonical absorbed : UUID) (row : Relationship) :
    Update Relationship.id where
  target := row.id
  guard _ := true
  set r :=
    if collapses canonical absorbed row then invalidate now opId r
    else repoint now (newSrc canonical absorbed row) (newTgt canonical absorbed row) r
  keeps r := by split <;> rfl

def retire (now : Time) (absorbed : UUID) : Update Entity.id where
  target := absorbed
  guard e := e.validUntil.isNone
  set e := { e with validUntil := some now, updatedAt := now }
  keeps _ := rfl

variable (cfg : DreamConfig) (judge : CandidatePair → Decision) (now : Time) (opId : UUID)

def applyMerge (entry : MergeEntry) (c : Content) : Content × MergeRecord :=
  let verdict := maybeRunVerifier cfg judge entry
  let prevRows := selectRelationshipsTouching entry.absorbedId c
  if authorised verdict then
    (updateEntities [retire now entry.absorbedId]
        (updateRelationships
          (prevRows.map (rewrite now opId entry.canonicalId entry.absorbedId)) c),
      { canonicalId := entry.canonicalId
        absorbedId := entry.absorbedId
        previousRelationships := prevRows.map snapshot
        selfLoopsInvalidated :=
          (prevRows.filter (collapses entry.canonicalId entry.absorbedId)).map Relationship.id
        verifier := verdict
        applied := true })
  else
    (c,
      { canonicalId := entry.canonicalId
        absorbedId := entry.absorbedId
        previousRelationships := []
        selfLoopsInvalidated := []
        verifier := verdict
        applied := false })

def applyMerges : List MergeEntry → Content → Content × List MergeRecord
  | [], c => (c, [])
  | entry::entries, c =>
    let done := applyMerge cfg judge now opId entry c
    let rest := applyMerges entries done.1
    (rest.1, done.2::rest.2)

def applyVectorcypherDedupeEntities (op : DedupeOp) (c : Content) : Content × UndoRecord :=
  let done := applyMerges cfg judge now op.opId op.merges c
  (done.1, { opId := op.opId, merges := done.2, appliedAt := now })

end Apply

section Reverse

def revive (absorbed : UUID) : Update Entity.id where
  target := absorbed
  guard e := e.validUntil.isSome
  set e := { e with validUntil := none }
  keeps _ := rfl

def restore (now : Time) (prev : PreviousRelationship) : Update Relationship.id where
  target := prev.id
  guard _ := true
  set := repoint now prev.sourceEntityId prev.targetEntityId
  keeps _ := rfl

def clear (opId rid : UUID) : Update Relationship.id where
  target := rid
  guard r := r.invalidatedBy = some opId
  set r := { r with invalidatedAt := none, invalidatedBy := none }
  keeps _ := rfl

def reverseEntity (m : MergeRecord) : List (Update Entity.id) := [revive m.absorbedId]

def reverseEdges (now : Time) (opId : UUID) (m : MergeRecord) : List (Update Relationship.id) :=
  m.previousRelationships.map (restore now)++m.selfLoopsInvalidated.map (clear opId)

/-- The merges are taken in the order in which they were applied. The flag is
`any_change`. -/
def reverseMerges (now : Time) (opId : UUID) : List MergeRecord → Content → Content × Bool
  | [], c => (c, false)
  | m::ms, c =>
    if m.applied then
      let rest := reverseMerges now opId ms
        (updateRelationships (reverseEdges now opId m) (updateEntities (reverseEntity m) c))
      (rest.1, touched (reverseEntity m) c.entities ||
        touched (reverseEdges now opId m) c.relationships || rest.2)
    else reverseMerges now opId ms c

def reverseVectorcypherDedupeEntities (now : Time) (undoOp : UndoRecord) (c : Content) :
    Content × Bool :=
  reverseMerges now undoOp.opId undoOp.merges c

end Reverse

end Uru.Dream
