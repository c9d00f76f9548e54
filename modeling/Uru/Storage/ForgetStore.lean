import Uru.Storage.Rows

/-!
# What the forget cascade asks of a store

A store lists its live rows up to a limit, deletes entities with the edges at
them, deletes relationships, and strips a document from the sources of rows it
is given. Stores differ in the order of their listings and in what a strip
writes into the counters and tombstones of the row; its identity, its sources
and what it says are the same in all of them.
-/

set_option autoImplicit false

namespace Uru.Storage

/-- The columns of an entity that a strip leaves, given the new documents. -/
structure Entity.Kept (e e' : Entity) : Prop where
  id : e'.id = e.id
  name : e'.name = e.name
  sourceDocumentIds : e'.sourceDocumentIds = e.sourceDocumentIds
  sourceChunkIds : e'.sourceChunkIds = e.sourceChunkIds
  validUntil : e'.validUntil = e.validUntil
  createdAt : e'.createdAt = e.createdAt
  columns : e'.columns = e.columns

structure Relationship.Kept (r r' : Relationship) : Prop where
  id : r'.id = r.id
  sourceEntityId : r'.sourceEntityId = r.sourceEntityId
  targetEntityId : r'.targetEntityId = r.targetEntityId
  sourceDocumentIds : r'.sourceDocumentIds = r.sourceDocumentIds
  sourceChunkIds : r'.sourceChunkIds = r.sourceChunkIds
  validUntil : r'.validUntil = r.validUntil
  createdAt : r'.createdAt = r.createdAt
  columns : r'.columns = r.columns

structure Adapter where
  entityLe : Entity → Entity → Bool
  rewriteEntity : Time → Entity → Entity
  rewriteRelationship : Time → Relationship → Relationship
  entity_kept : ∀ now (e : Entity), e.Kept (rewriteEntity now e)
  relationship_kept : ∀ now (r : Relationship), r.Kept (rewriteRelationship now r)

/-- Python's `x or 1`. -/
def orOne {α : Type} [Zero α] [One α] [DecidableEq α] (x : α) : α := if x = 0 then 1 else x

/-- The per-row fallback of the graph adapters, here over SQLite: an entity is
read, changed and written back, an edge is deleted and created again. -/
def sqliteLance (sanitize : String → String) : Adapter where
  entityLe a b := b.createdAt ≤ a.createdAt
  rewriteEntity now e :=
    { e with
      mentionCount := orOne e.mentionCount
      confidence := orOne e.confidence
      updatedAt := now }
  rewriteRelationship _ r :=
    { r with
      relationshipType := sanitize r.relationshipType
      confidence := orOne r.confidence
      weight := orOne r.weight
      validTo := none
      invalidatedAt := none
      invalidatedBy := none }
  entity_kept _ _ := ⟨rfl, rfl, rfl, rfl, rfl, rfl, rfl⟩
  relationship_kept _ _ := ⟨rfl, rfl, rfl, rfl, rfl, rfl, rfl, rfl⟩

/-- `array_remove` in one update, which stamps the row. -/
def pgvector : Adapter where
  entityLe a b := a.name ≤ b.name
  rewriteEntity now e := { e with updatedAt := now }
  rewriteRelationship now r := { r with updatedAt := now }
  entity_kept _ _ := ⟨rfl, rfl, rfl, rfl, rfl, rfl, rfl⟩
  relationship_kept _ _ := ⟨rfl, rfl, rfl, rfl, rfl, rfl, rfl, rfl⟩

def neo4j : Adapter where
  entityLe a b := a.name ≤ b.name
  rewriteEntity _ e := e
  rewriteRelationship _ r := r
  entity_kept _ _ := ⟨rfl, rfl, rfl, rfl, rfl, rfl, rfl⟩
  relationship_kept _ _ := ⟨rfl, rfl, rfl, rfl, rfl, rfl, rfl, rfl⟩

variable (A : Adapter)

def listEntities (now : Time) (limit : ℕ) (c : Content) : List Entity :=
  ((c.entities.filter (fun e => e.live now)).insertionSort (fun a b => A.entityLe a b = true)).take
    limit

/-- Every store lists the newest relationships first. -/
def listRelationships (now : Time) (limit : ℕ) (c : Content) : List Relationship :=
  ((c.relationships.filter (fun r => r.live now)).insertionSort
    (fun a b => b.createdAt ≤ a.createdAt)).take limit

def Content.deleteEntitiesBatch (ids : List UUID) (c : Content) : Content where
  entities := c.entities.filter (fun e => e.id ∉ ids)
  relationships := c.relationships.filter
    (fun r => r.sourceEntityId ∉ ids ∧ r.targetEntityId ∉ ids)
  entity_keys := c.entity_keys.sublist (List.filter_sublist.map _)
  relationship_keys := c.relationship_keys.sublist (List.filter_sublist.map _)

def Content.deleteRelationshipsBatch (ids : List UUID) (c : Content) : Content where
  entities := c.entities
  relationships := c.relationships.filter (fun r => r.id ∉ ids)
  entity_keys := c.entity_keys
  relationship_keys := c.relationship_keys.sublist (List.filter_sublist.map _)

def strip (d : UUID) (sources : List UUID) : List UUID := sources.filter (fun x => x ≠ d)

def strippedEntity (now : Time) (d : UUID) (e : Entity) : Entity :=
  A.rewriteEntity now { e with sourceDocumentIds := strip d e.sourceDocumentIds }

def strippedRelationship (now : Time) (d : UUID) (r : Relationship) : Relationship :=
  A.rewriteRelationship now { r with sourceDocumentIds := strip d r.sourceDocumentIds }

def stripOneEntity (now : Time) (d : UUID) (c : Content) (id : UUID) : Content where
  entities := c.entities.map (fun e =>
    if e.id = id ∧ d ∈ e.sourceDocumentIds then strippedEntity A now d e else e)
  relationships := c.relationships
  entity_keys := by
    rw [List.map_map, List.map_congr_left (g := Entity.id)]
    · exact c.entity_keys
    · intro e _
      rw [Function.comp_apply]
      split
      · exact (A.entity_kept _ _).id
      · rfl
  relationship_keys := c.relationship_keys

def stripDocumentFromEntities (now : Time) (ids : List UUID) (d : UUID) (c : Content) :
    Content :=
  ids.foldl (stripOneEntity A now d) c

theorem find?_id {c : Content} {id : UUID} {r : Relationship}
    (h : c.relationships.find? (fun r => r.id = id) = some r) :
    r ∈ c.relationships ∧ r.id = id :=
  ⟨List.mem_of_find?_eq_some h, by simpa using List.find?_some h⟩

/-- The survivor is deleted and created again with the document removed. -/
def stripOneRelationship (now : Time) (d : UUID) (c : Content) (id : UUID) : Content :=
  match hr : c.relationships.find? (fun r => r.id = id) with
  | none => c
  | some r =>
    if d ∈ r.sourceDocumentIds then
      { entities := c.entities
        relationships := c.relationships.filter (fun s => s.id ≠ id)++[strippedRelationship A now d r]
        entity_keys := c.entity_keys
        relationship_keys := by
          have hid : (strippedRelationship A now d r).id = id :=
            (A.relationship_kept _ _).id.trans (find?_id hr).2
          rw [List.map_append, List.nodup_append]
          refine ⟨c.relationship_keys.sublist (List.filter_sublist.map _), by simp, ?_⟩
          intro x hx y hy
          obtain ⟨s, hs, rfl⟩ := List.mem_map.mp hx
          rw [List.mem_singleton.mp hy, hid]
          simpa using (List.mem_filter.mp hs).2 }
    else c

def stripDocumentFromRelationships (now : Time) (ids : List UUID) (d : UUID) (c : Content) :
    Content :=
  ids.foldl (stripOneRelationship A now d) c

end Uru.Storage
