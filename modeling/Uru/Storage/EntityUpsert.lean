import Uru.Storage.Rows

/-!
# Upsert of a batch of entities

`upsert_entities_batch` reads the stored rows of the batch's keys, goes through
the batch and merges each member into the object that holds its key, and at the
end inserts the objects of keys without a row and updates those that a later
member was merged into. An object is addressed by the key under which the map
holds it. Ids are primary keys, and no two rows of a namespace share a name and
a type.
-/

set_option autoImplicit false

namespace Uru.Storage.EntityUpsert

structure Entity (J : Type) where
  id : UUID
  namespaceId : UUID
  name : String
  entityType : String
  description : String
  attributes : List (String × J)
  sourceDocumentIds : List UUID
  sourceChunkIds : List UUID
  mentionCount : ℤ
  embeddingModel : String
  validFrom : Option Time
  validUntil : Option Time
  confidence : ℚ
  metadata : List (String × J)
  createdAt : Time
deriving DecidableEq

abbrev Key := String × String

namespace Entity

variable {J : Type}

def key (e : Entity J) : Key := (e.name,e.entityType)

def place (e : Entity J) : UUID × Key := (e.namespaceId,e.key)

end Entity

section Merge

variable {J : Type}

def addMissing (ids more : List UUID) : List UUID :=
  more.foldl (fun ids id => if id ∈ ids then ids else ids++[id]) ids

def addAttributes (attributes more : List (String × J)) : List (String × J) :=
  more.foldl (fun attributes kv =>
    if kv.1 ∈ attributes.map Prod.fst then attributes else attributes++[kv]) attributes

def mergeWith (self other : Entity J) : Entity J :=
  { self with
    sourceDocumentIds := addMissing self.sourceDocumentIds other.sourceDocumentIds
    sourceChunkIds := addMissing self.sourceChunkIds other.sourceChunkIds
    mentionCount := self.mentionCount+other.mentionCount
    attributes := addAttributes self.attributes other.attributes
    confidence := max self.confidence other.confidence
    description := if self.description = "" then other.description else self.description }

@[simp] theorem mergeWith_id (a b : Entity J) : (mergeWith a b).id = a.id := rfl

@[simp] theorem mergeWith_place (a b : Entity J) : (mergeWith a b).place = a.place := rfl

@[simp] theorem mergeWith_createdAt (a b : Entity J) :
    (mergeWith a b).createdAt = a.createdAt := rfl

/-- Merging keeps what identifies a row. -/
theorem foldl_mergeWith (es : List (Entity J)) (a : Entity J) :
    (es.foldl mergeWith a).id = a.id ∧ (es.foldl mergeWith a).place = a.place ∧
      (es.foldl mergeWith a).createdAt = a.createdAt := by
  induction es generalizing a with
  | nil => exact ⟨rfl,rfl,rfl⟩
  | cons e es ih => exact ih (mergeWith a e)

end Merge

structure Table (J : Type) where
  rows : List (Entity J)
  ids : (rows.map Entity.id).Nodup
  places : (rows.map Entity.place).Nodup

section Upsert

variable {J : Type}

def rowToEntity (r : Entity J) : Entity J :=
  { r with
    mentionCount := if r.mentionCount = 0 then 1 else r.mentionCount
    confidence := if r.confidence = 0 then 1 else r.confidence }

namespace Table

def row (t : Table J) (ns : UUID) (k : Key) : Option (Entity J) :=
  t.rows.find? (fun r => r.place = (ns,k))

def insert (t : Table J) (e : Entity J) : Option (Table J) :=
  if h : e.id ∉ t.rows.map Entity.id ∧ e.place ∉ t.rows.map Entity.place then
    some
      { rows := t.rows++[e]
        ids := by
          rw [List.map_append, List.nodup_append]
          refine ⟨t.ids, List.nodup_singleton _, fun a ha b hb => ?_⟩
          rw [List.map_singleton, List.mem_singleton] at hb
          exact fun hab => h.1 (hb ▸ hab ▸ ha)
        places := by
          rw [List.map_append, List.nodup_append]
          refine ⟨t.places, List.nodup_singleton _, fun a ha b hb => ?_⟩
          rw [List.map_singleton, List.mem_singleton] at hb
          exact fun hab => h.2 (hb ▸ hab ▸ ha) }
  else none

def insertAll (t : Table J) : List (Entity J) → Table J × Bool
  | [] => (t,true)
  | e::es =>
    match t.insert e with
    | none => (t,false)
    | some t => t.insertAll es

/-- What `UPDATE entities SET … WHERE id = … AND namespace_id = …` makes of a row. -/
def updated (e r : Entity J) : Entity J :=
  if r.id = e.id ∧ r.namespaceId = e.namespaceId then { e with createdAt := r.createdAt } else r

theorem updated_id (e r : Entity J) : (updated e r).id = r.id := by
  unfold updated
  split
  · next h => exact h.1.symm
  · rfl

def update (t : Table J) (e : Entity J) : Option (Table J) :=
  if h : ((t.rows.map (updated e)).map Entity.place).Nodup then
    some
      { rows := t.rows.map (updated e)
        ids := by
          rw [List.map_map, show Entity.id ∘ updated e = Entity.id from funext (updated_id e)]
          exact t.ids
        places := h }
  else none

def updateAll (t : Table J) : List (Entity J) → Table J × Bool
  | [] => (t,true)
  | e::es =>
    match t.update e with
    | none => (t,false)
    | some t => t.updateAll es

end Table

/-- The map from keys to objects, the keys of `to_insert` and `to_update`, the
results, and the ids of the members after the loop. -/
structure Loop (J : Type) where
  existingMap : Key → Option (Entity J)
  toInsert : List Key
  toUpdate : List Key
  results : List (Key × Bool)
  synced : List UUID

def classify (ns : UUID) (s : Loop J) (e : Entity J) : Loop J :=
  match s.existingMap e.key with
  | some existing =>
    { existingMap := Function.update s.existingMap e.key (some (mergeWith existing e))
      toInsert := s.toInsert
      toUpdate := s.toUpdate++[e.key]
      results := s.results++[(e.key,false)]
      synced := s.synced++[existing.id] }
  | none =>
    { existingMap := Function.update s.existingMap e.key (some { e with namespaceId := ns })
      toInsert := s.toInsert++[e.key]
      toUpdate := s.toUpdate
      results := s.results++[(e.key,true)]
      synced := s.synced++[e.id] }

/-- The table, and what the call returns: a pair for each member, or nothing
where a constraint makes it raise. The ids are those of the members afterwards. -/
structure Outcome (J : Type) where
  table : Table J
  results : Option (List (Entity J × Bool) × List UUID)

def prefetch (t : Table J) (ns : UUID) (entities : List (Entity J)) (k : Key) : Option (Entity J) :=
  if k ∈ entities.map Entity.key then (t.row ns k).map rowToEntity else none

def upsertEntitiesBatch (t : Table J) (ns : UUID) (entities : List (Entity J)) : Outcome J :=
  let s := entities.foldl (classify ns) ⟨prefetch t ns entities,[],[],[],[]⟩
  let inserted := t.insertAll (s.toInsert.filterMap s.existingMap)
  if inserted.2 then
    let updated := inserted.1.updateAll (s.toUpdate.filterMap s.existingMap)
    if updated.2 then
      ⟨updated.1,some (s.results.filterMap (fun r => (s.existingMap r.1).map (fun e => (e,r.2))),
        s.synced)⟩
    else ⟨updated.1,none⟩
  else ⟨inserted.1,none⟩

/-- The members of a key merged one after another into the stored row, or into
the first of them. -/
def folded (ns : UUID) : Option (Entity J) → List (Entity J) → Option (Entity J)
  | some r, es => some (es.foldl mergeWith r)
  | none, [] => none
  | none, e::es => some (es.foldl mergeWith { e with namespaceId := ns })

theorem folded_snoc (ns : UUID) (r : Option (Entity J)) (es : List (Entity J)) (e : Entity J) :
    folded ns r (es++[e]) = some (match folded ns r es with
      | some x => mergeWith x e
      | none => { e with namespaceId := ns }) := by
  rcases r with _ | r
  · rcases es with _ | ⟨a, es⟩
    · rfl
    · simp [folded, List.foldl_append]
  · simp [folded, List.foldl_append]

def members (k : Key) (es : List (Entity J)) : List (Entity J) := es.filter (fun e => e.key = k)

theorem members_snoc (k : Key) (es : List (Entity J)) (e : Entity J) :
    members k (es++[e]) = if e.key = k then members k es++[e] else members k es := by
  unfold members
  rw [List.filter_append]
  split
  · next h => simp [h]
  · next h => simp [h]

end Upsert

end Uru.Storage.EntityUpsert
