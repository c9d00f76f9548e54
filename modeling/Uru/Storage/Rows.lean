import Mathlib.Data.List.Basic
import Mathlib.Data.List.Nodup
import Mathlib.Data.List.Sort
import Mathlib.Data.Rat.Defs
import Mathlib.Tactic

/-!
# Entities and relationships of a namespace

The rows of one namespace, keyed by their ids. The columns that no operation
of this development reads are kept as one list of texts; times are numbers. A
row is live while none of its tombstones is set and its validity window is
open.
-/

set_option autoImplicit false

namespace Uru.Storage

abbrev UUID := ℕ
abbrev Time := ℤ

structure Entity where
  id : UUID
  name : String
  sourceDocumentIds : List UUID
  sourceChunkIds : List UUID
  mentionCount : ℤ
  confidence : ℚ
  validUntil : Option Time
  createdAt : Time
  updatedAt : Time
  columns : List String
  deriving DecidableEq, Repr

structure Relationship where
  id : UUID
  sourceEntityId : UUID
  targetEntityId : UUID
  relationshipType : String
  sourceDocumentIds : List UUID
  sourceChunkIds : List UUID
  confidence : ℚ
  weight : ℚ
  validUntil : Option Time
  validTo : Option Time
  invalidatedAt : Option Time
  invalidatedBy : Option UUID
  createdAt : Time
  updatedAt : Time
  columns : List String
  deriving DecidableEq, Repr

def windowOpen (now : Time) : Option Time → Bool
  | none => true
  | some t => now < t

def Entity.live (now : Time) (e : Entity) : Bool := windowOpen now e.validUntil

def Relationship.live (now : Time) (r : Relationship) : Bool :=
  r.validTo.isNone && r.invalidatedAt.isNone && windowOpen now r.validUntil

def Relationship.touches (r : Relationship) (id : UUID) : Prop :=
  r.sourceEntityId = id ∨ r.targetEntityId = id

instance (r : Relationship) (id : UUID) : Decidable (r.touches id) :=
  inferInstanceAs (Decidable (_ ∨ _))

/-- Ids are primary keys. -/
structure Content where
  entities : List Entity
  relationships : List Relationship
  entity_keys : (entities.map Entity.id).Nodup
  relationship_keys : (relationships.map Relationship.id).Nodup

theorem Content.entity_ext (c : Content) {e f : Entity} (he : e ∈ c.entities)
    (hf : f ∈ c.entities) (h : e.id = f.id) : e = f :=
  List.inj_on_of_nodup_map c.entity_keys he hf h

theorem Content.relationship_ext (c : Content) {r s : Relationship} (hr : r ∈ c.relationships)
    (hs : s ∈ c.relationships) (h : r.id = s.id) : r = s :=
  List.inj_on_of_nodup_map c.relationship_keys hr hs h

end Uru.Storage
