import Mathlib.Logic.Function.Basic
import Mathlib.Tactic

/-!
# The filter cascade

A semantic filter gates an event in three levels after its namespace scope: the
types and the structural pattern, the embedding gate, and the model's verdict.
The embedding gate reads the filter's embedding out of a cache keyed by the
filter's identity. The pattern language, the vector arithmetic and the model are
parameters. What is persisted of a filter is everything but its scope and its
embedding.
-/

set_option autoImplicit false

namespace Uru.Hooks

variable {μ θ δ π : Type*}

structure FilterBlob (μ θ : Type*) where
  id : ℕ
  name : String
  description : String
  entityTypes : List String
  relationshipTypes : List String
  dreamOpTypes : List String
  dreamDecisions : List String
  «match» : Option μ
  examples : List String
  antiExamples : List String
  similarityThreshold : θ
  llmConfidenceThreshold : θ
  filterModel : Option String

structure SemanticFilter (μ θ δ : Type*) extends FilterBlob μ θ where
  embedding : Option δ
  namespaceId : Option ℕ

def serializeFilter (filt : SemanticFilter μ θ δ) : FilterBlob μ θ := filt.toFilterBlob

def deserializeFilter (raw : FilterBlob μ θ) (namespaceId : Option ℕ) : SemanticFilter μ θ δ where
  toFilterBlob := raw
  embedding := none
  namespaceId := namespaceId

structure MemoryEvent (δ π : Type*) where
  eventType : String
  namespaceId : ℕ
  resourceType : String
  entityType : String
  relationshipType : String
  opType : String
  decision : String
  embedding : Option δ
  data : π

/-- What the cascade calls: the structural pattern, the arithmetic of the
embedding gate with its threshold test, and the model, if it is enabled. -/
structure Services (μ θ δ π : Type*) where
  matchesPattern : μ → π → Bool
  half : θ
  disabled : θ → Bool
  dims : δ → ℕ
  near : δ → δ → Bool
  similar : θ → δ → δ → Bool
  llmEvaluationEnabled : Bool
  evaluate : MemoryEvent δ π → FilterBlob μ θ → Bool

/-- `SemanticFilter(namespace_id=...)`: every other field has its default. -/
def namespaceFilter (svc : Services μ θ δ π) (id namespaceId : ℕ) : SemanticFilter μ θ δ where
  id := id
  name := ""
  description := ""
  entityTypes := []
  relationshipTypes := []
  dreamOpTypes := []
  dreamDecisions := []
  «match» := none
  examples := []
  antiExamples := []
  similarityThreshold := svc.half
  llmConfidenceThreshold := svc.half
  filterModel := none
  embedding := none
  namespaceId := some namespaceId

def allows (types : List String) (type : String) : Bool :=
  types.isEmpty || type == "" || types.contains type

def passesTypeFilter (svc : Services μ θ δ π) (event : MemoryEvent δ π)
    (filter : FilterBlob μ θ) : Bool :=
  (event.resourceType != "entity" || allows filter.entityTypes event.entityType) &&
  (event.resourceType != "relationship" ||
    allows filter.relationshipTypes event.relationshipType) &&
  (event.resourceType != "dream" || (allows filter.dreamOpTypes event.opType &&
    allows filter.dreamDecisions event.decision)) &&
  filter.match.all (fun pattern => svc.matchesPattern pattern event.data)

def registerFilter (cache : ℕ → Option δ) (filter : SemanticFilter μ θ δ) : ℕ → Option δ :=
  match filter.embedding with
  | none => cache
  | some e => Function.update cache filter.id (some e)

/-- The gate of a filter whose own embedding is `own`, on what the cache holds
under the filter's identity. -/
def passesEmbeddingGate (svc : Services μ θ δ π) (cached : Option δ) (own entity : δ)
    (threshold : θ) : Bool :=
  svc.disabled threshold ||
    (svc.dims entity == svc.dims (cached.getD own) &&
      cached.all (fun e => (svc.dims e == 0 || svc.near entity e) &&
        svc.similar threshold entity e))

def passesFilterCascade (svc : Services μ θ δ π) (cache : ℕ → Option δ)
    (event : MemoryEvent δ π) (filter : SemanticFilter μ θ δ) : Bool :=
  filter.namespaceId.all (fun n => event.namespaceId == n) &&
  passesTypeFilter svc event filter.toFilterBlob &&
  filter.embedding.all (fun own => event.embedding.all (fun entity =>
    passesEmbeddingGate svc (cache filter.id) own entity filter.similarityThreshold)) &&
  (!(svc.llmEvaluationEnabled && !filter.examples.isEmpty) ||
    svc.evaluate event filter.toFilterBlob)

def accepts (svc : Services μ θ δ π) (filter : SemanticFilter μ θ δ)
    (event : MemoryEvent δ π) : Bool :=
  passesFilterCascade svc (fun _ => filter.embedding) event filter

/-- The levels after the scope do not read it. -/
def levels (svc : Services μ θ δ π) (filter : FilterBlob μ θ) (embedding : Option δ)
    (event : MemoryEvent δ π) : Bool :=
  passesTypeFilter svc event filter &&
  embedding.all (fun own => event.embedding.all (fun entity =>
    passesEmbeddingGate svc (some own) own entity filter.similarityThreshold)) &&
  (!(svc.llmEvaluationEnabled && !filter.examples.isEmpty) || svc.evaluate event filter)

def inScope (namespaceId : Option ℕ) (event : MemoryEvent δ π) : Bool :=
  namespaceId.all (fun n => event.namespaceId == n)

variable {svc : Services μ θ δ π} {cache : ℕ → Option δ} {event : MemoryEvent δ π}
  {filter : SemanticFilter μ θ δ}

theorem accepts_eq (filter : SemanticFilter μ θ δ) (event : MemoryEvent δ π) :
    accepts svc filter event =
      (inScope filter.namespaceId event &&
        levels svc filter.toFilterBlob filter.embedding event) := by
  unfold accepts passesFilterCascade inScope levels
  cases filter.embedding with
  | none => simp only [Option.all_none, Bool.and_assoc]
  | some own => simp only [Option.all_some, Bool.and_assoc]

/-- The cascade is the filter's own acceptance as long as the cache holds its
embedding. -/
theorem cascade_eq_accepts (h : ∀ e, filter.embedding = some e → cache filter.id = some e) :
    passesFilterCascade svc cache event filter = accepts svc filter event := by
  unfold accepts passesFilterCascade
  cases he : filter.embedding with
  | none => simp only [Option.all_none]
  | some own => simp only [h own he]

theorem registerFilter_self {e : δ} (h : filter.embedding = some e) :
    registerFilter cache filter filter.id = some e := by
  simp only [registerFilter, h, Function.update_self]

/-- Registering a filter leaves what the cache holds of another one, if the two
do not share an identity under different embeddings. -/
theorem registerFilter_kept {id : ℕ} {e : δ} (hc : cache id = some e)
    (h : filter.id = id → ∀ e', filter.embedding = some e' → e' = e) :
    registerFilter cache filter id = some e := by
  unfold registerFilter
  cases he : filter.embedding with
  | none => exact hc
  | some e' =>
    by_cases hid : id = filter.id
    · subst hid
      simp only [Function.update_self, h rfl e' he]
    · simp only [Function.update_of_ne hid, hc]

theorem namespaceFilter_accepts (id n : ℕ) :
    accepts svc (namespaceFilter svc id n) event = inScope (some n) event := by
  rw [accepts_eq]
  simp [namespaceFilter, levels, passesTypeFilter, allows]

/-- Folding a scope onto a filter that has none, or the same, adds the scope to
what it asks. -/
theorem scoped_accepts {n : ℕ} (h : filter.namespaceId = none ∨ filter.namespaceId = some n) :
    accepts svc { filter with namespaceId := some n } event =
      (inScope (some n) event && accepts svc filter event) := by
  rw [accepts_eq, accepts_eq]
  rcases h with h | h
  · rw [h]
    simp only [inScope, Option.all_none, Bool.true_and]
  · rw [h, ← Bool.and_assoc, Bool.and_self]

/-- What comes back from the store asks the same under the row's scope, if the
filter had no embedding and no scope beside the row's. -/
theorem deserialize_accepts {n : Option ℕ} (hemb : filter.embedding = none)
    (h : filter.namespaceId = none ∨ filter.namespaceId = n) :
    (inScope n event && accepts svc (deserializeFilter (serializeFilter filter) n) event) =
      (inScope n event && accepts svc filter event) := by
  rw [accepts_eq, accepts_eq]
  simp only [deserializeFilter, serializeFilter, hemb]
  rcases h with h | h
  · rw [h, ← Bool.and_assoc, Bool.and_self]
    simp only [inScope, Option.all_none, Bool.true_and]
  · rw [h]

end Uru.Hooks
