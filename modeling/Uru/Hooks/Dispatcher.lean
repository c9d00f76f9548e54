import Uru.Lib.TwoIndex
import Uru.Hooks.Filter

/-!
# The hook dispatcher

Subscriptions are indexed by event type and by id, in-process ones and durable
ones apart. A caller passes a filter by reference and the dispatcher folds the
namespace of the call onto that object; filters that the dispatcher makes for
itself are referred to by one subscription only. The record `live` remembers
each registration as the call made it.
-/

set_option autoImplicit false

namespace Uru.Hooks

open Uru.Lib

/-- The filter object of a subscription: a caller's, or one that nothing else
refers to. -/
inductive Held (μ θ δ : Type*) where
  | shared (r : ℕ)
  | own (filter : SemanticFilter μ θ δ)

structure HookSubscription (μ θ δ : Type*) where
  id : ℕ
  eventType : String
  filter : Option (Held μ θ δ)
  enabled : Bool

structure PersistentSubscription (μ θ δ : Type*) where
  id : ℕ
  namespaceId : Option ℕ
  eventType : String
  filter : Option (Held μ θ δ)
  paused : Bool

structure Row (μ θ : Type*) where
  id : ℕ
  namespaceId : Option ℕ
  eventType : String
  filter : Option (FilterBlob μ θ)
  paused : Bool

/-- What was registered: the filter as it was when the call was made. -/
structure Registration (μ θ δ : Type*) where
  durable : Bool
  eventType : String
  namespaceId : Option ℕ
  filter : Option (SemanticFilter μ θ δ)

structure World (μ θ δ : Type*) where
  filters : ℕ → SemanticFilter μ θ δ
  subscriptions : TwoIndex String ℕ (HookSubscription μ θ δ)
  persistent : TwoIndex String ℕ (PersistentSubscription μ θ δ)
  embeddingCache : ℕ → Option δ
  subscriptionStore : Option (List (Row μ θ))
  uuids : ℕ
  live : ℕ → Option (Registration μ θ δ)

inductive Event where
  | subscribe (eventType : String) (filter namespaceId : Option ℕ)
  | unsubscribe (subscriptionId : ℕ)
  | registerPersistent (eventType : String) (filter namespaceId : Option ℕ) (persisted : Bool)
  | loadPersistent (loaded : Bool)

variable {μ θ δ π : Type*}

def Held.read (filters : ℕ → SemanticFilter μ θ δ) : Held μ θ δ → SemanticFilter μ θ δ
  | .shared r => filters r
  | .own filter => filter

def foldScope (namespaceId : Option ℕ) (filter : SemanticFilter μ θ δ) : SemanticFilter μ θ δ :=
  match namespaceId with
  | none => filter
  | some n => { filter with namespaceId := some n }

/-- `filter.namespace_id = namespace_id`, on the object the caller passed. -/
def rescope (filters : ℕ → SemanticFilter μ θ δ) (filter namespaceId : Option ℕ) :
    ℕ → SemanticFilter μ θ δ :=
  match filter with
  | none => filters
  | some r => Function.update filters r (foldScope namespaceId (filters r))

def registerHeld (filters : ℕ → SemanticFilter μ θ δ) (cache : ℕ → Option δ) :
    Option (Held μ θ δ) → ℕ → Option δ
  | none => cache
  | some h => registerFilter cache (h.read filters)

/-- The filter of an in-process subscription: the caller's, or one made for the
namespace, or none. -/
def subscriptionFilter (svc : Services μ θ δ π) (uuid : ℕ) (filter namespaceId : Option ℕ) :
    Option (Held μ θ δ) :=
  match filter with
  | some r => some (.shared r)
  | none => namespaceId.map (fun n => .own (namespaceFilter svc uuid n))

def subscribe (svc : Services μ θ δ π) (eventType : String) (filter namespaceId : Option ℕ)
    (w : World μ θ δ) : World μ θ δ :=
  let held := subscriptionFilter svc w.uuids filter namespaceId
  { w with
    filters := rescope w.filters filter namespaceId
    subscriptions := TwoIndex.add (·.eventType) (·.id) ⟨w.uuids+1, eventType, held, true⟩
      w.subscriptions
    embeddingCache := registerHeld (rescope w.filters filter namespaceId) w.embeddingCache held
    uuids := w.uuids+2
    live := Function.update w.live (w.uuids+1)
      (some ⟨false, eventType, namespaceId, filter.map w.filters⟩) }

def unsubscribe (subscriptionId : ℕ) (w : World μ θ δ) : World μ θ δ :=
  match w.subscriptions.byId subscriptionId with
  | none => w
  | some _ =>
    { w with
      subscriptions := TwoIndex.remove (·.eventType) (·.id) subscriptionId w.subscriptions
      live := Function.update w.live subscriptionId none }

def rowOf (filters : ℕ → SemanticFilter μ θ δ) (sub : PersistentSubscription μ θ δ) : Row μ θ where
  id := sub.id
  namespaceId := sub.namespaceId
  eventType := sub.eventType
  filter := sub.filter.map (fun h => serializeFilter (h.read filters))
  paused := sub.paused

/-- The filter is folded before the store is looked for; a write that fails
leaves the subscription in memory only. -/
def registerPersistent (eventType : String) (filter namespaceId : Option ℕ) (persisted : Bool)
    (w : World μ θ δ) : World μ θ δ :=
  let filters := rescope w.filters filter namespaceId
  let held := filter.map Held.shared
  let sub : PersistentSubscription μ θ δ := ⟨w.uuids, namespaceId, eventType, held, false⟩
  match w.subscriptionStore with
  | none => { w with filters := filters, uuids := w.uuids+1 }
  | some rows =>
    { w with
      filters := filters
      persistent := TwoIndex.put (·.eventType) (·.id) sub w.persistent
      embeddingCache := registerHeld filters w.embeddingCache held
      subscriptionStore := some (if persisted then rows++[rowOf filters sub] else rows)
      uuids := w.uuids+1
      live := Function.update w.live w.uuids
        (some ⟨true, eventType, namespaceId, filter.map w.filters⟩) }

def _rowToSubscription (row : Row μ θ) : PersistentSubscription μ θ δ where
  id := row.id
  namespaceId := row.namespaceId
  eventType := row.eventType
  filter := row.filter.map (fun raw => .own (deserializeFilter raw row.namespaceId))
  paused := row.paused

def registrationOf (row : Row μ θ) : Registration μ θ δ where
  durable := true
  eventType := row.eventType
  namespaceId := row.namespaceId
  filter := row.filter.map (fun raw => deserializeFilter raw row.namespaceId)

def _addPersistentInMemory (t : TwoIndex String ℕ (PersistentSubscription μ θ δ))
    (sub : PersistentSubscription μ θ δ) : TwoIndex String ℕ (PersistentSubscription μ θ δ) :=
  TwoIndex.put (·.eventType) (·.id) sub t

/-- The rows replace what is in memory; a row of an earlier process is live from
then on, unless it is paused. -/
def loadPersistent (loaded : Bool) (w : World μ θ δ) : World μ θ δ :=
  match w.subscriptionStore, loaded with
  | some rows, true =>
    { w with
      persistent := (rows.map _rowToSubscription).foldl _addPersistentInMemory TwoIndex.empty
      embeddingCache := (rows.map _rowToSubscription).foldl
        (fun cache sub => registerHeld w.filters cache sub.filter) w.embeddingCache
      live := fun i => (w.live i).or
        (((rows.find? (fun row => row.id == i)).filter (fun row => !row.paused)).map
          registrationOf) }
  | _, _ => w

def step (svc : Services μ θ δ π) (w : World μ θ δ) : Event → Option (World μ θ δ)
  | .subscribe eventType filter namespaceId =>
    some (subscribe svc eventType filter namespaceId w)
  | .unsubscribe subscriptionId => some (unsubscribe subscriptionId w)
  | .registerPersistent eventType filter namespaceId persisted =>
    some (registerPersistent eventType filter namespaceId persisted w)
  | .loadPersistent loaded => some (loadPersistent loaded w)

/-- `None` filter = match everything for the event type. -/
def passes (svc : Services μ θ δ π) (w : World μ θ δ) (event : MemoryEvent δ π)
    (filter : Option (Held μ θ δ)) : Bool :=
  filter.all (fun h => passesFilterCascade svc w.embeddingCache event (h.read w.filters))

def callbackMatches (svc : Services μ θ δ π) (w : World μ θ δ) (event : MemoryEvent δ π)
    (sub : HookSubscription μ θ δ) : Bool :=
  sub.enabled && passes svc w event sub.filter

def persistentMatches (svc : Services μ θ δ π) (w : World μ θ δ) (event : MemoryEvent δ π)
    (sub : PersistentSubscription μ θ δ) : Bool :=
  !sub.paused && inScope sub.namespaceId event && passes svc w event sub.filter

/-- The subscriptions the event is handed to: the callbacks that are invoked and
the durable ones that go to the delivery sink. -/
def dispatch (svc : Services μ θ δ π) (w : World μ θ δ) (event : MemoryEvent δ π) : List ℕ :=
  ((w.subscriptions.lists event.eventType).filter (callbackMatches svc w event)).map (·.id)++
    ((w.persistent.lists event.eventType).filter (persistentMatches svc w event)).map (·.id)

def Registration.wants (svc : Services μ θ δ π) (reg : Registration μ θ δ)
    (event : MemoryEvent δ π) : Bool :=
  reg.eventType == event.eventType && inScope reg.namespaceId event &&
    reg.filter.all (fun f => accepts svc f event)

/-- Every live registration gets exactly the events it asks for, each once, and
nothing else is delivered. -/
def Undisturbed (svc : Services μ θ δ π) (w : World μ θ δ) : Prop :=
  ∀ event i, (dispatch svc w event).count i =
    if (w.live i).any (fun reg => reg.wants svc event) then 1 else 0

structure Start (μ θ δ : Type*) where
  filters : ℕ → SemanticFilter μ θ δ
  rows : Option (List (Row μ θ))
  uuids : ℕ
  nodup : ∀ rs, rows = some rs → (rs.map (·.id)).Nodup
  fresh : ∀ rs, rows = some rs → ∀ row ∈ rs, row.id < uuids

def Start.world (s : Start μ θ δ) : World μ θ δ where
  filters := s.filters
  subscriptions := TwoIndex.empty
  persistent := TwoIndex.empty
  embeddingCache := fun _ => none
  subscriptionStore := s.rows
  uuids := s.uuids
  live := fun _ => none

end Uru.Hooks
