import Uru.Lib.Calls
import Uru.Ingest.Staging

/-!
# Remembering under an external id

The documents, temporal chunks and chunk nodes that carry one external id of a
namespace, and the calls that remember new content under it or forget one of
its documents. Every storage call is an await: it takes effect or fails, and
other calls run in between. A first insert creates the row and writes its
chunks window by window; a later one deletes the chunks of the row it found,
writes those of the new content, and only then updates the row.
-/

set_option autoImplicit false

namespace Uru.Ingest.Replace

open Uru.Lib

inductive Status where
  | pending
  | completed
  | failed
  deriving DecidableEq, Repr

structure Document (τ : Type*) where
  id : UUID
  content : τ
  status : Status
  deriving DecidableEq, Repr

structure TemporalChunk (κ : Type*) where
  documentId : UUID
  content : κ
  deriving DecidableEq, Repr

/-- What a call returns. Forgetting a document that is not there is no
deletion. -/
inductive Result where
  | remembered
  | duplicate
  | forgotten
  | missing
  | failed
  deriving DecidableEq, Repr

structure Stores (τ κ : Type*) where
  documents : List (Document τ)
  chunks : List (TemporalChunk κ)
  nodes : List (TemporalChunk κ)
  last : Option Result

/-- Where a call stands, named after the storage call it makes next. -/
inductive Stage (τ κ : Type*) where
  | lookup (content : τ)
  | checksum (content : τ)
  | create (content : τ)
  | relookup (content : τ)
  | process (id : UUID) (content : τ) (rest : List κ)
  | mirrorWindow (id : UUID) (content : τ) (window rest : List κ)
  | complete (id : UUID) (content : τ)
  | prepare (existing : UUID) (content : τ)
  | wipe (existing : UUID) (content : τ)
  | wipeNodes (existing : UUID) (content : τ)
  | write (existing : UUID) (content : τ)
  | mirror (existing : UUID) (content : τ)
  | commit (existing : UUID) (content : τ)
  | relink (existing : UUID) (content : τ)
  | markFailed (existing : UUID) (content : τ)
  | find (id : UUID)
  | cascade (id : UUID)
  | dropNodes (id : UUID)
  | dropChunks (id : UUID)
  | dropRow (id : UUID)
  | settled (result : Result)
  deriving DecidableEq, Repr

/-- The awaited operation took effect, failed, or, where it has two parts, took
effect in the first. A row that is created gets a new id. -/
inductive Outcome where
  | ok (newId : UUID)
  | partly
  | fails
  deriving DecidableEq, Repr

section Act

variable {τ κ : Type*} [DecidableEq τ] (chunk : τ → List κ) (maxChunksInFlight : Option ℕ+)

def rowsOf (id : UUID) (texts : List κ) : List (TemporalChunk κ) :=
  texts.map (fun x => ⟨id, x⟩)

def hasDocument (id : UUID) (st : Stores τ κ) : Bool := st.documents.any (fun d => d.id = id)

def updateDocument (id : UUID) (content : τ) (status : Status) (st : Stores τ κ) : Stores τ κ :=
  { st with
    documents := st.documents.map (fun d => if d.id = id then ⟨id, content, status⟩ else d) }

def deleteChunksByDocument (id : UUID) (st : Stores τ κ) : Stores τ κ :=
  { st with chunks := st.chunks.filter (fun c => c.documentId ≠ id) }

def deleteNodesByDocument (id : UUID) (st : Stores τ κ) : Stores τ κ :=
  { st with nodes := st.nodes.filter (fun c => c.documentId ≠ id) }

def createChunksBatch (id : UUID) (texts : List κ) (st : Stores τ κ) : Stores τ κ :=
  { st with chunks := st.chunks++rowsOf id texts }

def createChunkNodesBatch (id : UUID) (texts : List κ) (st : Stores τ κ) : Stores τ κ :=
  { st with nodes := st.nodes++rowsOf id texts }

def settle (result : Result) (st : Stores τ κ) : Stores τ κ × Stage τ κ :=
  ({ st with last := some result }, .settled result)

def windowSize (rest : List κ) : ℕ :=
  match maxChunksInFlight with
  | none => rest.length
  | some n => n

def nextWindow (id : UUID) (content : τ) (rest : List κ) : Stage τ κ :=
  if rest.isEmpty then .complete id content else .process id content rest

/-- The transaction of `replace_document_extraction`. Its chunk rows refer to
the document, so without the row there is nothing to insert them for. -/
def canCommit (existing : UUID) (content : τ) (st : Stores τ κ) : Bool :=
  hasDocument existing st || (chunk content).isEmpty

def okAct (newId : UUID) (st : Stores τ κ) : Stage τ κ → Option (Stores τ κ × Stage τ κ)
  | .lookup content =>
    match st.documents.head? with
    | some d => some (st, .prepare d.id content)
    | none => some (st, .checksum content)
  | .checksum content =>
    match st.documents.find? (fun d => d.content = content ∧ d.status ≠ .failed) with
    | some _ => some (settle .duplicate st)
    | none => some (st, .create content)
  | .create content =>
    if st.documents.isEmpty then
      some ({ st with documents := [⟨newId, content, .pending⟩] },
        nextWindow newId content (chunk content))
    else some (st, .relookup content)
  | .relookup content =>
    match st.documents.head? with
    | some d => some (st, .prepare d.id content)
    | none => some (settle .failed st)
  | .process id content rest =>
    let n := windowSize maxChunksInFlight rest
    some (createChunksBatch id (rest.take n) st,
      .mirrorWindow id content (rest.take n) (rest.drop n))
  | .mirrorWindow id content window rest =>
    some (createChunkNodesBatch id window st, nextWindow id content rest)
  | .complete id content => some (settle .remembered (updateDocument id content .completed st))
  | .prepare existing content => some (st, .wipe existing content)
  | .wipe existing content =>
    some (deleteChunksByDocument existing st, .wipeNodes existing content)
  | .wipeNodes existing content =>
    some (deleteNodesByDocument existing st,
      if (chunk content).isEmpty then .commit existing content else .write existing content)
  | .write existing content =>
    some (createChunksBatch existing (chunk content) st, .mirror existing content)
  | .mirror existing content =>
    some (createChunkNodesBatch existing (chunk content) st, .commit existing content)
  | .commit existing content =>
    if canCommit chunk existing content st then
      some (updateDocument existing content .completed st, .relink existing content)
    else some (settle .failed st)
  | .relink _ _ => some (settle .remembered st)
  | .markFailed existing content =>
    some (settle .failed (updateDocument existing content .failed st))
  | .find id =>
    if hasDocument id st then some (st, .cascade id) else some (settle .missing st)
  | .cascade id => some (st, .dropNodes id)
  | .dropNodes id => some (deleteNodesByDocument id st, .dropChunks id)
  | .dropChunks id => some (deleteChunksByDocument id st, .dropRow id)
  | .dropRow id =>
    if hasDocument id st then
      some (settle .forgotten
        { st with documents := st.documents.filter (fun d => d.id ≠ id) })
    else some (settle .missing st)
  | .settled _ => none

/-- A failed mirror degrades; a failure between the wipe and the commit marks
the row failed; any other failure is raised. -/
def failAct (st : Stores τ κ) : Stage τ κ → Option (Stores τ κ × Stage τ κ)
  | .wipe existing content => some (st, .markFailed existing content)
  | .wipeNodes existing content => some (st, .markFailed existing content)
  | .write existing content => some (st, .markFailed existing content)
  | .relink existing content => some (st, .markFailed existing content)
  | .mirrorWindow id content _ rest => some (st, nextWindow id content rest)
  | .mirror existing content => some (st, .commit existing content)
  | .settled _ => none
  | _ => some (settle .failed st)

/-- The checksum is found on a row that another call with another identity
wrote, which is no duplicate. The transaction committed and its graph phase did
not: the call returns with a degradation. After the links are made, resetting
the chunk ids may raise. -/
def partlyAct (st : Stores τ κ) : Stage τ κ → Option (Stores τ κ × Stage τ κ)
  | .checksum content => some (st, .create content)
  | .commit existing content =>
    if canCommit chunk existing content st then
      some (settle .remembered (updateDocument existing content .completed st))
    else none
  | .relink _ _ => some (settle .failed st)
  | _ => none

def act (f : Stage τ κ) (o : Outcome) (st : Stores τ κ) : Option (Stores τ κ × Stage τ κ) :=
  match o with
  | .ok newId => okAct chunk maxChunksInFlight newId st f
  | .partly => partlyAct chunk st f
  | .fails => failAct st f

/-- `remember` starts with the lookup of its external id, `forget` with that of
its document. -/
def entry : Stage τ κ → Bool
  | .lookup _ => true
  | .find _ => true
  | _ => false

def writing : Stage τ κ → Bool
  | .process _ _ _ => true
  | .mirrorWindow _ _ _ _ => true
  | .complete _ _ => true
  | .wipeNodes _ _ => true
  | .write _ _ => true
  | .mirror _ _ => true
  | .commit _ _ => true
  | .relink _ _ => true
  | .markFailed _ _ => true
  | .dropRow _ => true
  | _ => false

def protocol : Calls.Protocol (Stores τ κ) (Stage τ κ) Outcome where
  entry := entry
  act := act chunk maxChunksInFlight
  writing := writing

end Act

section Property

variable {τ κ : Type*} (chunk : τ → List κ)

/-- What the stores hold once a call returned: one row and exactly the chunks
of its content, or nothing at all. -/
def Exact (st : Stores τ κ) : Option Result → Prop
  | some .remembered | some .duplicate =>
    ∃ d, st.documents = [d] ∧ st.chunks = rowsOf d.id (chunk d.content)
  | some .forgotten => st.documents = [] ∧ st.chunks = []
  | _ => True

def Settled (f : Stage τ κ) : Prop := ∃ r, f = .settled r

def ExactWhenSettled (w : Calls.World (Stores τ κ) (Stage τ κ)) : Prop :=
  (∀ f ∈ w.calls, Settled f) → Exact chunk w.store w.store.last

/-- What the call read before still holds: no row that carries the content has
appeared since the lookup found none, and the row to be replaced is there. -/
def current [DecidableEq τ] (f : Stage τ κ) (o : Outcome) (st : Stores τ κ) : Prop :=
  match f, o with
  | .checksum content, .ok _ =>
    st.documents.find? (fun d => d.content = content ∧ d.status ≠ .failed) = none
  | .wipe existing _, _ => hasDocument existing st = true
  | _, _ => True

instance [DecidableEq τ] (f : Stage τ κ) (o : Outcome) (st : Stores τ κ) :
    Decidable (current f o st) := by
  unfold current
  split <;> infer_instance

end Property

end Uru.Ingest.Replace
