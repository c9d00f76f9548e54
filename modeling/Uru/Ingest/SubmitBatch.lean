import Uru.Lib.Machine
import Uru.Lib.Pool
import Uru.Ingest.Staging

/-!
# Deferred batches and their processor

`submit_batch` persists its documents, registers the batch and puts them on the
queue of the pending processor; a recovery scan claims stale rows and puts them
there too. Workers re-load each document, wait for a slot of its batch, clear
what an earlier attempt left, process it and report to the batch. Every await is
a step of its own, and each may fail.
-/

set_option autoImplicit false

namespace Uru.Ingest.SubmitBatch

open Uru.Lib

inductive Status where
  | pending
  | processing
  | completed
  | failed
  | archived
  deriving DecidableEq, Repr

structure Document (ξ τ : Type*) where
  id : UUID
  externalId : Option ξ
  content : τ
  status : Status
  maxChunksInFlight : Option ℕ+
  deriving DecidableEq, Repr

structure TemporalChunk (κ : Type*) where
  documentId : UUID
  content : κ
  taking : ℕ
  deriving DecidableEq, Repr

/-- `takings` counts the times a document was taken through processing;
`finished` are the documents for which that came to its end. -/
structure Store (ξ τ κ : Type*) where
  documents : List (Document ξ τ)
  chunks : List (TemporalChunk κ)
  takings : ℕ
  finished : List UUID

inductive Outcome where
  | ok
  | partly
  | fails
  deriving DecidableEq, Repr

structure DocumentResult (ξ : Type*) where
  documentId : UUID
  success : Bool
  skipped : Bool
  externalId : Option ξ
  deriving DecidableEq, Repr

section Registration

variable {ξ : Type*}

/-- `documents` are the documents the batch counts, `delivered` the calls of
`on_result` so far. -/
structure Registration (ξ : Type*) where
  total : ℕ
  completed : ℕ
  failed : ℕ
  remaining : ℤ
  done : Bool
  preFailedDocIds : List UUID
  maxConcurrent : ℕ+
  documents : List UUID
  delivered : List (ℕ × ℕ × DocumentResult ξ)

/-- What the callback raises is logged and dropped. -/
def Registration.fireResult (b : Registration ξ) (result : DocumentResult ξ) : Registration ξ :=
  { b with
    completed := b.completed+1
    failed := if result.success then b.failed else b.failed+1
    delivered := b.delivered++[(b.completed+1, b.total, result)]
    remaining := b.remaining-1
    done := b.done || decide (b.remaining-1 ≤ 0) }

def Registration.markDone (b : Registration ξ) : Registration ξ := { b with done := true }

end Registration

structure Item where
  docId : UUID
  batchReg : Option ℕ
  deriving DecidableEq, Repr

/-- A document loaded for an item carries the id of the item. -/
structure Held (ξ τ : Type*) where
  item : Item
  doc : Document ξ τ
  same : doc.id = item.docId
  deriving DecidableEq

inductive Worker (ξ τ κ : Type*) where
  | idle
  | loading (item : Item)
  | waiting (h : Held ξ τ)
  | clearing (h : Held ξ τ)
  | preparing (h : Held ξ τ)
  | writing (h : Held ξ τ) (taking : ℕ) (rest : List κ)
  | completing (h : Held ξ τ) (taking : ℕ)
  | marking (h : Held ξ τ)
  | abandoning (h : Held ξ τ)
  deriving DecidableEq

section Work

variable {ξ τ κ : Type*}

def itemOf : Worker ξ τ κ → Option Item
  | .idle => none
  | .loading it => some it
  | .waiting h | .clearing h | .preparing h | .writing h _ _ | .completing h _ | .marking h
  | .abandoning h => some h.item

def slotOf : Worker ξ τ κ → Option ℕ
  | .clearing h | .preparing h | .writing h _ _ | .completing h _ | .marking h => h.item.batchReg
  | _ => none

def getDocument (id : UUID) (st : Store ξ τ κ) : Option { d : Document ξ τ // d.id = id } :=
  match h : st.documents.find? (fun d => d.id = id) with
  | some d => some ⟨d, by simpa using List.find?_some h⟩
  | none => none

def updateDocument (document : Document ξ τ) (st : Store ξ τ κ) : Store ξ τ κ :=
  { st with
    documents := st.documents.map (fun d => if d.id = document.id then document else d) }

def deleteChunksByDocument (id : UUID) (st : Store ξ τ κ) : Store ξ τ κ :=
  { st with chunks := st.chunks.filter (fun c => c.documentId ≠ id) }

def createChunksBatch (id : UUID) (taking : ℕ) (texts : List κ) (st : Store ξ τ κ) :
    Store ξ τ κ :=
  { st with chunks := st.chunks++texts.map (fun x => ⟨id, x, taking⟩) }

abbrev Work (ξ τ κ : Type*) := Store ξ τ κ × Worker ξ τ κ × Option (DocumentResult ξ)

def goOn (st : Store ξ τ κ) (w : Worker ξ τ κ) : Option (Work ξ τ κ) := some (st, w, none)

def report (st : Store ξ τ κ) (it : Item) (success skipped : Bool) (externalId : Option ξ) :
    Option (Work ξ τ κ) :=
  some (st, .idle, it.batchReg.map (fun _ => ⟨it.docId, success, skipped, externalId⟩))

/-- A document that cannot be loaded is reported as failed, one that is gone as
skipped. -/
def load (it : Item) (o : Outcome) (st : Store ξ τ κ) : Option (Work ξ τ κ) :=
  match o with
  | .ok =>
    match getDocument it.docId st with
    | some d => goOn st (.waiting ⟨it, d.1, d.2⟩)
    | none => report st it true true none
  | .fails => report st it false false none
  | .partly => none

/-- The slot is acquired. Without an engine that processes staged documents a
batch item fails and an orphan is skipped. -/
def enter (staged : Bool) (preFailedDocIds : List UUID) (h : Held ξ τ) (o : Outcome)
    (st : Store ξ τ κ) : Option (Work ξ τ κ) :=
  match o with
  | .ok =>
    if staged then
      if h.doc.id ∈ preFailedDocIds then goOn st (.clearing h) else goOn st (.preparing h)
    else if h.item.batchReg.isSome then goOn st (.marking h)
    else report st h.item false false h.doc.externalId
  | _ => none

/-- Clearing is best effort. -/
def clear (h : Held ξ τ) (o : Outcome) (st : Store ξ τ κ) : Option (Work ξ τ κ) :=
  match o with
  | .ok => goOn (deleteChunksByDocument h.doc.id st) (.preparing h)
  | .fails => goOn st (.preparing h)
  | .partly => none

def nextWindow (h : Held ξ τ) (taking : ℕ) (rest : List κ) : Worker ξ τ κ :=
  if rest.isEmpty then .completing h taking else .writing h taking rest

/-- The document is chunked, or that fails. A fault before the engine is called
reaches the handler of the worker, outside the semaphore. -/
def prepare (chunk : τ → List κ) (h : Held ξ τ) (o : Outcome) (st : Store ξ τ κ) :
    Option (Work ξ τ κ) :=
  match o with
  | .ok =>
    goOn { st with takings := st.takings+1 } (nextWindow h st.takings (chunk h.doc.content))
  | .fails => goOn st (.marking h)
  | .partly =>
    if h.item.batchReg.isSome then goOn st (.abandoning h)
    else report st h.item false false h.doc.externalId

def windowSize (maxChunksInFlight : Option ℕ+) (document : Document ξ τ) (rest : List κ) : ℕ :=
  match document.maxChunksInFlight <|> maxChunksInFlight with
  | none => rest.length
  | some n => n

def write (maxChunksInFlight : Option ℕ+) (h : Held ξ τ) (taking : ℕ) (rest : List κ)
    (o : Outcome) (st : Store ξ τ κ) : Option (Work ξ τ κ) :=
  let n := windowSize maxChunksInFlight h.doc rest
  let st' := createChunksBatch h.doc.id taking (rest.take n) st
  match o with
  | .ok => goOn st' (nextWindow h taking (rest.drop n))
  | .partly => goOn st' (.marking h)
  | .fails => goOn st (.marking h)

def complete (h : Held ξ τ) (o : Outcome) (st : Store ξ τ κ) : Option (Work ξ τ κ) :=
  match o with
  | .ok =>
    let st' := updateDocument { h.doc with status := .completed } st
    report { st' with finished := st'.finished++[h.doc.id] } h.item true false h.doc.externalId
  | .fails => goOn st (.marking h)
  | .partly => none

def markFailed (h : Held ξ τ) (o : Outcome) (st : Store ξ τ κ) : Option (Work ξ τ κ) :=
  match o with
  | .ok =>
    report (updateDocument { h.doc with status := .failed } st) h.item false false
      h.doc.externalId
  | .fails => report st h.item false false h.doc.externalId
  | .partly => none

variable (staged : Bool) (chunk : τ → List κ) (maxChunksInFlight : Option ℕ+)

def work (preFailedDocIds : List UUID) (o : Outcome) (st : Store ξ τ κ) :
    Worker ξ τ κ → Option (Work ξ τ κ)
  | .idle => none
  | .loading it => load it o st
  | .waiting h => enter staged preFailedDocIds h o st
  | .clearing h => clear h o st
  | .preparing h => prepare chunk h o st
  | .writing h taking rest => write maxChunksInFlight h taking rest o st
  | .completing h _ => complete h o st
  | .marking h | .abandoning h => markFailed h o st

end Work

section Submit

variable {ξ τ κ : Type*} [DecidableEq ξ]

structure Input (ξ τ : Type*) where
  externalId : Option ξ
  content : τ

structure Call (ξ τ : Type*) where
  documents : List (Input ξ τ)
  reprocessArchived : Bool
  maxConcurrent : ℕ+
  maxChunksInFlight : Option ℕ+

structure Gathered (ξ τ : Type*) where
  existing : List (Document ξ τ)
  seen : List ξ
  rest : List (Input ξ τ)
  pending : List UUID
  preFailed : List (DocumentResult ξ)
  preCompleted : List (DocumentResult ξ)
  preFailedDocIds : List UUID

/-- Where a call of `submit_batch` stands: it awaits the lookup, the update of
an existing row or the creation of a new one, or is ready to register. -/
inductive Submission (ξ τ : Type*) where
  | lookingUp (call : Call ξ τ)
  | updating (call : Call ξ τ) (document : Document ξ τ) (g : Gathered ξ τ)
  | creating (call : Call ξ τ) (input : Input ξ τ) (g : Gathered ξ τ)
  | registering (call : Call ξ τ) (g : Gathered ξ τ)
  | returned

def noDocuments : Gathered ξ τ where
  existing := []
  seen := []
  rest := []
  pending := []
  preFailed := []
  preCompleted := []
  preFailedDocIds := []

/-- The row as it is persisted for another attempt. -/
def resubmitted (call : Call ξ τ) (input : Input ξ τ) (document : Document ξ τ) : Document ξ τ :=
  { document with
    content := input.content
    status := .pending
    maxChunksInFlight := call.maxChunksInFlight }

def Gathered.skip (g : Gathered ξ τ) (d : Document ξ τ) : Gathered ξ τ :=
  { g with preCompleted := g.preCompleted++[⟨d.id, true, true, d.externalId⟩] }

def Gathered.heal (g : Gathered ξ τ) (d : Document ξ τ) : Gathered ξ τ :=
  { g with preFailedDocIds := g.preFailedDocIds++[d.id] }

def visit (call : Call ξ τ) : Gathered ξ τ → List (Input ξ τ) → Submission ξ τ
  | g, [] => .registering call { g with rest := [] }
  | g, input::rest =>
    match input.externalId with
    | none => .creating call input { g with rest := rest }
    | some x =>
      if x ∈ g.seen then visit call g rest
      else
        let g := { g with seen := g.seen++[x] }
        match g.existing.find? (fun d => d.externalId = some x) with
        | none => .creating call input { g with rest := rest }
        | some d =>
          let again := resubmitted call input d
          match d.status with
          | .completed | .processing => visit call (g.skip d) rest
          | .archived =>
            if call.reprocessArchived then
              .updating call again { g.heal d with rest := rest }
            else visit call (g.skip d) rest
          | .failed => .updating call again { g.heal d with rest := rest }
          | .pending => .updating call again { g with rest := rest }

def getDocumentsByExternalIds (inputs : List (Input ξ τ)) (st : Store ξ τ κ) :
    List (Document ξ τ) :=
  st.documents.filter (fun d => d.externalId.isSome ∧ d.externalId ∈ inputs.map Input.externalId)

/-- A row with the external id of another is refused. -/
def createDocument (document : Document ξ τ) (st : Store ξ τ κ) : Option (Store ξ τ κ) :=
  if document.externalId.isSome ∧
      st.documents.any (fun d => d.externalId = document.externalId) then none
  else some { st with documents := st.documents++[document] }

def Gathered.enlist (g : Gathered ξ τ) (d : Document ξ τ) : Gathered ξ τ :=
  { g with pending := g.pending++[d.id] }

def Gathered.refuse (g : Gathered ξ τ) (d : Document ξ τ) : Gathered ξ τ :=
  { g with preFailed := g.preFailed++[⟨d.id, false, false, d.externalId⟩] }

def newDocument (call : Call ξ τ) (input : Input ξ τ) (newId : UUID) : Document ξ τ where
  id := newId
  externalId := input.externalId
  content := input.content
  status := .pending
  maxChunksInFlight := call.maxChunksInFlight

/-- A call of `submit_batch` from one await to the next. A failed lookup treats
all documents as new. -/
def resume (newId : UUID) (ok : Bool) (st : Store ξ τ κ) :
    Submission ξ τ → Option (Store ξ τ κ × Submission ξ τ)
  | .lookingUp call =>
    let existing := if ok then getDocumentsByExternalIds call.documents st else []
    some (st, visit call { noDocuments with existing := existing } call.documents)
  | .updating call document g =>
    if ok then some (updateDocument document st, visit call (g.enlist document) g.rest)
    else some (st, visit call (g.refuse document) g.rest)
  | .creating call input g =>
    let document := newDocument call input newId
    match if ok then createDocument document st else none with
    | some st' => some (st', visit call (g.enlist document) g.rest)
    | none => some (st, visit call (g.refuse document) g.rest)
  | .registering _ _ => none
  | .returned => none

/-- The registration counts all documents and at once reports those that were
not persisted and those that are skipped. -/
def registration (call : Call ξ τ) (g : Gathered ξ τ) : Registration ξ :=
  let reports := g.preFailed++g.preCompleted
  let total := g.pending.length+reports.length
  let b : Registration ξ :=
    { total := total
      completed := 0
      failed := 0
      remaining := total
      done := false
      preFailedDocIds := g.preFailedDocIds
      maxConcurrent := call.maxConcurrent
      documents := g.pending++reports.map DocumentResult.documentId
      delivered := [] }
  if total = 0 then b.markDone else reports.foldl Registration.fireResult b

end Submit

section System

variable {ξ τ κ : Type*} [DecidableEq ξ]

structure Processor (ξ τ κ : Type*) where
  store : Store ξ τ κ
  pool : Pool Item (Worker ξ τ κ)
  batches : List (Registration ξ)
  calls : List (Submission ξ τ)

/-- Calls and scans resume, pages of claimed documents reach the queue, workers
take items and go on; any other call may forget a document. -/
inductive Event (ξ τ : Type*) where
  | submit (call : Call ξ τ)
  | resume (i : ℕ) (newId : UUID) (ok : Bool)
  | claim (stale : List UUID)
  | enqueue (page : ℕ)
  | take (w : ℕ)
  | advance (w : ℕ) (o : Outcome)
  | forget (id : UUID)

def orphaned (stale : List UUID) (st : Store ξ τ κ) : List (Document ξ τ) :=
  st.documents.filter
    (fun d => d.id ∈ stale ∧ (d.status = .pending ∨ d.status = .processing))

def claimOrphanedDocuments (stale : List UUID) (st : Store ξ τ κ) : Store ξ τ κ :=
  { st with
    documents := st.documents.map (fun d =>
      if d.id ∈ stale ∧ (d.status = .pending ∨ d.status = .processing) then
        { d with status := .processing }
      else d) }

def orphanItems (stale : List UUID) (st : Store ξ τ κ) : List Item :=
  (orphaned stale st).map (fun d => ⟨d.id, none⟩)

def batchItems (b : ℕ) (g : Gathered ξ τ) : List Item := g.pending.map (fun id => ⟨id, some b⟩)

def forgetDocument (id : UUID) (st : Store ξ τ κ) : Store ξ τ κ :=
  { st with
    documents := st.documents.filter (fun d => d.id ≠ id)
    chunks := st.chunks.filter (fun c => c.documentId ≠ id) }

def register (call : Call ξ τ) (g : Gathered ξ τ) (s : Processor ξ τ κ) : Processor ξ τ κ :=
  { s with
    pool := s.pool.put (batchItems s.batches.length g)
    batches := s.batches++[registration call g] }

def arrive (i : ℕ) (sub : Submission ξ τ) (s : Processor ξ τ κ) : Processor ξ τ κ :=
  match sub with
  | .registering call g => { register call g s with calls := s.calls.set i .returned }
  | _ => { s with calls := s.calls.set i sub }

def preFailedDocIds (batches : List (Registration ξ)) (it : Item) : List UUID :=
  match it.batchReg.bind (fun b => batches[b]?) with
  | some reg => reg.preFailedDocIds
  | none => []

def fire (batches : List (Registration ξ)) (it : Item) (result : DocumentResult ξ) :
    List (Registration ξ) :=
  match it.batchReg with
  | some b => batches.modify b (fun reg => reg.fireResult result)
  | none => batches

def slotFree (s : Processor ξ τ κ) : Worker ξ τ κ → Bool
  | .waiting h =>
    match h.item.batchReg.bind (fun b => s.batches[b]?.map (fun reg => (b, reg))) with
    | some (b, reg) => s.pool.workers.countP (fun w => slotOf w = some b) < reg.maxConcurrent
    | none => true
  | _ => true

variable (staged : Bool) (chunk : τ → List κ) (maxChunksInFlight : Option ℕ+)

def advance (i : ℕ) (w : Worker ξ τ κ) (o : Outcome) (s : Processor ξ τ κ) :
    Option (Processor ξ τ κ) :=
  match itemOf w with
  | none => none
  | some it =>
    if slotFree s w then
      (work staged chunk maxChunksInFlight (preFailedDocIds s.batches it) o s.store w).map
        (fun r =>
          { s with
            store := r.1
            pool := s.pool.set i r.2.1
            batches := match r.2.2 with
              | some result => fire s.batches it result
              | none => s.batches })
    else none

def step (s : Processor ξ τ κ) : Event ξ τ → Option (Processor ξ τ κ)
  | .submit call =>
    if call.documents.isEmpty then some (register call noDocuments s)
    else some { s with calls := s.calls++[.lookingUp call] }
  | .resume i newId ok =>
    s.calls[i]?.bind (fun sub => (resume newId ok s.store sub).map (fun r =>
      arrive i r.2 { s with store := r.1 }))
  | .claim stale =>
    some
      { s with
        store := claimOrphanedDocuments stale s.store
        pool := s.pool.page (orphanItems stale s.store) }
  | .enqueue page => (s.pool.release page).map (fun pool => { s with pool := pool })
  | .take i =>
    match s.pool.workers[i]? with
    | some .idle => (s.pool.take i .loading).map (fun pool => { s with pool := pool })
    | _ => none
  | .advance i o =>
    s.pool.workers[i]?.bind (fun w => advance staged chunk maxChunksInFlight i w o s)
  | .forget id => some { s with store := forgetDocument id s.store }

end System

end Uru.Ingest.SubmitBatch
