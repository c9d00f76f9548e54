import Mathlib.Data.List.Basic
import Mathlib.Data.List.Nodup
import Mathlib.Data.List.Perm.Basic
import Mathlib.Tactic

/-!
# Staging a batch of documents

A batch is staged against the rows of one namespace: the inputs of one
identity share the document of the first of them, one lookup by checksum
decides which identities are already there, and the others are created, in
any order. What was staged is handed to processing, and the summary counts
what came of the inputs.
-/

set_option autoImplicit false

namespace Uru.Ingest

abbrev UUID := ℕ

inductive DocumentStatus where
  | pending
  | processing
  | completed
  | failed
  | archived
  deriving DecidableEq, Repr

structure Document where
  id : UUID
  content : String
  externalId : Option String
  status : DocumentStatus
  checksum : Option String
  sessionId : Option UUID
  deriving DecidableEq, Repr

/-- What a caller's metadata may hold under `session_id`. -/
inductive SessionValue where
  | none
  | uuid (u : UUID)
  | text (s : String)
  | other (printed : String)
  deriving DecidableEq, Repr

structure DocInput where
  content : String
  externalId : Option String
  session : SessionValue
  deriving DecidableEq, Repr

structure Identity where
  checksum : String
  externalId : Option String
  sessionId : Option UUID
  deriving DecidableEq, Repr

structure Host where
  sha256 : String → String
  parse : String → Option UUID

def Host.coerceSessionId (h : Host) : SessionValue → Option UUID
  | .none => Option.none
  | .uuid u => some u
  | .text s => if s = "" then Option.none else h.parse s
  | .other s => h.parse s

def Host.identityKey (h : Host) (d : DocInput) : Identity :=
  { checksum := h.sha256 d.content
    externalId := d.externalId
    sessionId := h.coerceSessionId d.session }

def checksumDedupApplies (existing : Document) (externalId : Option String)
    (sessionId : Option UUID) : Bool :=
  if externalId ≠ none ∧ existing.externalId ≠ externalId then false
  else if sessionId ≠ none ∧ existing.sessionId ≠ sessionId then false
  else true

/-- `uuid4` never answers an id that is in use. -/
structure Store where
  documents : List Document
  next : UUID
  fresh : ∀ d ∈ documents, d.id < next

def Store.taken (s : Store) (externalId : Option String) : Bool :=
  externalId ≠ none ∧ externalId ∈ s.documents.map Document.externalId

def Host.newDocument (h : Host) (s : Store) (d : DocInput) : Document :=
  { id := s.next
    content := d.content
    externalId := d.externalId
    status := .pending
    checksum := some (h.sha256 d.content)
    sessionId := h.coerceSessionId d.session }

def Store.insert (s : Store) (d : Document) (hd : d.id = s.next) : Store where
  documents := s.documents++[d]
  next := s.next+1
  fresh := by
    intro e he
    rcases List.mem_append.mp he with he | he
    · exact Nat.lt_succ_of_lt (s.fresh e he)
    · rw [List.mem_singleton.mp he, hd]
      exact Nat.lt_succ_self _

def Host.createDocument (h : Host) (s : Store) (d : DocInput) : Option (Store × Document) :=
  if s.taken d.externalId then none
  else some (s.insert (h.newDocument s d) rfl, h.newDocument s d)

/-- The mapping is filled row by row: of two rows with one checksum the later
one stays. -/
def Store.getDocumentsByChecksums (s : Store) (checksums : List String) (c : String) :
    Option Document :=
  (s.documents.filter (fun d => d.status ≠ .failed ∧ ∃ c ∈ checksums, d.checksum = some c)).reverse.find?
    (fun d => d.checksum = some c)

def setStatus (status : DocumentStatus) (id : UUID) (d : Document) : Document :=
  if d.id = id then { d with status := status } else d

@[simp] theorem setStatus_id (status : DocumentStatus) (id : UUID) (d : Document) :
    (setStatus status id d).id = d.id := by
  unfold setStatus
  split <;> rfl

def Store.mark (s : Store) (id : UUID) (status : DocumentStatus) : Store where
  documents := s.documents.map (setStatus status id)
  next := s.next
  fresh := by
    intro e he
    obtain ⟨d, hd, rfl⟩ := List.mem_map.mp he
    rw [setStatus_id]
    exact s.fresh d hd

variable (h : Host)

def Host.canonical : List DocInput → List DocInput
  | [] => []
  | d::ds => d::(Host.canonical ds).filter (fun e => h.identityKey e ≠ h.identityKey d)

/-- The checks of `_create_one`: the row the lookup answers for the checksum
is of the input's own document. -/
def Host.unchanged (s : Store) (inputs : List DocInput) (d : DocInput) : Bool :=
  match s.getDocumentsByChecksums (inputs.map (fun e => h.sha256 e.content))
      (h.sha256 d.content) with
  | some existing =>
      checksumDedupApplies existing d.externalId (h.coerceSessionId d.session)
  | none => false

def Host.toCreate (s : Store) (inputs : List DocInput) : List DocInput :=
  (h.canonical inputs).filter (fun d => !h.unchanged s inputs d)

/-- The creations, in the order in which they reach the database. One that
raises does not stop the others, and raises out of the gather. -/
def Host.createAll : Store → List DocInput → Store × Option (List (Identity × Document))
  | s, [] => (s, some [])
  | s, d::ds =>
    match h.createDocument s d with
    | none => ((Host.createAll s ds).1, none)
    | some (t, doc) =>
      let rest := Host.createAll t ds
      (rest.1, rest.2.map (fun created => (h.identityKey d, doc)::created))

/-- `order` is the order in which the creations complete. -/
def Host.stageDocumentsBatch (order : List DocInput) (s : Store) (inputs : List DocInput) :
    Store × Option (List (Option Document)) :=
  let staged := h.createAll s order
  (staged.1, staged.2.map (fun created =>
    inputs.map (fun d => created.lookup (h.identityKey d))))

structure Summary where
  totalDocuments : ℕ
  processedDocuments : ℕ
  skippedDocuments : ℕ
  failedDocuments : ℕ
  deriving DecidableEq, Repr

structure Report where
  handed : List Document
  summary : Summary
  deriving DecidableEq, Repr

/-- `fails i` says that the processing of the i-th document handed over raises. -/
def Host.ingestDocuments (order : List DocInput) (fails : ℕ → Bool) (s : Store)
    (inputs : List DocInput) : Store × Option Report :=
  match h.stageDocumentsBatch order s inputs with
  | (t, none) => (t, none)
  | (t, some stagedResults) =>
    let stagedDocs := stagedResults.filterMap id
    let outcomes := stagedDocs.zipIdx.map (fun p => (p.1.id, fails p.2))
    (outcomes.foldl (fun u o => u.mark o.1 (if o.2 then .failed else .completed)) t,
      some
        { handed := stagedDocs
          summary :=
            { totalDocuments := inputs.length
              processedDocuments := (outcomes.filter (fun o => !o.2)).length
              skippedDocuments := inputs.length-stagedDocs.length
              failedDocuments := (outcomes.filter (fun o => o.2)).length } })

end Uru.Ingest
