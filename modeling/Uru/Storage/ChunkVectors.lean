import Uru.Storage.Rows

/-!
# Chunks in SQLite and their vectors in Lance

Two adapters keep the rows of chunks in SQLite and their vectors in a Lance
table. A batch is inserted and committed before its vectors are added, and
rows are deleted and committed before their vectors are. An operation can be
cut at each of its awaits, by an exception or by a crash of the process.
-/

set_option autoImplicit false

namespace Uru.Storage.ChunkVectors

/-- The id is the caller's, or the one the first attempt has drawn. -/
structure Chunk where
  id : UUID
  namespaceId : UUID
  documentId : UUID
  content : String
  embedding : List ℚ
  deriving DecidableEq, Repr

structure Vector where
  id : UUID
  namespaceId : UUID
  documentId : UUID
  vector : List ℚ
  deriving DecidableEq, Repr

def Chunk.row (c : Chunk) : Vector :=
  { id := c.id, namespaceId := c.namespaceId, documentId := c.documentId, vector := c.embedding }

/-- The two adapters differ in the predicate of the Lance delete and in whether
the opening of the Lance table is inside the guard. -/
inductive Adapter where
  | temporal
  | vector
  deriving DecidableEq, Repr

/-- How a call ends. A failure of SQLite comes after some of the rows of the
statement, or at the commit when all of them are written. -/
inductive Outcome where
  | ok
  | sqliteFails (written : ℕ)
  | crashBeforeCommit
  | crashAfterCommit
  | openFails
  | lanceFails
  deriving DecidableEq, Repr

/-- `rows` is what the connection sees, `committed` what a crash leaves.
`created` are the committed chunks whose creation has returned, `deleted` the
documents whose deletion has returned and of which no creation has begun
since. -/
structure Store where
  rows : List Chunk
  committed : List Chunk
  vectors : List Vector
  created : List Chunk
  deleted : List (UUID × UUID)
  deriving DecidableEq, Repr

def empty : Store where
  rows := []
  committed := []
  vectors := []
  created := []
  deleted := []

def Store.crash (s : Store) : Store := { s with rows := s.committed }

def Store.commit (s : Store) : Store :=
  { s with committed := s.rows, created := s.created.filter (fun c => c ∈ s.rows) }

/-- The rows of one `executemany`, up to the first whose key is taken. -/
def insertable (rows : List Chunk) : List Chunk → List Chunk
  | [] => []
  | c::cs => if c.id ∈ rows.map Chunk.id then [] else c::insertable (rows++[c]) cs

local instance lawful_pairs : LawfulBEq (UUID × UUID) := inferInstance

def Store.beginCreate (s : Store) (batch : List Chunk) : Store :=
  { s with
    deleted := s.deleted.filter (fun p => p ∉ batch.map (fun c => (c.documentId,c.namespaceId))) }

def Store.insert (s : Store) (cs : List Chunk) : Store := { s with rows := s.rows++cs }

def Store.add (s : Store) (vs : List Vector) : Store := { s with vectors := s.vectors++vs }

def Store.returnCreate (s : Store) (batch : List Chunk) : Store :=
  { s with created := batch++s.created }

def lanceRows (batch : List Chunk) : List Vector :=
  (batch.filter (fun c => c.embedding ≠ [])).map Chunk.row

def createChunksBatch (s : Store) (batch : List Chunk) (outcome : Outcome) : Store :=
  let s := s.beginCreate batch
  let inserted := insertable s.rows batch
  if batch = [] then s
  else if outcome = .crashBeforeCommit then s.crash
  else if inserted ≠ batch then s.insert inserted
  else
    match outcome with
    | .sqliteFails k => s.insert (batch.take k)
    | .crashBeforeCommit => s.crash
    | .crashAfterCommit => (s.insert batch).commit
    | .ok => ((s.insert batch).commit.add (lanceRows batch)).returnCreate batch
    | .openFails | .lanceFails =>
      if lanceRows batch = [] then (s.insert batch).commit.returnCreate batch
      else (s.insert batch).commit

def Store.delete (s : Store) (selected : Chunk → Bool) : Store :=
  { s with rows := s.rows.filter (fun c => !selected c) }

def Store.drop (s : Store) (doomed : Vector → Bool) : Store :=
  { s with vectors := s.vectors.filter (fun v => !doomed v) }

/-- What the deletions share. The Lance delete runs when rows were found; its
failure is logged and the call returns. -/
def deleteWhere (A : Adapter) (s : Store) (selected : Chunk → Bool) (doomed : Vector → Bool)
    (returned : Store → Store) (outcome : Outcome) : Store :=
  let found := s.rows.any selected
  match outcome with
  | .sqliteFails k => if k = 0 then s else s.delete selected
  | .crashBeforeCommit => s.crash
  | .crashAfterCommit => (s.delete selected).commit
  | .ok =>
    if found then returned ((s.delete selected).commit.drop doomed)
    else returned (s.delete selected).commit
  | .openFails =>
    if found ∧ A = .temporal then (s.delete selected).commit
    else returned (s.delete selected).commit
  | .lanceFails => returned (s.delete selected).commit

def Store.returnDelete (d ns : UUID) (s : Store) : Store :=
  { s with deleted := (d,ns)::s.deleted }

def deleteChunk (A : Adapter) (s : Store) (id ns : UUID) (outcome : Outcome) : Store :=
  deleteWhere A s (fun c => c.id = id ∧ c.namespaceId = ns) (fun v => v.id = id) (fun t => t)
    outcome

def deleteChunksByDocument (A : Adapter) (s : Store) (d ns : UUID) (outcome : Outcome) : Store :=
  deleteWhere A s (fun c => c.documentId = d ∧ c.namespaceId = ns)
    (fun v => v.documentId = d ∧ (A = .vector → v.namespaceId = ns))
    (Store.returnDelete d ns) outcome

inductive Call where
  | create (batch : List Chunk)
  | deleteChunk (id ns : UUID)
  | deleteDocument (d ns : UUID)
  deriving DecidableEq, Repr

def step (A : Adapter) (s : Store) (e : Call × Outcome) : Option Store :=
  match e.1 with
  | .create batch => some (createChunksBatch s batch e.2)
  | .deleteChunk id ns => some (deleteChunk A s id ns e.2)
  | .deleteDocument d ns => some (deleteChunksByDocument A s d ns e.2)

end Uru.Storage.ChunkVectors
