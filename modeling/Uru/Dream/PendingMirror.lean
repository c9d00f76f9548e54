import Uru.Dream.GraphMirror
import Uru.Lib.Machine

/-!
# Mirroring after the commit

An operation commits its rows, its checkpoint and, for most operations, a
pending entry in one transaction; the graph is written afterwards and the entry
removed once that succeeded. A later run replays the entries it finds before it
starts its own loop. A backend that lives in the same database takes the write
inside the transaction and queues nothing.
-/

set_option autoImplicit false

namespace Uru.Dream.Pending

open Uru.Storage Uru.Lib

section Targets

inductive OpKind where
  | dedupeEntities
  | pruneEdges
  | contradictionReconcile
  | communitySummary
  | normalizeSchema
  | centroidRecompute
  | sourceChunkIdsGc
  | contradictionDetect
  deriving DecidableEq, Repr

structure CommunityBefore where
  communityId : UUID
  summaryText : String
  memberIds : List UUID
  summaryDepth : ℕ
  deriving DecidableEq, Repr

inductive UndoBefore where
  | rows (before : Before)
  | community (before : CommunityBefore)
  | renames
  deriving DecidableEq, Repr

structure UndoRecord where
  opId : UUID
  before : UndoBefore
  appliedAt : Time
  deriving DecidableEq, Repr

structure Mirror where
  targets : MirrorTargets
  communities : List CommunityNode
  deriving DecidableEq, Repr

def undoTargets : OpKind → UndoBefore → MirrorTargets
  | .pruneEdges, .rows (.relationships rows) => extractMirrorTargets (.relationships rows)
  | .contradictionReconcile, .rows (.relationships rows) =>
    extractMirrorTargets (.relationships rows)
  | .dedupeEntities, .rows (.merges ms) => extractMirrorTargets (.merges ms)
  | _, _ => extractMirrorTargets .noop

/-- `int(depth or 1)`. -/
def depthOrOne (depth : ℕ) : ℕ := if depth = 0 then 1 else depth

def extractCommunityTargets : OpKind → UndoBefore → List CommunityNode
  | .communitySummary, .community b =>
    [{ id := b.communityId
       summary := b.summaryText
       memberIds := b.memberIds
       summaryDepth := depthOrOne b.summaryDepth }]
  | _, _ => []

def mirrorOf (opType : OpKind) (before : UndoBefore) : Mirror where
  targets := undoTargets opType before
  communities := extractCommunityTargets opType before

/-- `_mirror_dream_op` finds nothing to do: none of the four lists has an
entry. -/
def Mirror.Empty (m : Mirror) : Prop :=
  m.targets.retireEntityIds = [] ∧ m.targets.invalidateRelationshipIds = [] ∧
    m.targets.rewriteRelationships = [] ∧ m.communities = []

instance (m : Mirror) : Decidable m.Empty := inferInstanceAs (Decidable (_ ∧ _))

structure Payload where
  retireEntityIds : List UUID
  invalidateRelationshipIds : List UUID
  rewriteRelationships : List Rewrite
  communities : List CommunityNode
  appliedAt : Time
  deriving DecidableEq, Repr

def mirrorPayload (opType : OpKind) (undo : UndoRecord) : Payload where
  retireEntityIds := (undoTargets opType undo.before).retireEntityIds
  invalidateRelationshipIds := (undoTargets opType undo.before).invalidateRelationshipIds
  rewriteRelationships := (undoTargets opType undo.before).rewriteRelationships
  communities := extractCommunityTargets opType undo.before
  appliedAt := undo.appliedAt

def targetsFromPayload (payload : Payload) : MirrorTargets where
  retireEntityIds := payload.retireEntityIds
  invalidateRelationshipIds := payload.invalidateRelationshipIds
  rewriteRelationships := payload.rewriteRelationships

def communitiesFromPayload (payload : Payload) : List CommunityNode :=
  payload.communities.map (fun c => { c with summaryDepth := depthOrOne c.summaryDepth })

def mirrorFromPayload (payload : Payload) : Mirror where
  targets := targetsFromPayload payload
  communities := communitiesFromPayload payload

end Targets

section Backends

inductive GraphBackend where
  | none
  | sqliteLance
  | age
  | neo4j
  | memgraph
  | neptune
  deriving DecidableEq, Repr

def supportsDreamMirror : GraphBackend → List OpKind
  | .none => []
  | .sqliteLance => []
  | .age => [.pruneEdges, .contradictionReconcile]
  | .neo4j =>
    [.pruneEdges, .contradictionReconcile, .dedupeEntities, .normalizeSchema,
      .communitySummary]
  | .memgraph => [.pruneEdges, .contradictionReconcile, .dedupeEntities, .normalizeSchema]
  | .neptune => [.pruneEdges, .contradictionReconcile]

def mirrorableOpKinds : List OpKind :=
  [.pruneEdges, .dedupeEntities, .communitySummary, .contradictionReconcile]

def mirrors (b : GraphBackend) (opType : OpKind) : Bool :=
  opType ∈ supportsDreamMirror b && opType ∈ mirrorableOpKinds

/-- The operation has something for this backend's graph to take over. Where
the backend does not advertise the kind there is no mirror; the run reports the
operation as skipped. -/
def NeedsMirror (b : GraphBackend) (opType : OpKind) (before : UndoBefore) : Prop :=
  mirrors b opType = true ∧ ¬ (mirrorOf opType before).Empty

instance (b : GraphBackend) (opType : OpKind) (before : UndoBefore) :
    Decidable (NeedsMirror b opType before) :=
  inferInstanceAs (Decidable (_ ∧ _))

def mirrorInTransaction (b : GraphBackend) : Bool := b = .age

variable (sanitizeCypherLabel : String → String)

def mirrorRequests (m : Mirror) (stampAt : Time) : List (Graph → Graph) :=
  [rewriteRelationshipEndpointsBatch sanitizeCypherLabel m.targets.rewriteRelationships,
   softInvalidateRelationshipsBatch m.targets.invalidateRelationshipIds stampAt,
   softRetireEntitiesBatch m.targets.retireEntityIds stampAt "dream_consolidated",
   materializeCommunitiesBatch m.communities]

def mirrorPartly (m : Mirror) (stampAt : Time) (k : ℕ) (g : Graph) : Graph :=
  ((mirrorRequests sanitizeCypherLabel m stampAt).take k).foldl (fun g f => f g) g

end Backends

section RunStore

structure GraphMirrorPending where
  opSeq : ℕ
  opId : UUID
  opType : OpKind
  payload : Payload
  deriving DecidableEq, Repr

structure RunRow where
  runId : UUID
  lastCommittedOpSeq : ℤ
  graphMirrorPending : List GraphMirrorPending
  deriving DecidableEq, Repr

def updateRun (runId : UUID) (f : RunRow → RunRow) (runs : List RunRow) : List RunRow :=
  runs.map (fun r => if r.runId = runId then f r else r)

def mergePending (existing : List GraphMirrorPending) (entry : GraphMirrorPending) :
    List GraphMirrorPending :=
  (existing.filter (fun p => p.opSeq ≠ entry.opSeq)++[entry]).insertionSort
    (fun a b => a.opSeq ≤ b.opSeq)

def recordRun (runId : UUID) (runs : List RunRow) : List RunRow :=
  runs++[{ runId := runId
           lastCommittedOpSeq := -1
           graphMirrorPending := [] }]

def readLastCommitted (runId : UUID) (runs : List RunRow) : ℤ :=
  ((runs.find? (fun r => r.runId = runId)).map RunRow.lastCommittedOpSeq).getD (-1)

def setCheckpoint (opSeq : ℕ) (r : RunRow) : RunRow := { r with lastCommittedOpSeq := opSeq }

def addPending (entry : GraphMirrorPending) (r : RunRow) : RunRow :=
  { r with graphMirrorPending := mergePending r.graphMirrorPending entry }

def dropPending (opSeq : ℕ) (r : RunRow) : RunRow :=
  { r with graphMirrorPending := r.graphMirrorPending.filter (fun p => p.opSeq ≠ opSeq) }

def advanceCheckpoint (runId : UUID) (opSeq : ℕ) : List RunRow → List RunRow :=
  updateRun runId (setCheckpoint opSeq)

def markGraphMirrorPending (runId : UUID) (entry : GraphMirrorPending) :
    List RunRow → List RunRow :=
  updateRun runId (addPending entry)

def clearGraphMirrorPending (runId : UUID) (opSeq : ℕ) : List RunRow → List RunRow :=
  updateRun runId (dropPending opSeq)

def getOpenGraphMirrorPending (runs : List RunRow) : List (UUID × GraphMirrorPending) :=
  runs.flatMap (fun r => r.graphMirrorPending.map (fun p => (r.runId, p)))

end RunStore

section Step

structure CommittedOp where
  runId : UUID
  opSeq : ℕ
  opType : OpKind
  undo : UndoRecord
  deriving DecidableEq, Repr

def pendingOf (c : CommittedOp) : GraphMirrorPending where
  opSeq := c.opSeq
  opId := c.undo.opId
  opType := c.opType
  payload := mirrorPayload c.opType c.undo

inductive Stage where
  | opening (runId : UUID)
  | draining (runId : UUID) (rest : List (UUID × GraphMirrorPending))
  | replayed (runId : UUID) (entry : UUID × GraphMirrorPending)
      (rest : List (UUID × GraphMirrorPending))
  | looping (runId : UUID) (last : ℤ)
  | committed (c : CommittedOp)
  | failed (c : CommittedOp)
  | mirrored (c : CommittedOp)
  deriving DecidableEq, Repr

/-- The runs of a namespace, its graph and the process, if there is one; then
what is only observed: the committed operations, the mirrors that the graph
took in full, and the entries that were ever queued. -/
structure Stores where
  runs : List RunRow
  graph : Graph
  stage : Option Stage
  committed : List CommittedOp
  written : List (UUID × Mirror)
  marked : List (UUID × GraphMirrorPending)

inductive Event where
  | start (runId : UUID)
  | resume (runId : UUID)
  | readPending
  | readFails
  | replay
  | replayFails (k : ℕ)
  | clearReplayed
  | enterLoop
  | pass (opSeq : ℕ)
  | commit (opSeq : ℕ) (opType : OpKind) (undo : UndoRecord)
  | mirror
  | mirrorFails (k : ℕ)
  | queue
  | clear
  | finish
  | crash

variable (sanitizeCypherLabel : String → String) (b : GraphBackend)

def initial (g : Graph) : Stores where
  runs := []
  graph := g
  stage := none
  committed := []
  written := []
  marked := []

def moveTo (stage : Stage) (s : Stores) : Stores := { s with stage := some stage }

def hasRow (runId : UUID) (runs : List RunRow) : Bool := runs.any (fun r => r.runId = runId)

/-- Queueing is an `UPDATE` of the row of the run. -/
def queueOp (c : CommittedOp) (s : Stores) : Stores :=
  { s with
    runs := markGraphMirrorPending c.runId (pendingOf c) s.runs
    marked := s.marked++(if hasRow c.runId s.runs then [(c.runId, pendingOf c)] else []) }

/-- The entry is queued for entities to retire and edges to invalidate; edges
to move and communities are not looked at. -/
def preMarks (c : CommittedOp) : Bool :=
  mirrors b c.opType &&
    !((undoTargets c.opType c.undo.before).retireEntityIds.isEmpty &&
      (undoTargets c.opType c.undo.before).invalidateRelationshipIds.isEmpty)

def preMarkGraphMirrorPending (c : CommittedOp) (s : Stores) : Stores :=
  if preMarks b c then queueOp c s else s

def writeGraph (opId : UUID) (m : Mirror) (stampAt : Time) (s : Stores) : Stores :=
  { s with
    graph := applyMirrorTargets sanitizeCypherLabel m.targets m.communities stampAt s.graph
    written := s.written++[(opId, m)] }

/-- `_mirror_dream_op_in_tx`: only edges are invalidated. -/
def mirrorInTx (c : CommittedOp) (s : Stores) : Stores :=
  if mirrors b c.opType &&
      !(undoTargets c.opType c.undo.before).invalidateRelationshipIds.isEmpty then
    writeGraph sanitizeCypherLabel c.undo.opId
      { targets :=
          { retireEntityIds := []
            invalidateRelationshipIds :=
              (undoTargets c.opType c.undo.before).invalidateRelationshipIds
            rewriteRelationships := [] }
        communities := [] }
      c.undo.appliedAt s
  else s

def commitOp (c : CommittedOp) (s : Stores) : Stores :=
  let s :=
    { s with
      committed := s.committed++[c]
      runs := advanceCheckpoint c.runId c.opSeq s.runs }
  if mirrorInTransaction b then
    moveTo (.looping c.runId c.opSeq) (mirrorInTx sanitizeCypherLabel b c s)
  else moveTo (.committed c) (preMarkGraphMirrorPending b c s)

/-- One step of the process, from the start of a run to its end. Operation ids
are new. -/
def step (s : Stores) : Event → Option Stores
  | .start runId =>
    if s.stage = none ∧ hasRow runId s.runs = false then
      some (moveTo (.opening runId) { s with runs := recordRun runId s.runs })
    else none
  | .resume runId => if s.stage = none then some (moveTo (.opening runId) s) else none
  | .readPending =>
    match s.stage with
    | some (.opening runId) =>
      some (moveTo (.draining runId
        (if b = .none then [] else getOpenGraphMirrorPending s.runs)) s)
    | _ => none
  | .readFails =>
    match s.stage with
    | some (.opening runId) => some (moveTo (.draining runId []) s)
    | _ => none
  | .replay =>
    match s.stage with
    | some (.draining runId (p::rest)) =>
      some (moveTo (.replayed runId p rest)
        (writeGraph sanitizeCypherLabel p.2.opId (mirrorFromPayload p.2.payload)
          p.2.payload.appliedAt s))
    | _ => none
  | .replayFails k =>
    match s.stage with
    | some (.draining runId (p::rest)) =>
      some (moveTo (.draining runId rest)
        { s with
          graph := mirrorPartly sanitizeCypherLabel (mirrorFromPayload p.2.payload)
            p.2.payload.appliedAt k s.graph })
    | _ => none
  | .clearReplayed =>
    match s.stage with
    | some (.replayed runId p rest) =>
      some (moveTo (.draining runId rest)
        { s with runs := clearGraphMirrorPending p.1 p.2.opSeq s.runs })
    | _ => none
  | .enterLoop =>
    match s.stage with
    | some (.draining runId []) =>
      some (moveTo (.looping runId (readLastCommitted runId s.runs)) s)
    | _ => none
  | .pass opSeq =>
    match s.stage with
    | some (.looping runId last) =>
      if last < opSeq then
        some (moveTo (.looping runId opSeq)
          { s with runs := advanceCheckpoint runId opSeq s.runs })
      else none
    | _ => none
  | .commit opSeq opType undo =>
    match s.stage with
    | some (.looping runId last) =>
      if last < opSeq ∧ undo.opId ∉ s.committed.map (fun c => c.undo.opId) then
        some (commitOp sanitizeCypherLabel b ⟨runId, opSeq, opType, undo⟩ s)
      else none
    | _ => none
  | .mirror =>
    match s.stage with
    | some (.committed c) =>
      if NeedsMirror b c.opType c.undo.before then
        some (moveTo (.mirrored c)
          (writeGraph sanitizeCypherLabel c.undo.opId (mirrorOf c.opType c.undo.before)
            c.undo.appliedAt s))
      else some (moveTo (.looping c.runId c.opSeq) s)
    | _ => none
  | .mirrorFails k =>
    match s.stage with
    | some (.committed c) =>
      if NeedsMirror b c.opType c.undo.before then
        some (moveTo (.failed c)
          { s with
            graph := mirrorPartly sanitizeCypherLabel (mirrorOf c.opType c.undo.before)
              c.undo.appliedAt k s.graph })
      else none
    | _ => none
  | .queue =>
    match s.stage with
    | some (.failed c) => some (moveTo (.looping c.runId c.opSeq) (queueOp c s))
    | _ => none
  | .clear =>
    match s.stage with
    | some (.mirrored c) =>
      some (moveTo (.looping c.runId c.opSeq)
        { s with runs := clearGraphMirrorPending c.runId c.opSeq s.runs })
    | _ => none
  | .finish =>
    match s.stage with
    | some (.looping _ _) => some { s with stage := none }
    | _ => none
  | .crash => some { s with stage := none }

end Step

end Uru.Dream.Pending
