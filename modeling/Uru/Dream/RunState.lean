import Mathlib.Logic.Function.Basic
import Uru.Dream.Summary
import Uru.Lib.Machine

/-!
# What a dream run records of itself

A call of `run` registers a cancel flag under its run id, takes the lock of its
namespace, writes the row of the run, plans, goes through the plan and finalizes
the row; when something is raised it finalizes the row as failed, after the lock
is gone. Calls may name the same run id, the row outlives them, and each await
may raise. `applied` and `skipped` are the positions for which an apply has
returned, or a skip was recorded, under a run id.
-/

set_option autoImplicit false

namespace Uru.Dream.RunState

open Uru.Lib

inductive State where
  | planning
  | applying
  | completed
  | failed
  | abortedSafety
  deriving DecidableEq, Repr

/-- `plan` is what the plan hash of the row stands for. -/
structure Row (Op : Type*) where
  mode : Mode
  state : State
  plan : List Op
  totalOps : ℕ
  lastCommittedOpSeq : ℤ
  deriving DecidableEq

/-- What the raised exception is an instance of: `DreamForbiddenOpError`,
`Exception`, or only `BaseException`. -/
inductive Failure where
  | forbidden
  | exception
  | base
  deriving DecidableEq, Repr

/-- What came of an operation that was not passed over. An operation may be
applied together with its checkpoint, or apart from it. -/
inductive Outcome where
  | applied
  | appliedApart
  | throttled
  | unsupported
  deriving DecidableEq, Repr

section Call

variable (κ Op : Type*)

abbrev Result := List Op × List (OpSummary κ)

inductive Stage where
  | locking
  | initializing
  | planning
  | reading (plan : List Op)
  | looping (plan : List Op) (last : ℤ) (seq : ℕ)
  | recording (plan : List Op) (last : ℤ) (seq : ℕ)
  | finalizing (plan : List Op)
  | releasing (result : Result κ Op)
  | failing (aborted : Bool)
  | clearing (result : Option (Result κ Op))
  | done (result : Option (Result κ Op))

/-- `cut` tells that the loop was left before the end of its plan, `marked` that
the row was finalized as completed, `asked` that a cancel request for the run
was accepted, `begunAfter` the operations begun from then on; `seen` is the row
as the call left it last. -/
structure Call (η : Type*) where
  runId : ℕ
  namespaceId : η
  mode : Mode
  isResume : Bool
  stage : Stage κ Op
  cancelFlag : Bool
  skippedByOpType : Record κ ℕ
  cut : Bool
  marked : Bool
  asked : Bool
  begunAfter : ℕ
  seen : Option (Row Op)

end Call

structure World (η κ Op : Type*) where
  rows : ℕ → Option (Row Op)
  cancelFlags : ℕ → Option ℕ
  locks : η → Option ℕ
  calls : List (Call κ Op η)
  applied : List (ℕ × ℕ × Op)
  skipped : List (ℕ × ℕ × Op)

/-- How an await ends that does not raise. -/
inductive Answer (Op : Type*) where
  | ok
  | locked (held : Bool)
  | plan (ops : List Op)
  | turn (o : Outcome)

inductive Event (η Op : Type*) where
  | start (runId : ℕ) (namespaceId : η) (mode : Mode) (isResume : Bool)
  | advance (i : ℕ) (a : Answer Op)
  | fail (i : ℕ) (failure : Failure)
  | requestCancel (runId : ℕ)

variable {η κ Op : Type*}

def Stage.live : Stage κ Op → Bool
  | .done _ => false
  | _ => true

def Stage.inside : Stage κ Op → Bool
  | .locking | .failing _ | .clearing _ | .done _ => false
  | _ => true

def World.initial : World η κ Op where
  rows := fun _ => none
  cancelFlags := fun _ => none
  locks := fun _ => none
  calls := []
  applied := []
  skipped := []

def Stage.result : Stage κ Op → Option (Result κ Op)
  | .releasing result => some result
  | .clearing result => result
  | .done result => result
  | _ => none

def Stage.finalizes : Stage κ Op → Bool
  | .finalizing _ => true
  | _ => false

section Step

variable [DecidableEq κ] [DecidableEq η] (opType : Op → κ)

/-- `INSERT … ON CONFLICT` leaves a row that is there. -/
def recordRun (mode : Mode) : Option (Row Op) → Option (Row Op)
  | some row => some row
  | none =>
    some
      { mode := mode
        state := .planning
        plan := []
        totalOps := 0
        lastCommittedOpSeq := -1 }

def persistPlan (plan : List Op) (row : Row Op) : Row Op :=
  { row with
    plan := plan
    totalOps := plan.length
    state := if row.state = .planning then .applying else row.state }

def advanceCheckpoint (seq : ℕ) (row : Row Op) : Row Op :=
  { row with lastCommittedOpSeq := seq }

def finalizeRun (state : State) (totalOps : ℕ) (row : Row Op) : Row Op :=
  { row with
    state := state
    totalOps := totalOps }

def move (w : World η κ Op) (i : ℕ) (c : Call κ Op η) : World η κ Op :=
  { w with calls := w.calls.set i c }

def write (w : World η κ Op) (i : ℕ) (c : Call κ Op η) (row : Option (Row Op)) : World η κ Op :=
  { w with
    rows := Function.update w.rows c.runId row
    calls := w.calls.set i { c with seen := row } }

def addSkip (op : Op) (c : Call κ Op η) : Call κ Op η :=
  { c with
    skippedByOpType := c.skippedByOpType.set (opType op)
      (remaining c.skippedByOpType (opType op)+1) }

def beginOp (c : Call κ Op η) : Call κ Op η :=
  { c with begunAfter := if c.asked then c.begunAfter+1 else c.begunAfter }

def applyOp (w : World η κ Op) (i : ℕ) (c : Call κ Op η) (plan : List Op) (last : ℤ) (seq : ℕ)
    (op : Op) : Outcome → World η κ Op
  | .applied =>
    { write w i { beginOp c with stage := .looping plan last (seq+1) }
        ((w.rows c.runId).map (advanceCheckpoint seq)) with
      applied := w.applied++[(c.runId,seq,op)] }
  | .appliedApart =>
    { move w i { beginOp c with stage := .recording plan last seq } with
      applied := w.applied++[(c.runId,seq,op)] }
  | .throttled =>
    { move w i (addSkip opType op { beginOp c with stage := .looping plan last (seq+1) }) with
      skipped := w.skipped++[(c.runId,seq,op)] }
  | .unsupported =>
    { write w i (addSkip opType op { beginOp c with stage := .looping plan last (seq+1) })
        ((w.rows c.runId).map (advanceCheckpoint seq)) with
      skipped := w.skipped++[(c.runId,seq,op)] }

/-- A dry run reports its operations and applies none. -/
def turn (w : World η κ Op) (i : ℕ) (c : Call κ Op η) (plan : List Op) (last : ℤ) (seq : ℕ)
    (o : Outcome) : World η κ Op :=
  match plan[seq]? with
  | none => move w i { c with stage := .finalizing plan }
  | some op =>
    if c.cancelFlag then
      move w i
        { c with
          stage := .finalizing plan
          cut := true }
    else match c.mode with
      | .dryRun => move w i { beginOp c with stage := .looping plan last (seq+1) }
      | .apply =>
        if (seq:ℤ) ≤ last then move w i { c with stage := .looping plan last (seq+1) }
        else applyOp opType w i c plan last seq op o

def unlock (w : World η κ Op) (i : ℕ) (c : Call κ Op η) : World η κ Op :=
  { w with
    locks := if w.locks c.namespaceId = some i then Function.update w.locks c.namespaceId none
      else w.locks }

def act (w : World η κ Op) (i : ℕ) (c : Call κ Op η) (a : Answer Op) : Option (World η κ Op) :=
  match c.stage, a with
  | .locking, .locked true =>
    if w.locks c.namespaceId = none then
      some
        { write w i { c with stage := .initializing } (w.rows c.runId) with
          locks := Function.update w.locks c.namespaceId (some i) }
    else none
  | .locking, .locked false =>
    some (write w i { c with stage := .initializing } (w.rows c.runId))
  | .initializing, .ok =>
    some (write w i { c with stage := .planning }
      (if c.isResume then w.rows c.runId else recordRun c.mode (w.rows c.runId)))
  | .planning, .plan ops =>
    some (write w i
      { c with
        stage := match c.mode with
          | .dryRun => .looping ops (-1) 0
          | .apply => .reading ops }
      ((w.rows c.runId).map (persistPlan ops)))
  | .reading plan, .ok =>
    some (move w i
      { c with
        stage := .looping plan (((w.rows c.runId).map (·.lastCommittedOpSeq)).getD (-1)) 0 })
  | .looping plan last seq, .turn o => some (turn opType w i c plan last seq o)
  | .recording plan last seq, .ok =>
    some (write w i { c with stage := .looping plan last (seq+1) }
      ((w.rows c.runId).map (advanceCheckpoint seq)))
  | .finalizing plan, .ok =>
    some (write w i
      { c with
        stage := .releasing (plan,buildResult opType c.mode plan c.skippedByOpType)
        marked := true }
      ((w.rows c.runId).map (finalizeRun .completed plan.length)))
  | .releasing result, .ok =>
    some (move (unlock w i c) i { c with stage := .clearing (some result) })
  | .failing aborted, .ok =>
    some (write w i { c with stage := .clearing none }
      ((w.rows c.runId).map (finalizeRun (if aborted then .abortedSafety else .failed) 0)))
  | .clearing result, .ok =>
    some
      { move w i { c with stage := .done result } with
        cancelFlags := Function.update w.cancelFlags c.runId none }
  | _, _ => none

/-- Where an exception takes the call: to the handler that finalizes the row,
or, past the handlers or out of one, to the `finally`. -/
def Stage.raised (s : Stage κ Op) (failure : Failure) : Option (Stage κ Op) :=
  match s, failure with
  | .done _, _ => none
  | .clearing _, _ => some (.done none)
  | .failing _, _ => some (.clearing none)
  | _, .forbidden => some (.failing true)
  | _, .exception => some (.failing false)
  | _, .base => some (.clearing none)

def Call.started (runId : ℕ) (namespaceId : η) (mode : Mode) (isResume : Bool) :
    Call κ Op η where
  runId := runId
  namespaceId := namespaceId
  mode := mode
  isResume := isResume
  stage := .locking
  cancelFlag := false
  skippedByOpType := ∅
  cut := false
  marked := false
  asked := false
  begunAfter := 0
  seen := none

/-- The event reaches the flag that is registered; that it was accepted concerns
every live call of the run. -/
def cancelled (w : World η κ Op) (runId j : ℕ) : List (Call κ Op η) :=
  w.calls.mapIdx (fun k c =>
    { c with
      cancelFlag := c.cancelFlag || decide (k = j)
      asked := c.asked || (decide (c.runId = runId) && c.stage.live) })

/-- The id of a run that is not resumed is new. -/
def step (w : World η κ Op) : Event η Op → Option (World η κ Op)
  | .start runId namespaceId mode isResume =>
    if isResume = false ∧
        ((w.rows runId).isSome = true ∨ (w.calls.any (fun c => c.runId = runId)) = true) then
      none
    else
      some
        { w with
          cancelFlags := Function.update w.cancelFlags runId (some w.calls.length)
          calls := w.calls++[Call.started runId namespaceId mode isResume] }
  | .advance i a => w.calls[i]?.bind (fun c => act opType w i c a)
  | .fail i failure =>
    w.calls[i]?.bind (fun c => (c.stage.raised failure).map (fun s =>
      move (unlock w i c) i { c with stage := s }))
  | .requestCancel runId =>
    match w.cancelFlags runId with
    | none => some w
    | some j => some { w with calls := cancelled w runId j }

end Step

section Property

variable [DecidableEq κ] [DecidableEq Op] (opType : Op → κ)

/-- The operations of a kind whose apply has returned under a run id, position
by position of the plan. -/
def appliedOf (w : World η κ Op) (runId : ℕ) (plan : List Op) (key : κ) : ℕ :=
  plan.zipIdx.countP (fun x => decide (opType x.1 = key) && decide ((runId,x.2,x.1) ∈ w.applied))

def Accounted (w : World η κ Op) (runId i : ℕ) (op : Op) : Prop :=
  (runId,i,op) ∈ w.applied ∨ (runId,i,op) ∈ w.skipped

structure Honest (w : World η κ Op) : Prop where
  completed : ∀ (id : ℕ) (row : Row Op), w.rows id = some row → row.state = .completed →
    row.mode = .apply → ∀ (i : ℕ) (op : Op), row.plan[i]? = some op → Accounted w id i op
  uncut : ∀ c ∈ w.calls, c.cut = true → c.marked = false ∧
    ∀ result, c.stage ≠ .done (some result)
  counted : ∀ c ∈ w.calls, ∀ result, c.stage = .done (some result) → ∀ s ∈ result.2,
    s.applied ≤ appliedOf opType w c.runId result.1 s.opType
  undisturbed : ∀ (i : ℕ) (c : Call κ Op η), w.calls[i]? = some c → c.stage.inside = true →
    w.cancelFlags c.runId = some i ∧ w.rows c.runId = c.seen
  observed : ∀ c ∈ w.calls, c.asked = true → c.stage.live = true → c.cancelFlag = true ∧
    c.begunAfter = 0

end Property

end Uru.Dream.RunState
