import Uru.Lib.Machine
import Mathlib.Data.List.Perm.Subperm

/-!
# Applying a dream plan across crashes

A run plans against the store as it is, then applies the operations of its plan
in order and records after each the position of the last one committed. A
crashed run is resumed under its id: it plans again, against the store that
the first half has changed, and passes over the positions already recorded.
Where handler and checkpoint share a transaction a crash cannot separate them;
elsewhere an operation may have been applied and not yet recorded.
-/

set_option autoImplicit false

namespace Uru.Dream

open Uru.Lib

/-- Which of the three ways of applying an operation the storage offers: a
relational transaction, the native path of the unified store, or neither. -/
inductive Backend where
  | sql
  | surrealdb
  | embedded
  deriving DecidableEq, Repr

structure Stack (σ Op : Type*) where
  planDream : σ → List Op
  getApplyHandler : Op → Option (σ → σ)
  applySurrealdbOp : Op → σ → σ
  llmOpKinds : Op → Bool
  surrealdbNativeApplyKinds : Op → Bool
  backendSupported : Op → Bool
  backend : Backend
  runStore : Bool

/-- Where the process that holds the run stands: still planning, before the
operation `seq`, or between applying it and recording it. -/
inductive Executor (Op : Type*) where
  | planning
  | applying (plan : List Op) (lastCommitted : ℤ) (seq : ℕ)
  | checkpointing (plan : List Op) (lastCommitted : ℤ) (seq : ℕ)

/-- The store, the row of the run and the process, if there is one; then what
is only observed: the first plan of the run, the plan it followed last, what it
applied and what it skipped by policy, and what it applied since the last
checkpoint. -/
structure Run (σ Op : Type*) where
  store : σ
  lastCommittedOpSeq : Option ℤ
  executor : Option (Executor Op)
  original : List Op
  followed : Option (List Op)
  applied : List Op
  skipped : List Op
  unrecorded : List Op
  ranThrough : Bool

inductive Event (σ : Type*) where
  | start
  | resume
  | plan
  | iterate (budgetExhausted : Bool)
  | checkpoint
  | finish
  | cancel
  | crash
  | write (st : σ)

section Step

variable {σ Op : Type*} (K : Stack σ Op)

def fresh (st : σ) : Run σ Op where
  store := st
  lastCommittedOpSeq := none
  executor := none
  original := []
  followed := none
  applied := []
  skipped := []
  unrecorded := []
  ranThrough := false

def readLastCommitted (r : Run σ Op) : ℤ := r.lastCommittedOpSeq.getD (-1)

def recordCommitted (seq : ℕ) (r : Run σ Op) : Run σ Op :=
  if K.runStore then
    { r with
      lastCommittedOpSeq := some seq
      unrecorded := [] }
  else r

def takeOp (op : Op) (st : σ) (r : Run σ Op) : Run σ Op :=
  { r with
    store := st
    applied := r.applied++[op]
    unrecorded := r.unrecorded++[op] }

def skipOp (op : Op) (r : Run σ Op) : Run σ Op := { r with skipped := r.skipped++[op] }

def moveTo (e : Executor Op) (r : Run σ Op) : Run σ Op := { r with executor := some e }

def dispatch (budgetExhausted : Bool) (plan : List Op) (last : ℤ) (seq : ℕ) (op : Op)
    (r : Run σ Op) : Run σ Op :=
  let next := Executor.applying plan last (seq+1)
  match K.getApplyHandler op with
  | none => moveTo next (recordCommitted K seq (takeOp op r.store r))
  | some handler =>
    if K.llmOpKinds op && budgetExhausted then moveTo next (skipOp op r)
    else match K.backend with
      | .surrealdb =>
        if K.surrealdbNativeApplyKinds op then
          moveTo (.checkpointing plan last seq)
            (takeOp op (K.applySurrealdbOp op r.store) r)
        else moveTo next (recordCommitted K seq (skipOp op r))
      | .sql =>
        if K.backendSupported op then
          moveTo next (recordCommitted K seq (takeOp op (handler r.store) r))
        else moveTo next (recordCommitted K seq (skipOp op r))
      | .embedded =>
        moveTo (.checkpointing plan last seq) (takeOp op (handler r.store) r)

def iterate (budgetExhausted : Bool) (plan : List Op) (last : ℤ) (seq : ℕ) (r : Run σ Op) :
    Option (Run σ Op) :=
  plan[seq]?.map (fun op =>
    if (seq:ℤ) ≤ last then moveTo (.applying plan last (seq+1)) r
    else dispatch K budgetExhausted plan last seq op r)

def follow (plan : List Op) (r : Run σ Op) : Run σ Op :=
  { r with
    executor := some (.applying plan (readLastCommitted r) 0)
    original := if r.followed.isSome then r.original else plan
    followed := some plan
    unrecorded := [] }

def stop (through : Bool) (r : Run σ Op) : Run σ Op :=
  { r with
    executor := none
    ranThrough := through || r.ranThrough }

/-- One step of the run, of its process or of somebody else who writes the
store. An exception of a handler ends the process like a crash. -/
def step (r : Run σ Op) : Event σ → Option (Run σ Op)
  | .start =>
    match r.lastCommittedOpSeq, r.executor with
    | none, none => some (moveTo .planning { r with lastCommittedOpSeq := some (-1) })
    | _, _ => none
  | .resume =>
    match r.lastCommittedOpSeq, r.executor with
    | some _, none => some (moveTo .planning r)
    | _, _ => none
  | .plan =>
    match r.executor with
    | some .planning => some (follow (K.planDream r.store) r)
    | _ => none
  | .iterate budgetExhausted =>
    match r.executor with
    | some (.applying plan last seq) => iterate K budgetExhausted plan last seq r
    | _ => none
  | .checkpoint =>
    match r.executor with
    | some (.checkpointing plan last seq) =>
      some (moveTo (.applying plan last (seq+1)) (recordCommitted K seq r))
    | _ => none
  | .finish =>
    match r.executor with
    | some (.applying plan _ seq) => if plan.length ≤ seq then some (stop true r) else none
    | _ => none
  | .cancel =>
    match r.executor with
    | some (.applying _ _ _) => some (stop false r)
    | _ => none
  | .crash => some (stop false r)
  | .write st => some { r with store := st }

end Step

end Uru.Dream
