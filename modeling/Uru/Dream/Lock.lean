import Mathlib.Data.Rat.Defs
import Mathlib.Logic.Function.Basic
import Uru.Lib.Machine

/-!
# The lock of a dream run

`_lock` opens a transaction, takes the advisory lock of the namespace in it and
yields; a `RuntimeError` that comes back is taken for a missing SQL backend, and
it yields once more. On PostgreSQL the lock ends with the transaction, elsewhere
with the body. A run awaits at each stage, and each awaited operation may raise.
-/

set_option autoImplicit false

namespace Uru.Dream.Lock

open Uru.Lib

/-- What an exception is an instance of: `RuntimeError`, only `Exception`, or
only `BaseException`, as a cancellation is. -/
inductive Kind where
  | runtime
  | exception
  | base
  deriving DecidableEq, Repr

inductive Error (η ε : Type*) where
  | DreamLockUnavailable (namespaceId : η) (timeoutSeconds : ℚ)
  | ValueError (text : String)
  | RuntimeError (text : String)
  | other (kind : Kind) (raised : ε)
  deriving DecidableEq

inductive Dialect where
  | postgresql
  | embedded
  deriving DecidableEq, Repr

/-- The section is entered through `_lock`, or by a caller that takes the lock
in a transaction of its own. -/
inductive Route where
  | lock
  | acquire (timeoutSeconds : ℚ)
  deriving DecidableEq

def Route.timeoutSeconds : Route → ℚ
  | .lock => 60
  | .acquire timeoutSeconds => timeoutSeconds

/-- Where a call stands, named after what it awaits; the result carried on is
the exception in flight, if there is one. -/
inductive Stage (η ε : Type*) where
  | opening
  | attempting
  | body (locked : Bool)
  | committing
  | rollingBack (e : Error η ε)
  | closing (result : Option (Error η ε))
  | done (result : Option (Error η ε))
  deriving DecidableEq

/-- `left` is what the body ended with, `waits` how often the lock was found
held and waited for. -/
structure Call (η ε : Type*) where
  namespaceId : η
  route : Route
  stage : Stage η ε
  entered : ℕ
  left : Option (Option (Error η ε))
  timedOut : Bool
  waits : ℕ
  deriving DecidableEq

variable {η κ ε : Type*}

def Error.isRuntime : Error η ε → Bool
  | .RuntimeError _ => true
  | .other kind _ => kind = .runtime
  | _ => false

def Error.isException : Error η ε → Bool
  | .other kind _ => kind ≠ .base
  | _ => true

def Call.started (namespaceId : η) (route : Route) : Call η ε where
  namespaceId := namespaceId
  route := route
  stage := .opening
  entered := 0
  left := none
  timedOut := false
  waits := 0

def Call.enter (c : Call η ε) (locked : Bool) : Call η ε :=
  { c with
    stage := .body locked
    entered := c.entered+1 }

def Call.caught (c : Call η ε) (e : Error η ε) : Bool :=
  decide (c.route = .lock) && e.isRuntime

/-- The session is rolled back for an `Exception` and closed in any case. -/
def Call.unwind (c : Call η ε) (e : Error η ε) : Call η ε :=
  { c with stage := if e.isException then .rollingBack e else .closing (some e) }

/-- The transaction is over. The handler of `_lock` yields; that lets the body
in, or else the context manager finds that the generator did not stop. -/
def Call.finish (c : Call η ε) (result : Option (Error η ε)) : Call η ε :=
  match result with
  | none => { c with stage := .done none }
  | some e =>
    if c.caught e then
      match c.left with
      | none => c.enter false
      | some none => { c with stage := .done (some (.RuntimeError "generator didn't stop")) }
      | some (some _) =>
        { c with stage := .done (some (.RuntimeError "generator didn't stop after athrow()")) }
    else { c with stage := .done (some e) }

structure World (η κ ε : Type*) where
  locks : κ → Option ℕ
  calls : List (Call η ε)

def World.initial : World η κ ε where
  locks := fun _ => none
  calls := []

/-- `raised` is what the awaited operation raised, `late` that the deadline has
passed, and `granted` that the server gave the lock to a call that did not hear
of it. -/
inductive Event (η ε : Type*) where
  | start (namespaceId : η) (route : Route)
  | opened (i : ℕ) (raised : Option (Error η ε))
  | attempt (i : ℕ) (late : Bool)
  | attemptFails (i : ℕ) (e : Error η ε) (granted : Bool)
  | leave (i : ℕ) (raised : Option (Error η ε))
  | settle (i : ℕ) (raised : Option (Error η ε))

section Table

variable [DecidableEq κ]

def take (locks : κ → Option ℕ) (i : ℕ) (id : κ) : κ → Option ℕ :=
  Function.update locks id (some i)

def release (locks : κ → Option ℕ) (i : ℕ) (id : κ) : κ → Option ℕ :=
  if locks id = some i then Function.update locks id none else locks

variable {locks : κ → Option ℕ} {i j : ℕ} {id other : κ}

theorem take_eq (h : take locks i id other = some j) :
    (other = id ∧ j = i) ∨ (other ≠ id ∧ locks other = some j) := by
  by_cases ho : other = id
  · subst ho
    rw [take, Function.update_self] at h
    exact Or.inl ⟨rfl, (Option.some.inj h).symm⟩
  · rw [take, Function.update_of_ne ho] at h
    exact Or.inr ⟨ho, h⟩

theorem take_keeps (hfree : locks id = none) (h : locks other = some j) :
    take locks i id other = some j := by
  have ho : other ≠ id := by
    intro ho
    rw [ho, hfree] at h
    cases h
  rw [take, Function.update_of_ne ho, h]

theorem release_eq (h : release locks i id other = some j) : locks other = some j := by
  rw [release] at h
  split at h
  · by_cases ho : other = id
    · rw [ho, Function.update_self] at h
      cases h
    · rwa [Function.update_of_ne ho] at h
  · exact h

theorem release_not_own : release locks i id id ≠ some i := by
  rw [release]
  split
  · rw [Function.update_self]
    intro h
    cases h
  · assumption

theorem release_keeps (hne : j ≠ i) (h : locks other = some j) :
    release locks i id other = some j := by
  rw [release]
  split
  next hi =>
    have ho : other ≠ id := by
      intro ho
      rw [ho, hi] at h
      exact hne (Option.some.inj h).symm
    rwa [Function.update_of_ne ho]
  next => exact h

end Table

section Step

variable (dialect : Dialect) (lockId : η → κ) [DecidableEq κ]

/-- `timeout_seconds or None`: zero is no timeout to `asyncio.wait_for`, while
the deadline of the PostgreSQL loop has then passed at once. -/
def expires (timeoutSeconds : ℚ) (late : Bool) : Bool :=
  match dialect with
  | .postgresql => late || decide (timeoutSeconds = 0)
  | .embedded => late && decide (timeoutSeconds ≠ 0)

def attempted (c : Call η ε) (free late : Bool) : Call η ε :=
  if free then c.enter true
  else if expires dialect c.route.timeoutSeconds late then
    { c with timedOut := true }.unwind
      (.DreamLockUnavailable c.namespaceId c.route.timeoutSeconds)
  else { c with waits := c.waits+1 }

def opened (c : Call η ε) (raised : Option (Error η ε)) : Call η ε :=
  match raised with
  | some e => c.finish (some e)
  | none =>
    if c.route.timeoutSeconds < 0 then
      c.unwind (.ValueError "timeout_seconds must be >= 0")
    else { c with stage := .attempting }

def left (c : Call η ε) (raised : Option (Error η ε)) : Call η ε :=
  match raised with
  | some e => { c with left := some raised }.unwind e
  | none =>
    { c with
      left := some none
      stage := .committing }

def put (w : World η κ ε) (i : ℕ) (locks : κ → Option ℕ) (c : Call η ε) : World η κ ε where
  locks := locks
  calls := w.calls.set i c

/-- The end of a session is the end of its transaction, and with it of a
transaction-scoped lock. -/
def settled (locks : κ → Option ℕ) (i : ℕ) (c : Call η ε) (raised : Option (Error η ε)) :
    Option ((κ → Option ℕ) × Call η ε) :=
  match c.stage, raised with
  | .committing, none =>
    some (release locks i (lockId c.namespaceId), { c with stage := .closing none })
  | .committing, some e => some (locks, c.unwind e)
  | .rollingBack e, none =>
    some (release locks i (lockId c.namespaceId), { c with stage := .closing (some e) })
  | .rollingBack _, some e => some (locks, { c with stage := .closing (some e) })
  | .closing result, none =>
    some (release locks i (lockId c.namespaceId), c.finish result)
  | .closing _, some e =>
    some (release locks i (lockId c.namespaceId), c.finish (some e))
  | _, _ => none

def step (w : World η κ ε) : Event η ε → Option (World η κ ε)
  | .start namespaceId route =>
    some { w with calls := w.calls++[Call.started namespaceId route] }
  | .opened i raised =>
    w.calls[i]?.bind (fun c => match c.stage with
      | .opening => some (put w i w.locks (opened c raised))
      | _ => none)
  | .attempt i late =>
    w.calls[i]?.bind (fun c => match c.stage, w.locks (lockId c.namespaceId) with
      | .attempting, none =>
        some (put w i (take w.locks i (lockId c.namespaceId)) (attempted dialect c true late))
      | .attempting, some _ => some (put w i w.locks (attempted dialect c false late))
      | _, _ => none)
  | .attemptFails i e granted =>
    w.calls[i]?.bind (fun c => match c.stage, w.locks (lockId c.namespaceId) with
      | .attempting, none =>
        some (put w i
          (if granted ∧ dialect = .postgresql then take w.locks i (lockId c.namespaceId)
            else w.locks) (c.unwind e))
      | .attempting, some _ => some (put w i w.locks (c.unwind e))
      | _, _ => none)
  | .leave i raised =>
    w.calls[i]?.bind (fun c => match c.stage with
      | .body true =>
        some (put w i
          (if dialect = .embedded then release w.locks i (lockId c.namespaceId) else w.locks)
          (left c raised))
      | .body false =>
        some (put w i w.locks
          { c with
            left := some raised
            stage := .done raised })
      | _ => none)
  | .settle i raised =>
    w.calls[i]?.bind (fun c => (settled lockId w.locks i c raised).map (fun r =>
      put w i r.1 r.2))

end Step

structure Exclusive (w : World η κ ε) : Prop where
  alone : ∀ (i j : ℕ) (a b : Call η ε) (x y : Bool), w.calls[i]? = some a → w.calls[j]? = some b →
    a.namespaceId = b.namespaceId → a.stage = .body x → b.stage = .body y → i = j
  released : ∀ (i : ℕ) (a : Call η ε) (result : Option (Error η ε)), w.calls[i]? = some a →
    a.stage = .done result → ∀ id, w.locks id ≠ some i
  timedOut : ∀ (i : ℕ) (a : Call η ε), w.calls[i]? = some a → a.timedOut = true →
    ∀ id, w.locks id ≠ some i
  transparent : ∀ a ∈ w.calls, ∀ (e : Error η ε) (result : Option (Error η ε)),
    a.left = some (some e) → a.stage = .done result → result = some e
  once : ∀ a ∈ w.calls, a.entered ≤ 1
  single : ∀ a ∈ w.calls, a.route.timeoutSeconds = 0 → a.waits = 0

end Uru.Dream.Lock
