import Uru.Lib.Machine
import Mathlib.Logic.Function.Basic
import Mathlib.Tactic

/-!
# The sidecar manager

The manager spawns the sidecar, waits until it is healthy, restarts it after
a crash and stops it. Every call that is suspended at an `await` is a task;
what runs between two awaits is one step. The replies of the operating system
and of the sidecar are the inputs of the steps, in any order.
-/

set_option autoImplicit false

namespace Uru.Sidecar
open Uru.Lib.Machine

/-- How a child ended, as its events reported it. A child that could not be
spawned has no pid and no exit event; its `error` event sets its exit code to
the negative error number. -/
inductive Fate where
  | running
  | exited (code : ℤ)
  | signaled (signal : String)
  | notSpawned (errno : ℕ)
  deriving DecidableEq

structure Child where
  port : ℕ
  token : ℕ
  hasPid : Bool
  fate : Fate
  killSent : Bool

def Child.exitCode (c : Child) : Option ℤ :=
  match c.fate with
  | .exited code => some code
  | .notSpawned errno => some (-errno)
  | .running | .signaled _ => none

/-- Who called `start`. -/
inductive Caller where
  | owner
  | restart
  deriving DecidableEq

/-- The suspended calls, by the await they are at: in `start` the takeover,
the free port, a health request or the pause between two; in `scheduleRestart`
the backoff; in `stop` the bounded `/shutdown` on Windows, the exit of the
child, or the `/shutdown` of a child that is gone. -/
inductive Task where
  | takeOver (caller : Caller)
  | pickPort (caller : Caller)
  | health (caller : Caller)
  | pause (caller : Caller)
  | backoff
  | race (proc : ℕ) (exited : Bool)
  | awaitExit (proc : ℕ) (exited : Bool)
  | shutdown
  deriving DecidableEq

/-- One look at whether a child is still there: whether it had ended, and
whether it was taken for dead. -/
structure Check where
  ended : Bool
  dead : Bool
  deriving DecidableEq

/-- The manager with the children it spawned, of which those from `next` on
are still to come, its suspended calls and the timers of failed starts. It is
`stopped` from the end of a `stop` to the next `start` of its owner. -/
structure Manager where
  proc : Option ℕ
  port : ℕ
  token : ℕ
  client : Option (ℕ × ℕ)
  spawnError : Bool
  stoppedByUs : Bool
  restartAttempts : ℕ
  children : ℕ → Child
  next : ℕ
  tasks : ℕ → Option Task
  cleanups : List ℕ
  stopped : Bool
  checks : List Check

def restartBackoffMs : List ℕ := [1000,2000,5000,10000,30000]

namespace Manager

def setTask (s : Manager) (t : ℕ) (k : Option Task) : Manager :=
  { s with tasks := Function.update s.tasks t k }

def setChild (s : Manager) (i : ℕ) (c : Child) : Manager :=
  { s with children := Function.update s.children i c }

def killTree (s : Manager) (i : ℕ) : Manager :=
  if (s.children i).hasPid then s.setChild i { s.children i with killSent := true } else s

def killGroup (s : Manager) : Manager :=
  match s.proc with
  | none => s
  | some i => s.killTree i

def check (s : Manager) (i : ℕ) (dead : Bool) : Manager :=
  { s with checks := ⟨(s.children i).fate ≠ .running,dead⟩::s.checks }

def scheduleRestart (s : Manager) (t : ℕ) : Manager :=
  if restartBackoffMs.length ≤ s.restartAttempts then s.setTask t none
  else { s with restartAttempts := s.restartAttempts+1 }.setTask t (some .backoff)

/-- `start` rejects: the owner gets the error, `scheduleRestart` tries again. -/
def rejected (s : Manager) (t : ℕ) : Caller → Manager
  | .owner => s.setTask t none
  | .restart => s.scheduleRestart t

def cleanup (s : Manager) : Manager :=
  match s.proc with
  | none => s
  | some i =>
    if (s.children i).exitCode.isSome then s.check i true
    else { ({ s.check i false with stoppedByUs := true }.killGroup) with
      cleanups := i::s.cleanups }

def failed (s : Manager) (t : ℕ) (caller : Caller) : Manager := s.cleanup.rejected t caller

/-- One turn of the loop of `awaitReady`, before the deadline. -/
def awaitReady (s : Manager) (t : ℕ) (caller : Caller) : Manager :=
  match s.proc with
  | none => s.failed t caller
  | some i =>
    if s.spawnError || (s.children i).exitCode.isSome then (s.check i true).failed t caller
    else (s.check i false).setTask t (some (.health caller))

/-- `start` from the free port on. The `error` event of a failed spawn comes
right after the first turn of the loop. -/
def spawn (s : Manager) (t : ℕ) (caller : Caller) (port token : ℕ) (failure : Option ℕ) : Manager :=
  let s := { s.setTask t none with
    port := port, token := token, client := some (port,token), proc := some s.next,
    children := Function.update s.children s.next ⟨port,token,failure.isNone,.running,false⟩ }
  let s := s.awaitReady t caller
  match failure with
  | none => { s with next := s.next+1 }
  | some errno => { s.setChild s.next { s.children s.next with fate := .notSpawned errno } with
      next := s.next+1, spawnError := true }

end Manager

/-- The listener of a pending `stop` on the exit of its child. -/
def Task.sawExit (i : ℕ) : Task → Task
  | .race j exited => .race j (exited || j = i)
  | .awaitExit j exited => .awaitExit j (exited || j = i)
  | k => k

inductive Death where
  | code (n : ℤ)
  | signal (name : String)

def Death.fate : Death → Fate
  | .code n => .exited n
  | .signal name => .signaled name

inductive Health where
  | ok
  | error
  | notReady

namespace Manager

/-- The exit event: the listeners of `stop` see it, and unless the manager
stopped the child itself a restart is scheduled. -/
def exit (s : Manager) (i : ℕ) (d : Death) (t : ℕ) : Manager :=
  let s := { s.setChild i { s.children i with fate := d.fate } with
    tasks := fun u => (s.tasks u).map (Task.sawExit i) }
  if s.stoppedByUs then s else s.scheduleRestart t

/-- `stop` resolves. -/
def resolved (s : Manager) (t : ℕ) : Manager :=
  { s.setTask t none with proc := none, stopped := true }

def askShutdown (s : Manager) (t : ℕ) : Manager :=
  match s.client with
  | some _ => s.setTask t (some .shutdown)
  | none => s.resolved t

def stop (s : Manager) (isWin : Bool) (t : ℕ) : Manager :=
  let s := { s with stoppedByUs := true }
  match s.proc with
  | none => s.askShutdown t
  | some i =>
    if (s.children i).exitCode.isSome then (s.check i true).askShutdown t
    else if isWin then (s.check i false).setTask t (some (.race i false))
    else (s.check i false).killGroup.setTask t (some (.awaitExit i false))

end Manager

/-- The owner's calls, the resumptions of suspended calls, the events of the
children and the timers. A new call takes a free task number. -/
inductive Event where
  | start (t : ℕ)
  | takeOverKill (t i : ℕ)
  | takenOver (t : ℕ)
  | portPicked (t port token : ℕ) (failure : Option ℕ)
  | portFailed (t : ℕ)
  | healthReply (t : ℕ) (h : Health)
  | pauseOver (t : ℕ) (late : Bool)
  | backoffOver (t : ℕ)
  | exit (i : ℕ) (d : Death) (t : ℕ)
  | stop (t : ℕ)
  | raceOver (t : ℕ)
  | exitSeen (t : ℕ)
  | shutdownOver (t : ℕ)
  | stopTimer (t : ℕ)
  | cleanupTimer (i : ℕ)

def step (isWin : Bool) (s : Manager) : Event → Option Manager
  | .start t => match s.tasks t with
    | none => some { s.setTask t (some (.takeOver .owner)) with stopped := false }
    | _ => none
  | .takeOverKill t i => match s.tasks t with
    | some (.takeOver _) => some (s.killTree i)
    | _ => none
  | .takenOver t => match s.tasks t with
    | some (.takeOver caller) =>
      some { s.setTask t (some (.pickPort caller)) with stoppedByUs := false, spawnError := false }
    | _ => none
  | .portPicked t port token failure => match s.tasks t with
    | some (.pickPort caller) => some (s.spawn t caller port token failure)
    | _ => none
  | .portFailed t => match s.tasks t with
    | some (.pickPort caller) => some (s.rejected t caller)
    | _ => none
  | .healthReply t h => match s.tasks t with
    | some (.health caller) => some (match h with
      | .ok => { s.setTask t none with restartAttempts := 0 }
      | .error => s.failed t caller
      | .notReady => s.setTask t (some (.pause caller)))
    | _ => none
  | .pauseOver t late => match s.tasks t with
    | some (.pause caller) => some (if late then s.failed t caller else s.awaitReady t caller)
    | _ => none
  | .backoffOver t => match s.tasks t with
    | some .backoff =>
      some (s.setTask t (if s.stoppedByUs then none else some (.takeOver .restart)))
    | _ => none
  | .exit i d t =>
    if (s.children i).fate = .running ∧ s.tasks t = none then some (s.exit i d t) else none
  | .stop t => match s.tasks t with
    | none => some (s.stop isWin t)
    | _ => none
  | .raceOver t => match s.tasks t with
    | some (.race i exited) => some (s.killGroup.setTask t (some (.awaitExit i exited)))
    | _ => none
  | .exitSeen t => match s.tasks t with
    | some (.awaitExit _ true) => some (s.resolved t)
    | _ => none
  | .shutdownOver t => match s.tasks t with
    | some .shutdown => some (s.resolved t)
    | _ => none
  | .stopTimer t => match s.tasks t with
    | some (.awaitExit _ _) => some s.killGroup
    | _ => none
  | .cleanupTimer i =>
    if i ∈ s.cleanups then
      some { (if (s.children i).exitCode.isSome || !(s.children i).hasPid then s.check i true
        else (s.check i false).killTree i) with cleanups := s.cleanups.erase i }
    else none

def init : Manager where
  proc := none
  port := 0
  token := 0
  client := none
  spawnError := false
  stoppedByUs := false
  restartAttempts := 0
  children := fun _ => ⟨0,0,false,.notSpawned 0,false⟩
  next := 0
  tasks := fun _ => none
  cleanups := []
  stopped := false
  checks := []

end Uru.Sidecar
