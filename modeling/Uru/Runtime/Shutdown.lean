import Uru.Runtime.Activity

/-!
# Shutting the sidecar down

The boot task, the supervisor with its restarts in a worker thread, the two
watchdogs, the `/shutdown` route and the teardown of the lifespan run on one
event loop. A step is what a task does between two awaits, or one call of the
worker thread; the two calls that end the servers block the event loop, and the
worker thread goes on meanwhile. What the awaited calls answer is open.
-/

set_option autoImplicit false

namespace Uru.Runtime.Shutdown
open Uru.Lib.Machine

inductive Server where
  | chat
  | embed
  deriving DecidableEq

def Server.alias : Server → String
  | .chat => "uru-chat"
  | .embed => "uru-embed"

/-- The boot task, by the await it is at: not begun, waiting for the llama
servers, for the proxy, for the connection or for the namespace. -/
inductive Boot where
  | queued
  | loading
  | proxy
  | connecting
  | namespace
  | ended
  deriving DecidableEq

inductive Supervisor where
  | asleep
  | restarting (server : Server)
  | ended
  deriving DecidableEq

/-- An exception of the worker thread. `restart` tries once more after a
`RuntimeError` or a `TimeoutError`. -/
structure Raised where
  retried : Bool
  text : String
  deriving DecidableEq

/-- Where `LlamaServer.restart` is in the worker thread: the first try and the
one on a fresh port, each of which stops, starts and waits. -/
inductive Stage where
  | stop (again : Bool)
  | start (again : Bool)
  | wait (again : Bool)
  | finished (exc : Option String)
  deriving DecidableEq

inductive Caller where
  | route
  | watchdog
  | parentWatchdog
  | lifespan
  deriving DecidableEq

/-- The awaits of `stop`, and its part that ends the servers. -/
inductive Stop where
  | disconnecting
  | awaitingProxy
  | endingServers
  deriving DecidableEq

/-- Where the event loop is in `_chat.stop()` and `_embed.stop()`: about to look
at a server, or waiting for the process it terminated, which the number of
spawns tells from a later one of that server. -/
inductive Ending where
  | look (server : Server)
  | wait (server : Server) (spawns : ℕ)
  deriving DecidableEq

/-- `stopBegan` once a `stop` was called, `returned` once one has returned;
`blocked` by the `stop` that is ending the servers. -/
structure SidecarRuntime where
  status : Status
  error : Option String
  created : Bool
  running : Server → Bool
  spawns : Server → ℕ
  kb : Bool
  proxyTask : Bool
  boot : Boot
  supervisor : Supervisor
  thread : Option (Server × Stage)
  watchdog : Bool
  parentWatchdog : Bool
  lifespan : Bool
  stops : ℕ → Option (Caller × Stop)
  blocked : Option (ℕ × Ending)
  stopBegan : Bool
  returned : Bool

namespace SidecarRuntime

def spawn (s : SidecarRuntime) (v : Server) : SidecarRuntime :=
  { s with
    running := Function.update s.running v true,
    spawns := Function.update s.spawns v (s.spawns v+1) }

def kill (s : SidecarRuntime) (v : Server) : SidecarRuntime :=
  { s with running := Function.update s.running v false }

def isAlive (s : SidecarRuntime) (v : Server) : Bool := s.running v

def stopServers (s : SidecarRuntime) (i : ℕ) (caller : Caller) : SidecarRuntime :=
  { s with
    stops := Function.update s.stops i (some (caller,.endingServers)), blocked := some (i,.look .chat) }

def stopProxy (s : SidecarRuntime) (i : ℕ) (caller : Caller) : SidecarRuntime :=
  if s.proxyTask then { s with stops := Function.update s.stops i (some (caller,.awaitingProxy)) }
  else s.stopServers i caller

/-- The end of the `stop` of a server: the other one is next, or `stop` returns. -/
def stopped (s : SidecarRuntime) (i : ℕ) : Server → SidecarRuntime
  | .chat => { s with blocked := some (i,.look .embed) }
  | .embed => { s with stops := Function.update s.stops i none, blocked := none, returned := true }

/-- `LlamaServer.stop` on the event loop. A wait ends with the process it is
for, or at its timeout, after which the present process of the server is killed. -/
def stopRuns (s : SidecarRuntime) (timeout : Bool) : Option SidecarRuntime :=
  match s.blocked with
  | none => none
  | some (i,.look v) =>
    if s.created && s.isAlive v then some { s with blocked := some (i,.wait v (s.spawns v)) }
    else some (s.stopped i v)
  | some (i,.wait v n) =>
    if timeout then some ((s.kill v).stopped i v)
    else if s.isAlive v && s.spawns v = n then none
    else some (s.stopped i v)

def stop (s : SidecarRuntime) (i : ℕ) (caller : Caller) : SidecarRuntime :=
  let s := { s with status := .stopping, stopBegan := true }
  if s.kb then { s with stops := Function.update s.stops i (some (caller,.disconnecting)) }
  else s.stopProxy i caller

def bootFailed (s : SidecarRuntime) (exc : String) : SidecarRuntime :=
  { s with status := .error, error := some exc, boot := .ended }

/-- `start` up to its first await. A server that cannot be spawned raises. -/
def bootStart (s : SidecarRuntime) (chat embed : Option String) : SidecarRuntime :=
  let s := { s with created := true }
  match chat with
  | some exc => s.bootFailed exc
  | none =>
    match embed with
    | some exc => (s.spawn .chat).bootFailed exc
    | none => { (s.spawn .chat).spawn .embed with boot := .loading }

def restart (s : SidecarRuntime) (v : Server) : SidecarRuntime :=
  { s with supervisor := .restarting v, thread := some (v,.stop false) }

def checkEmbed (s : SidecarRuntime) : SidecarRuntime :=
  if !s.created || s.isAlive .embed then { s with supervisor := .asleep } else s.restart .embed

def supervise (s : SidecarRuntime) : SidecarRuntime :=
  if s.status ≠ .ok then s
  else if !s.created || s.isAlive .chat then s.checkEmbed else s.restart .chat

/-- The result of the thread; a restart that raised is latched. -/
def latch (s : SidecarRuntime) (v : Server) : Option String → SidecarRuntime
  | none => { s with thread := none }
  | some exc => { s with
    status := .error, error := some (v.alias++" crashed and could not be restarted: "++exc),
    thread := none }

def restarted (s : SidecarRuntime) (v : Server) (exc : Option String) : SidecarRuntime :=
  match v with
  | .chat => (s.latch v exc).checkEmbed
  | .embed => { s.latch v exc with supervisor := .asleep }

/-- Where the thread goes on after an exception of `start` or `wait_ready`. -/
def raisedAt (again : Bool) (exc : Raised) : Stage :=
  if !again && exc.retried then .stop true else .finished (some exc.text)

/-- What the thread does next: `exc` if the call raises. The second `stop`
includes the choice of the fresh port. -/
def threadStep (s : SidecarRuntime) (v : Server) (exc : Option Raised) :
    Stage → Option SidecarRuntime
  | .stop again =>
    match exc with
    | none => some { s.kill v with thread := some (v,.start again) }
    | some exc => some { s.kill v with thread := some (v,.finished (some exc.text)) }
  | .start again =>
    match exc with
    | none => some { s.spawn v with thread := some (v,.wait again) }
    | some exc => some { s with thread := some (v,raisedAt again exc) }
  | .wait again =>
    match exc with
    | none => some { s with thread := some (v,.finished none) }
    | some exc => some { s with thread := some (v,raisedAt again exc) }
  | .finished _ => none

/-- Whether cancelling the watchdogs takes the pending `stop` along. -/
def cancelled : Option (Caller × Stop) → Bool
  | some (.watchdog,_) => true
  | some (.parentWatchdog,_) => true
  | _ => false

def cancelTasks (s : SidecarRuntime) : SidecarRuntime :=
  { s with
    lifespan := false, boot := .ended, supervisor := .ended, watchdog := false,
    parentWatchdog := false, stops := fun i => if cancelled (s.stops i) then none else s.stops i }

def teardown (s : SidecarRuntime) (i : ℕ) : SidecarRuntime :=
  if s.cancelTasks.status ≠ .stopping then s.cancelTasks.stop i .lifespan else s.cancelTasks

end SidecarRuntime

/-- The resumptions of the tasks, the crash of a server and the calls of
`stop`, which take a free number. -/
inductive Event where
  | bootStarts (chat embed : Option String)
  | serversReady
  | proxyUp
  | connected
  | bootReady
  | bootFails (exc : String)
  | supervisorWakes
  | threadRuns (exc : Option Raised)
  | threadDropped
  | restarted
  | crash (v : Server)
  | shutdown (i : ℕ)
  | watchdogStops (i : ℕ)
  | parentGone (i : ℕ)
  | teardown (i : ℕ)
  | disconnected (i : ℕ)
  | proxyExited (i : ℕ)
  | stopCancelled (i : ℕ)
  | stopRuns (timeout : Bool)

/-- The event is a turn of the event loop, and has to wait while a `stop` blocks it. -/
def Event.onLoop : Event → Bool
  | .threadRuns _ | .crash _ | .stopRuns _ => false
  | _ => true

def act (s : SidecarRuntime) : Event → Option SidecarRuntime
  | .bootStarts chat embed => if s.boot = .queued then some (s.bootStart chat embed) else none
  | .serversReady =>
    if s.boot = .loading then some { s with boot := .proxy, proxyTask := true } else none
  | .proxyUp => if s.boot = .proxy then some { s with boot := .connecting, kb := true } else none
  | .connected => if s.boot = .connecting then some { s with boot := .namespace } else none
  | .bootReady =>
    if s.boot = .namespace then some { s with status := .ok, boot := .ended } else none
  | .bootFails exc =>
    if s.boot ≠ .queued ∧ s.boot ≠ .ended then some (s.bootFailed exc) else none
  | .supervisorWakes => if s.supervisor = .asleep then some s.supervise else none
  | .threadRuns exc =>
    match s.thread with
    | some (v,stage) => s.threadStep v exc stage
    | none => none
  | .threadDropped =>
    match s.thread with
    | some (_,.finished _) => if s.supervisor = .ended then some { s with thread := none } else none
    | _ => none
  | .restarted =>
    match s.thread with
    | some (v,.finished exc) =>
      if s.supervisor = .restarting v then some (s.restarted v exc) else none
    | _ => none
  | .crash v => some (s.kill v)
  | .shutdown i => if s.stops i = none then some (s.stop i .route) else none
  | .watchdogStops i =>
    if s.watchdog = true ∧ s.status = .ok ∧ s.stops i = none then
      some ({ s with watchdog := false }.stop i .watchdog)
    else none
  | .parentGone i =>
    if s.parentWatchdog = true ∧ s.stops i = none then
      some ({ s with parentWatchdog := false }.stop i .parentWatchdog)
    else none
  | .teardown i => if s.lifespan = true ∧ s.stops i = none then some (s.teardown i) else none
  | .disconnected i =>
    match s.stops i with
    | some (caller,.disconnecting) => some (s.stopProxy i caller)
    | _ => none
  | .proxyExited i =>
    match s.stops i with
    | some (caller,.awaitingProxy) => some (s.stopServers i caller)
    | _ => none
  | .stopCancelled i =>
    match s.stops i with
    | some _ => some { s with stops := Function.update s.stops i none }
    | none => none
  | .stopRuns timeout => s.stopRuns timeout

def step (s : SidecarRuntime) (e : Event) : Option SidecarRuntime :=
  if e.onLoop && s.blocked.isSome then none else act s e

def init : SidecarRuntime where
  status := .starting
  error := none
  created := false
  running := fun _ => false
  spawns := fun _ => 0
  kb := false
  proxyTask := false
  boot := .queued
  supervisor := .asleep
  thread := none
  watchdog := true
  parentWatchdog := true
  lifespan := true
  stops := fun _ => none
  blocked := none
  stopBegan := false
  returned := false

end Uru.Runtime.Shutdown
