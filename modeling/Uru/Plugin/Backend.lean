import Uru.Lib.Machine
import Mathlib.Logic.Function.Basic
import Mathlib.Tactic

/-!
# The plugin's backend lifecycle

Boots, restarts, the setup and the uninstall share the stored manager, the
stored indexer and the promise of the running boot. A step is what one of
them, or a manager, does between two awaits. A manager is what its owner sees
of it: whether its sidecar is alive, and which of its calls may still spawn.
-/

set_option autoImplicit false

namespace Uru.Plugin.Backend
open Uru.Lib.Machine

/-- A manager. `starting`: the owner's `start` has not spawned yet.
`crashed`: a restart is scheduled; `restarting`: its `start` has not spawned
yet; `reloading`: it has, and waits. `deaths` counts the exits of its
sidecars. -/
structure Manager where
  starting : Bool
  restarting : Bool
  reloading : Bool
  crashed : Bool
  alive : Bool
  stoppedByUs : Bool
  deaths : ℕ
  deriving DecidableEq

namespace Manager

def fresh : Manager := ⟨false,false,false,false,false,false,0⟩

def start (m : Manager) : Manager := { m with starting := true }

def stop (m : Manager) : Manager := { m with stoppedByUs := true }

/-- What a `stop` called now waits for: the exit of a sidecar that is there. -/
def awaited (m : Manager) : Option ℕ := if m.alive then some m.deaths else none

def exited (m : Manager) : Option ℕ → Bool
  | none => true
  | some d => d < m.deaths

/-- The end of the takeover in a call of `start`. -/
def takenOver (m : Manager) : Manager := { m with stoppedByUs := false }

/-- The exit of the sidecar; `again` if there is a restart left. -/
def died (m : Manager) (again : Bool) : Manager :=
  { m with
    alive := false, deaths := m.deaths+1, crashed := m.crashed || (again && !m.stoppedByUs) }

def backoffOver (m : Manager) : Manager :=
  { m with crashed := false, restarting := m.restarting || !m.stoppedByUs }

/-- The clean-up of a start that failed kills a sidecar that is still there;
`unseen` if the sidecar is gone and the clean-up does not know. -/
def startFailed (m : Manager) (unseen : Bool) : Manager :=
  if m.alive then { m with alive := false, deaths := m.deaths+1, stoppedByUs := true }
  else { m with stoppedByUs := m.stoppedByUs || unseen }

/-- What a manager does on its own: the calls of `start` go on, the sidecar
dies, a restart comes up or fails. -/
inductive Event where
  | takenOver
  | spawned
  | portFailed
  | died (again : Bool)
  | backoffOver
  | respawned
  | respawnFailed (again : Bool)
  | restartReady
  | restartFailed (unseen again : Bool)

def step (m : Manager) : Event → Option Manager
  | .takenOver => if m.starting || m.restarting then some m.takenOver else none
  | .spawned => if m.starting then some { m with starting := false, alive := true } else none
  | .portFailed => if m.starting then some { m with starting := false } else none
  | .died again => if m.alive then some (m.died again) else none
  | .backoffOver => if m.crashed then some m.backoffOver else none
  | .respawned =>
    if m.restarting then some { m with restarting := false, reloading := true, alive := true }
    else none
  | .respawnFailed again =>
    if m.restarting then some { m with restarting := false, crashed := m.crashed || again } else none
  | .restartReady => if m.reloading then some { m with reloading := false } else none
  | .restartFailed unseen again =>
    if m.reloading then
      some { m.startFailed unseen with reloading := false, crashed := m.crashed || again }
    else none

end Manager

/-- `doRunBackend` by the await it is at: saving the new vault key,
`ensureBackend`, saving the settings, `start` of its manager, saving the
namespace, the stop that undoes the start, the flush of the old indexer, the
load of the new one. -/
inductive Boot where
  | savingKey
  | ensuring
  | persisting
  | starting (m : ℕ)
  | savingNamespace (m : ℕ)
  | undoing (stopping : Option (ℕ × Option ℕ))
  | flushing (had : Bool)
  | loading

inductive Op where
  | restart
  | setup
  | delete
  | unload
  deriving DecidableEq

/-- A suspended call: it joined a boot, lets one settle first, is in the stop
of a manager, in the flush of the indexer, or saves the settings. -/
inductive Task where
  | joined (boot : ℕ)
  | waiting (op : Op) (boot : Option ℕ)
  | stopping (op : Op) (m : ℕ) (awaited : Option ℕ)
  | flushing (op : Op) (had : Bool)
  | saving

/-- The plugin. `boots` counts the boots, so it numbers the promise of the
running one; `deleted` from the end of a `deleteData` to the next call of
`runBackend`. -/
structure UruPlugin where
  manager : Option ℕ
  managers : ℕ → Manager
  nextManager : ℕ
  indexer : Option ℕ
  nextIndexer : ℕ
  eventOffs : List ℕ
  boot : Option Boot
  boots : ℕ
  vaultKey : Bool
  unloaded : Bool
  tasks : ℕ → Option Task
  deleted : Bool

namespace UruPlugin

def setTask (s : UruPlugin) (t : ℕ) (k : Option Task) : UruPlugin :=
  { s with tasks := Function.update s.tasks t k }

def setManager (s : UruPlugin) (m : ℕ) (x : Manager) : UruPlugin :=
  { s with managers := Function.update s.managers m x }

def bootPromise (s : UruPlugin) : Option ℕ := s.boot.map (fun _ => s.boots)

def settled (s : UruPlugin) : Option ℕ → Bool
  | none => true
  | some b => s.boot.isNone || b ≠ s.boots

def runBackend (s : UruPlugin) (t : ℕ) : UruPlugin :=
  let s := { s with deleted := false }
  match s.boot with
  | some _ => s.setTask t (some (.joined s.boots))
  | none =>
    { s with
      boot := some (if s.vaultKey then .ensuring else .savingKey), boots := s.boots+1,
      vaultKey := true }.setTask t (some (.joined (s.boots+1)))

/-- The call of `stop` in one of the operations. -/
def stopManager (s : UruPlugin) (t : ℕ) (op : Op) (m : ℕ) : UruPlugin :=
  (s.setManager m (s.managers m).stop).setTask t
    (some (.stopping op m (s.managers m).awaited))

def restartBackend (s : UruPlugin) (t : ℕ) : UruPlugin :=
  match s.boot with
  | some _ => s
  | none =>
    match s.manager with
    | some m => s.stopManager t .restart m
    | none => s.runBackend t

def runSetup (s : UruPlugin) (t : ℕ) : UruPlugin :=
  s.setTask t (some (.waiting .setup s.bootPromise))

def deleteData (s : UruPlugin) (t : ℕ) : UruPlugin :=
  if s.vaultKey then s.setTask t (some (.waiting .delete s.bootPromise)) else s

/-- `stopIndexer` up to its flush; `had` if there is an indexer to flush. -/
def stopIndexer (s : UruPlugin) (t : ℕ) (op : Op) : UruPlugin :=
  { s with eventOffs := [] }.setTask t (some (.flushing op s.indexer.isSome))

def onunload (s : UruPlugin) (t : ℕ) : UruPlugin := { s with unloaded := true }.stopIndexer t .unload

def managerStopped (s : UruPlugin) (t : ℕ) : Op → UruPlugin
  | .restart => { s with manager := none }.runBackend t
  | .setup => { s with manager := none }.setTask t none
  | .delete => { s with manager := none }.stopIndexer t .delete
  | .unload => s.setTask t none

/-- An operation that has let the boot settle, or that has stopped the indexer
before the sidecar. -/
def stopStored (s : UruPlugin) (t : ℕ) (op : Op) : UruPlugin :=
  match s.manager with
  | some m => s.stopManager t op m
  | none => s.managerStopped t op

/-- The end of `stopIndexer`. -/
def indexerStopped (s : UruPlugin) (had : Bool) : UruPlugin :=
  { s with indexer := if had then none else s.indexer }

def resume (s : UruPlugin) (t : ℕ) : Task → Option UruPlugin
  | .joined b => if s.settled (some b) then some (s.setTask t none) else none
  | .waiting op b => if s.settled b then some (s.stopStored t op) else none
  | .stopping op m awaited =>
    if (s.managers m).exited awaited then some (s.managerStopped t op) else none
  | .flushing op had =>
    match op with
    | .unload => some ((s.indexerStopped had).stopStored t .unload)
    | _ => some ((s.indexerStopped had).setTask t (some .saving))
  | .saving => some ({ s with deleted := true }.setTask t none)

def bootEnded (s : UruPlugin) : UruPlugin := { s with boot := none }

def startSidecar (s : UruPlugin) : UruPlugin :=
  { s.setManager s.nextManager Manager.fresh.start with
    manager := some s.nextManager, nextManager := s.nextManager+1,
    boot := some (.starting s.nextManager) }

/-- After `startSidecar`: undone if the plugin was unloaded meanwhile. -/
def sidecarStarted (s : UruPlugin) : UruPlugin :=
  if s.unloaded then
    match s.manager with
    | some m =>
      { s.setManager m (s.managers m).stop with
        boot := some (.undoing (some (m,(s.managers m).awaited))) }
    | none => { s with boot := some (.undoing none) }
  else { s with eventOffs := [], boot := some (.flushing s.indexer.isSome) }

def newIndexer (s : UruPlugin) : UruPlugin :=
  { s with indexer := some s.nextIndexer, nextIndexer := s.nextIndexer+1, boot := some .loading }

/-- The vault events go to the indexer that is stored now. Without one the
boot rejects. -/
def registerVaultEvents (s : UruPlugin) : UruPlugin :=
  match s.indexer with
  | some i => { s with eventOffs := i::s.eventOffs, boot := none }
  | none => s.bootEnded

/-- What the await of the boot resolves to; `save` if the namespace is new. -/
def bootResume (s : UruPlugin) (save : Bool) : Boot → Option UruPlugin
  | .savingKey => some { s with boot := some .ensuring }
  | .ensuring => some (if s.unloaded then s.bootEnded else { s with boot := some .persisting })
  | .persisting => some s.startSidecar
  | .starting m =>
    if (s.managers m).starting then none
    else some (if save then { s with boot := some (.savingNamespace m) } else s.sidecarStarted)
  | .savingNamespace _ => some s.sidecarStarted
  | .undoing none => some { s.bootEnded with manager := none }
  | .undoing (some (m,awaited)) =>
    if (s.managers m).exited awaited then some { s.bootEnded with manager := none } else none
  | .flushing had => some (s.indexerStopped had).newIndexer
  | .loading => some s.registerVaultEvents

/-- The await of the boot rejects. A flush does not. -/
def bootReject (s : UruPlugin) (unseen : Bool) : Boot → Option UruPlugin
  | .starting m =>
    if (s.managers m).starting then none
    else some (s.setManager m ((s.managers m).startFailed unseen)).bootEnded
  | .flushing _ => none
  | _ => some s.bootEnded

end UruPlugin

/-- The calls from the UI, which take a free number, the resumptions of the
calls and of the boot, and the steps of the managers. -/
inductive Event where
  | runBackend (t : ℕ)
  | restartBackend (t : ℕ)
  | runSetup (t : ℕ)
  | deleteData (t : ℕ)
  | onunload (t : ℕ)
  | resume (t : ℕ)
  | stopRejects (t : ℕ)
  | bootResume (save : Bool)
  | bootReject (unseen : Bool)
  | manager (m : ℕ) (e : Manager.Event)

def step (s : UruPlugin) : Event → Option UruPlugin
  | .runBackend t => if (s.tasks t).isNone then some (s.runBackend t) else none
  | .restartBackend t => if (s.tasks t).isNone then some (s.restartBackend t) else none
  | .runSetup t => if (s.tasks t).isNone then some (s.runSetup t) else none
  | .deleteData t => if (s.tasks t).isNone then some (s.deleteData t) else none
  | .onunload t => if (s.tasks t).isNone then some (s.onunload t) else none
  | .resume t => (s.tasks t).bind (s.resume t)
  | .stopRejects t =>
    match s.tasks t with
    | some (.stopping _ _ _) => some (s.setTask t none)
    | _ => none
  | .bootResume save => s.boot.bind (s.bootResume save)
  | .bootReject unseen => s.boot.bind (s.bootReject unseen)
  | .manager m e => ((s.managers m).step e).map (s.setManager m)

def init (vaultKey : Bool) : UruPlugin where
  manager := none
  managers := fun _ => Manager.fresh
  nextManager := 0
  indexer := none
  nextIndexer := 0
  eventOffs := []
  boot := none
  boots := 0
  vaultKey := vaultKey
  unloaded := false
  tasks := fun _ => none
  deleted := false

end Uru.Plugin.Backend
