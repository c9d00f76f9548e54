import Uru.Sidecar.ManagerInvariant

/-!
# One sidecar, and none after a stop

Along every orderly run at most one sidecar is alive and unkilled, the manager
holds it with its port and token, and one restart chain is pending at most;
and once a stop has resolved nothing is alive until the owner starts again.
Runs that are not orderly break both.
-/

set_option autoImplicit false

namespace Uru.Sidecar
open Uru.Lib.Machine

/-- Alive and not sent a kill signal. -/
def Live (c : Child) : Prop := c.fate = .running ∧ c.killSent = false

structure SingleSidecar (s : Manager) : Prop where
  single : ∀ i j, Live (s.children i) → Live (s.children j) → i = j
  held : ∀ i, Live (s.children i) →
    s.proc = some i ∧ s.client = some ((s.children i).port,(s.children i).token)
  chain : ∀ t u, OnChain (s.tasks t) → OnChain (s.tasks u) → t = u

theorem inv_single (s : Manager) (h : Inv s) : SingleSidecar s :=
  ⟨fun i j hi hj => running_held s h i j hi.1 hj.1,fun i hi => h.held i hi.1,h.chain⟩

theorem single_sidecar (isWin : Bool) (es : List Event)
    (h : Meets (step isWin) Orderly init es) : Always (step isWin) SingleSidecar init es :=
  always_of_invariant (inv_step isWin) inv_single es init inv_init h

theorem single_sidecar_restart :
    Always (step false) SingleSidecar init [.start 0,.takenOver 0,.portPicked 0 7000 1 none,
      .healthReply 0 .ok,.exit 0 (.code 1) 1,.backoffOver 1] := by
  refine single_sidecar false _ ⟨⟨fun _ => rfl,by simp [AllEnded, init]⟩,fun _ h => ?_⟩
  cases h
  refine ⟨trivial,fun _ h => ?_⟩
  cases h
  refine ⟨trivial,fun _ h => ?_⟩
  cases h
  refine ⟨trivial,fun _ h => ?_⟩
  cases h
  refine ⟨fun _ _ t ht => ?_,fun _ h => ?_⟩
  · rcases t with _ | t
    · simp [OnChain, Manager.setTask, Manager.spawn, Manager.awaitReady, Child.exitCode,
        Manager.check] at ht
    · simp [OnChain, Manager.setTask, Manager.spawn, Manager.awaitReady, Child.exitCode,
        Manager.check, init] at ht
  cases h
  exact ⟨trivial,fun _ _ => trivial⟩

/-- The second child dies while the restart that spawned it is still waiting
for it. Its exit and the failed start both schedule a restart, and both
restarts spawn. -/
theorem two_sidecars : ∃ s, run (step false) init [.start 0,.takenOver 0,
      .portPicked 0 7000 1 none,.healthReply 0 .ok,.exit 0 (.code 1) 1,.backoffOver 1,.takenOver 1,
      .portPicked 1 7001 2 none,.healthReply 1 .notReady,.exit 1 (.code 1) 2,.pauseOver 1 false,
      .backoffOver 1,.backoffOver 2,.takenOver 1,.takenOver 2,.portPicked 1 7002 3 none,
      .portPicked 2 7003 4 none] = some s ∧ Live (s.children 2) ∧ Live (s.children 3) ∧
    ¬ SingleSidecar s := by
  refine ⟨_,rfl,⟨rfl,rfl⟩,⟨rfl,rfl⟩,fun h => ?_⟩
  have := h.single 2 3 ⟨rfl,rfl⟩ ⟨rfl,rfl⟩
  omega

/-- From the end of a `stop` to the next `start` of the owner nothing that
this manager spawned is alive. -/
def StopFinal (s : Manager) : Prop := s.stopped = true → AllEnded s

theorem stop_final (isWin : Bool) (es : List Event)
    (h : Meets (step isWin) Orderly init es) : Always (step isWin) StopFinal init es :=
  always_of_invariant (inv_step isWin) (fun _ hs hstop => (hs.final hstop).2.1) es init inv_init h

theorem stop_final_ready :
    Always (step false) StopFinal init [.start 0,.takenOver 0,.portPicked 0 7000 1 none,.stop 1,
      .exit 0 (.signal "SIGTERM") 2,.exitSeen 1] := by
  refine stop_final false _ ⟨⟨fun _ => rfl,by simp [AllEnded, init]⟩,fun _ h => ?_⟩
  cases h
  refine ⟨trivial,fun _ h => ?_⟩
  cases h
  refine ⟨trivial,fun _ h => ?_⟩
  cases h
  refine ⟨fun t ht => ?_,fun _ h => ?_⟩
  · rcases t with _ | t
    · simp [Spawning, Manager.setTask, Manager.spawn, Manager.awaitReady, Child.exitCode,
        Manager.check] at ht
    · simp [Spawning, Manager.setTask, Manager.spawn, Manager.awaitReady, Child.exitCode,
        Manager.check, init] at ht
  cases h
  refine ⟨(fun h => by cases h),fun _ h => ?_⟩
  cases h
  exact ⟨trivial,fun _ _ => trivial⟩

/-- A stop during the takeover of a crash restart resolves, and then the
restart clears the flag that the stop had set and spawns. -/
theorem spawn_after_stop : ∃ s, run (step false) init [.start 0,.takenOver 0,
      .portPicked 0 7000 1 none,.healthReply 0 .ok,.exit 0 (.code 1) 1,.backoffOver 1,.stop 2,
      .shutdownOver 2,.takenOver 1,.portPicked 1 7001 2 none] = some s ∧ ¬ StopFinal s :=
  ⟨_,rfl,fun h => h rfl 1 rfl⟩

end Uru.Sidecar
