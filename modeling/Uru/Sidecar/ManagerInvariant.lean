import Uru.Sidecar.Manager

/-!
# Orderly runs of the sidecar manager

A run is orderly when the owner starts only an idle manager, stops none whose
start has not reached its spawn, and no child exits under a restart that is
still starting it. Then every running child is the one the manager holds, one
restart chain is pending at most, and a stop leaves nothing that could spawn.
-/

set_option autoImplicit false

namespace Uru.Sidecar
open Uru.Lib.Machine

def AllEnded (s : Manager) : Prop := ∀ i, (s.children i).fate ≠ .running

/-- The calls of `start` that have not spawned yet. -/
def Spawning (k : Option Task) : Prop := ∃ caller, k = some (.takeOver caller) ∨ k = some (.pickPort caller)

/-- The calls that belong to a chain of `scheduleRestart`. -/
def OnChain (k : Option Task) : Prop :=
  k = some .backoff ∨ k = some (.takeOver .restart) ∨ k = some (.pickPort .restart) ∨
    k = some (.health .restart) ∨ k = some (.pause .restart)

def Stopping (k : Option Task) : Prop :=
  (∃ i b, k = some (.race i b) ∨ k = some (.awaitExit i b)) ∨ k = some .shutdown

def Bystander (k : Option Task) : Prop :=
  k = none ∨ k = some (.health .owner) ∨ k = some (.pause .owner)

/-- Nothing is pending and nothing is alive. -/
def Quiet (s : Manager) : Prop := (∀ t, s.tasks t = none) ∧ AllEnded s

def Orderly (s : Manager) : Event → Prop
  | .start _ => Quiet s
  | .exit _ _ _ => s.stoppedByUs = false → s.restartAttempts < restartBackoffMs.length →
      ∀ t, OnChain (s.tasks t) → s.tasks t = some .backoff
  | .stop _ => ∀ t, ¬ Spawning (s.tasks t)
  | _ => True

structure Inv (s : Manager) : Prop where
  held : ∀ i, (s.children i).fate = .running →
    s.proc = some i ∧ s.client = some ((s.children i).port,(s.children i).token)
  spawning : ∀ t, Spawning (s.tasks t) → AllEnded s ∧ ∀ u, u ≠ t → Bystander (s.tasks u)
  chain : ∀ t u, OnChain (s.tasks t) → OnChain (s.tasks u) → t = u
  backoff : ∀ t, s.tasks t = some .backoff → s.stoppedByUs = true ∨ AllEnded s
  stopping : ∀ t, Stopping (s.tasks t) → s.stoppedByUs = true
  awaited : ∀ t i b, s.tasks t = some (.race i b) ∨ s.tasks t = some (.awaitExit i b) →
    (∀ j, (s.children j).fate = .running → j = i) ∧ (b = true → (s.children i).fate ≠ .running)
  asked : ∀ t, s.tasks t = some .shutdown → AllEnded s
  final : s.stopped = true → s.stoppedByUs = true ∧ AllEnded s ∧ ∀ t, ¬ Spawning (s.tasks t)

theorem inv_init : Inv init := by
  refine ⟨?_,?_,?_,?_,?_,?_,?_,?_⟩ <;> simp [init, Spawning, OnChain, Stopping]

/-- The parts of a manager that the invariant speaks of are the same, but for
children that were killed or have ended. -/
structure Alike (s s' : Manager) : Prop where
  proc : s'.proc = s.proc
  client : s'.client = s.client
  stoppedByUs : s'.stoppedByUs = s.stoppedByUs
  stopped : s'.stopped = s.stopped
  tasks : s'.tasks = s.tasks
  running : ∀ i, (s'.children i).fate = .running → (s.children i).fate = .running
  port : ∀ i, (s'.children i).port = (s.children i).port
  token : ∀ i, (s'.children i).token = (s.children i).token

theorem inv_alike (s s' : Manager) (h : Inv s) (ha : Alike s s') : Inv s' := by
  have hall : AllEnded s → AllEnded s' := fun hs i hi => hs i (ha.running i hi)
  refine ⟨fun i hi => ?_,fun t ht => ?_,?_,fun t ht => ?_,fun t ht => ?_,fun t i b ht => ?_,
    fun t ht => ?_,fun hs => ?_⟩
  · rw [ha.proc, ha.client, ha.port, ha.token]
    exact h.held i (ha.running i hi)
  · rw [ha.tasks] at ht ⊢
    exact ⟨hall (h.spawning t ht).1,(h.spawning t ht).2⟩
  · rw [ha.tasks]
    exact h.chain
  · rw [ha.tasks] at ht
    rw [ha.stoppedByUs]
    exact (h.backoff t ht).imp id hall
  · rw [ha.tasks] at ht
    rw [ha.stoppedByUs]
    exact h.stopping t ht
  · rw [ha.tasks] at ht
    obtain ⟨honly, hended⟩ := h.awaited t i b ht
    exact ⟨fun j hj => honly j (ha.running j hj),fun hb hi => hended hb (ha.running i hi)⟩
  · rw [ha.tasks] at ht
    exact hall (h.asked t ht)
  · rw [ha.stopped] at hs
    rw [ha.stoppedByUs, ha.tasks]
    exact ⟨(h.final hs).1,hall (h.final hs).2.1,(h.final hs).2.2⟩

/-- Only what the invariant does not speak of differs. -/
theorem alike_same (s s' : Manager) (hproc : s'.proc = s.proc) (hclient : s'.client = s.client)
    (hstop : s'.stoppedByUs = s.stoppedByUs) (hstopped : s'.stopped = s.stopped)
    (htasks : s'.tasks = s.tasks) (hchildren : s'.children = s.children) : Alike s s' :=
  ⟨hproc,hclient,hstop,hstopped,htasks,fun i hi => hchildren ▸ hi,fun i => by rw [hchildren],
    fun i => by rw [hchildren]⟩

theorem alike_killTree (s : Manager) (i : ℕ) : Alike s (s.killTree i) := by
  rw [Manager.killTree]
  split
  · refine ⟨rfl,rfl,rfl,rfl,rfl,fun j => ?_,fun j => ?_,fun j => ?_⟩ <;>
      by_cases hj : j = i <;> simp [Manager.setChild, hj]
  · exact alike_same _ _ rfl rfl rfl rfl rfl rfl

theorem alike_killGroup (s : Manager) : Alike s s.killGroup := by
  rw [Manager.killGroup]
  split
  · exact alike_same _ _ rfl rfl rfl rfl rfl rfl
  · exact alike_killTree s _

theorem alike_check (s : Manager) (i : ℕ) (dead : Bool) : Alike s (s.check i dead) :=
  (alike_same _ _ rfl rfl rfl rfl rfl rfl)

theorem inv_stoppedByUs (s : Manager) (h : Inv s) : Inv { s with stoppedByUs := true } :=
  ⟨h.held,h.spawning,h.chain,fun _ _ => Or.inl rfl,fun _ _ => rfl,h.awaited,h.asked,
    fun hs => ⟨rfl,(h.final hs).2⟩⟩

theorem running_held (s : Manager) (h : Inv s) (i j : ℕ) (hi : (s.children i).fate = .running)
    (hj : (s.children j).fate = .running) : i = j := by
  have := (h.held i hi).1.symm.trans (h.held j hj).1
  simpa using this

theorem setTask_self (s : Manager) (t : ℕ) (k : Option Task) : (s.setTask t k).tasks t = k := by
  simp [Manager.setTask]

theorem setTask_other (s : Manager) (t u : ℕ) (k : Option Task) (h : u ≠ t) :
    (s.setTask t k).tasks u = s.tasks u := by
  simp [Manager.setTask, h]

/-- What a task may become: it takes no new role unless the role is justified
by the rest of the manager. -/
structure Allowed (s : Manager) (t : ℕ) (k : Option Task) : Prop where
  spawning : Spawning k → AllEnded s ∧ s.stopped = false ∧ ∀ u, u ≠ t → Bystander (s.tasks u)
  beside : Bystander k ∨ ∀ u, u ≠ t → ¬ Spawning (s.tasks u)
  chain : OnChain k → ∀ u, u ≠ t → ¬ OnChain (s.tasks u)
  backoff : k = some .backoff → s.stoppedByUs = true ∨ AllEnded s
  stopping : Stopping k → s.stoppedByUs = true
  awaited : ∀ i b, k = some (.race i b) ∨ k = some (.awaitExit i b) →
    (∀ j, (s.children j).fate = .running → j = i) ∧ (b = true → (s.children i).fate ≠ .running)
  asked : k = some .shutdown → AllEnded s

theorem inv_setTask (s : Manager) (h : Inv s) (t : ℕ) (k : Option Task) (ha : Allowed s t k) :
    Inv (s.setTask t k) := by
  have hself := setTask_self s t k
  have hother := setTask_other s t
  refine ⟨h.held,fun u hu => ?_,fun u v hu hv => ?_,fun u hu => ?_,fun u hu => ?_,
    fun u i b hu => ?_,fun u hu => ?_,fun hs => ?_⟩
  · by_cases hut : u = t
    · subst hut
      rw [hself] at hu
      refine ⟨(ha.spawning hu).1,fun v hv => ?_⟩
      rw [hother v k hv]
      exact (ha.spawning hu).2.2 v hv
    · rw [hother u k hut] at hu
      refine ⟨(h.spawning u hu).1,fun v hv => ?_⟩
      by_cases hvt : v = t
      · subst hvt
        rw [hself]
        exact ha.beside.resolve_right (fun hn => hn u hut hu)
      · rw [hother v k hvt]
        exact (h.spawning u hu).2 v hv
  · by_cases hut : u = t
    · by_cases hvt : v = t
      · exact hut.trans hvt.symm
      · rw [hut, hself] at hu
        rw [hother v k hvt] at hv
        exact absurd hv (ha.chain hu v hvt)
    · by_cases hvt : v = t
      · rw [hvt, hself] at hv
        rw [hother u k hut] at hu
        exact absurd hu (ha.chain hv u hut)
      · rw [hother u k hut] at hu
        rw [hother v k hvt] at hv
        exact h.chain u v hu hv
  · by_cases hut : u = t
    · rw [hut, hself] at hu
      exact ha.backoff hu
    · rw [hother u k hut] at hu
      exact h.backoff u hu
  · by_cases hut : u = t
    · rw [hut, hself] at hu
      exact ha.stopping hu
    · rw [hother u k hut] at hu
      exact h.stopping u hu
  · by_cases hut : u = t
    · rw [hut, hself] at hu
      exact ha.awaited i b hu
    · rw [hother u k hut] at hu
      exact h.awaited u i b hu
  · by_cases hut : u = t
    · rw [hut, hself] at hu
      exact ha.asked hu
    · rw [hother u k hut] at hu
      exact h.asked u hu
  · refine ⟨(h.final hs).1,(h.final hs).2.1,fun u hu => ?_⟩
    by_cases hut : u = t
    · rw [hut, hself] at hu
      have := (ha.spawning hu).2.1
      rw [show s.stopped = true from hs] at this
      cases this
    · rw [hother u k hut] at hu
      exact (h.final hs).2.2 u hu

theorem allowed_none (s : Manager) (t : ℕ) : Allowed s t none := by
  refine ⟨?_,Or.inl (Or.inl rfl),?_,?_,?_,?_,?_⟩ <;> simp [Spawning, OnChain, Stopping]

/-- A call that the restart chain made is alone: no other call is about to
spawn or on a chain. -/
def Alone (s : Manager) (t : ℕ) (caller : Caller) : Prop :=
  caller = .restart → ∀ u, u ≠ t → ¬ Spawning (s.tasks u) ∧ ¬ OnChain (s.tasks u)

theorem bystander_not (k : Option Task) (h : Bystander k) : ¬ Spawning k ∧ ¬ OnChain k := by
  rcases h with rfl | rfl | rfl <;> simp [Spawning, OnChain]

theorem alone_onChain (s : Manager) (h : Inv s) (t : ℕ) (ht : OnChain (s.tasks t)) (u : ℕ)
    (hu : u ≠ t) : ¬ Spawning (s.tasks u) ∧ ¬ OnChain (s.tasks u) :=
  ⟨fun hs => (bystander_not _ ((h.spawning u hs).2 t hu.symm)).2 ht,
    fun hc => hu (h.chain u t hc ht)⟩

theorem alone_waiting (s : Manager) (h : Inv s) (t : ℕ) (caller : Caller)
    (ht : s.tasks t = some (.health caller) ∨ s.tasks t = some (.pause caller)) :
    Alone s t caller := by
  rintro rfl u hu
  refine alone_onChain s h t ?_ u hu
  rcases ht with ht | ht <;> simp [OnChain, ht]

theorem allowed_waiting (s : Manager) (t : ℕ) (caller : Caller) (ha : Alone s t caller)
    (k : Task) (hk : k = .health caller ∨ k = .pause caller) : Allowed s t (some k) := by
  have hs : ¬ Spawning (some k) := by rcases hk with rfl | rfl <;> simp [Spawning]
  have hstop : ¬ Stopping (some k) := by rcases hk with rfl | rfl <;> simp [Stopping]
  refine ⟨fun h => absurd h hs,?_,?_,?_,fun h => absurd h hstop,?_,?_⟩
  · cases caller with
    | owner => exact Or.inl (by rcases hk with rfl | rfl <;> simp [Bystander])
    | restart => exact Or.inr (fun u hu => (ha rfl u hu).1)
  · cases caller with
    | owner => rcases hk with rfl | rfl <;> simp [OnChain]
    | restart => exact fun _ u hu => (ha rfl u hu).2
  · rcases hk with rfl | rfl <;> simp
  · rcases hk with rfl | rfl <;> simp
  · rcases hk with rfl | rfl <;> simp

theorem inv_scheduleRestart (s : Manager) (h : Inv s) (t : ℕ) (ha : s.restartAttempts <
      restartBackoffMs.length → ∀ u, u ≠ t → ¬ Spawning (s.tasks u) ∧ ¬ OnChain (s.tasks u))
    (hb : s.stoppedByUs = true ∨ AllEnded s) : Inv (s.scheduleRestart t) := by
  rw [Manager.scheduleRestart]
  split
  · exact inv_setTask s h t none (allowed_none s t)
  · rename_i hlt
    have halone := ha (by omega)
    have hcount : Inv { s with restartAttempts := s.restartAttempts+1 } :=
      inv_alike s _ h (alike_same _ _ rfl rfl rfl rfl rfl rfl)
    refine inv_setTask _ hcount t _ ⟨?_,Or.inr (fun u hu => (halone u hu).1),
      fun _ u hu => (halone u hu).2,fun _ => hb,?_,?_,?_⟩ <;> simp [Spawning, Stopping]

theorem inv_rejected (s : Manager) (h : Inv s) (t : ℕ) (caller : Caller) (ha : Alone s t caller)
    (hb : s.stoppedByUs = true ∨ AllEnded s) : Inv (s.rejected t caller) := by
  cases caller with
  | owner => exact inv_setTask s h t none (allowed_none s t)
  | restart => exact inv_scheduleRestart s h t (fun _ => ha rfl) hb

theorem allEnded_held (s : Manager) (h : Inv s)
    (hp : ∀ i, s.proc = some i → (s.children i).fate ≠ .running) : AllEnded s :=
  fun i hi => hp i (h.held i hi).1 hi

theorem ended_of_exitCode (c : Child) (h : c.exitCode.isSome) : c.fate ≠ .running := by
  intro hr
  simp [Child.exitCode, hr] at h

/-- After the clean-up of a failed start nothing is alive, or the manager
counts it as stopped. -/
theorem inv_cleanup (s : Manager) (h : Inv s) :
    Inv s.cleanup ∧ (s.cleanup.stoppedByUs = true ∨ AllEnded s.cleanup) ∧
      s.cleanup.tasks = s.tasks := by
  unfold Manager.cleanup
  split
  · rename_i hp
    exact ⟨h,Or.inr (allEnded_held s h (fun i hi => by rw [hp] at hi; cases hi)),rfl⟩
  · rename_i i hp
    split
    · rename_i hc
      refine ⟨inv_alike s _ h (alike_check s i true),Or.inr (allEnded_held s h (fun j hj => ?_)),rfl⟩
      rw [hp, Option.some.injEq] at hj
      exact hj ▸ ended_of_exitCode _ hc
    · have hkill := alike_killGroup { s.check i false with stoppedByUs := true }
      have hinv := inv_alike _ _ (inv_stoppedByUs _ (inv_alike s _ h (alike_check s i false))) hkill
      exact ⟨inv_alike _ _ hinv (alike_same _ _ rfl rfl rfl rfl rfl rfl),
        Or.inl hkill.stoppedByUs,hkill.tasks⟩

theorem inv_failed (s : Manager) (h : Inv s) (t : ℕ) (caller : Caller) (ha : Alone s t caller) :
    Inv (s.failed t caller) := by
  obtain ⟨hinv, hb, htasks⟩ := inv_cleanup s h
  refine inv_rejected _ hinv t caller ?_ hb
  rw [Alone, htasks]
  exact ha

theorem inv_awaitReady (s : Manager) (h : Inv s) (t : ℕ) (caller : Caller)
    (ha : Alone s t caller) : Inv (s.awaitReady t caller) := by
  unfold Manager.awaitReady
  split
  · exact inv_failed s h t caller ha
  · rename_i i _
    split
    · exact inv_failed _ (inv_alike s _ h (alike_check s i true)) t caller ha
    · exact inv_setTask _ (inv_alike s _ h (alike_check s i false)) t _
        (allowed_waiting (s.check i false) t caller ha _ (Or.inl rfl))

/-- A call about to spawn has the manager to itself, but for an owner's start
that is still polling. -/
theorem inv_spawn (s : Manager) (h : Inv s) (t : ℕ) (caller : Caller)
    (ht : s.tasks t = some (.pickPort caller)) (port token : ℕ) (failure : Option ℕ) :
    Inv (s.spawn t caller port token failure) := by
  obtain ⟨hended, hbeside⟩ := h.spawning t ⟨caller,Or.inr ht⟩
  have hstopped : s.stopped = false := by
    by_contra hn
    exact (h.final (by simpa using hn)).2.2 t ⟨caller,Or.inr ht⟩
  let s' : Manager := { s.setTask t none with
    port := port, token := token, client := some (port,token), proc := some s.next,
    children := Function.update s.children s.next ⟨port,token,failure.isNone,.running,false⟩ }
  have hby : ∀ u, Bystander (s'.tasks u) := by
    intro u
    by_cases hu : u = t
    · subst hu
      exact Or.inl (setTask_self s u none)
    · have := hbeside u hu
      rwa [← setTask_other s t u none hu] at this
  have hinv : Inv s' := by
    refine ⟨fun i hi => ?_,fun u hu => absurd hu (bystander_not _ (hby u)).1,
      fun u _ hu => absurd hu (bystander_not _ (hby u)).2,fun u hu => ?_,fun u hu => ?_,
      fun u i b hu => ?_,fun u hu => ?_,fun hs => ?_⟩
    · by_cases hin : i = s.next
      · subst hin
        simp [s']
      · simp only [s', Function.update_of_ne hin] at hi
        exact absurd hi (hended i)
    · rcases hby u with hb | hb | hb <;> simp [hb] at hu
    · rcases hby u with hb | hb | hb <;> simp [hb, Stopping] at hu
    · rcases hby u with hb | hb | hb <;> simp [hb] at hu
    · rcases hby u with hb | hb | hb <;> simp [hb] at hu
    · rw [show s'.stopped = s.stopped from rfl, hstopped] at hs
      cases hs
  have hready := inv_awaitReady s' hinv t caller (fun _ u _ => bystander_not _ (hby u))
  cases failure with
  | none => exact inv_alike _ _ hready (alike_same _ _ rfl rfl rfl rfl rfl rfl)
  | some errno =>
    rw [show s.spawn t caller port token (some errno) = { (s'.awaitReady t caller).setChild
      (s'.awaitReady t caller).next { (s'.awaitReady t caller).children
        (s'.awaitReady t caller).next with fate := .notSpawned errno } with
      next := (s'.awaitReady t caller).next+1, spawnError := true } from rfl]
    refine inv_alike _ _ hready ⟨rfl,rfl,rfl,rfl,rfl,fun i hi => ?_,fun i => ?_,fun i => ?_⟩
    · by_cases hin : i = (s'.awaitReady t caller).next
      · simp [Manager.setChild, hin] at hi
      · simpa [Manager.setChild, hin] using hi
    · by_cases hin : i = (s'.awaitReady t caller).next <;> simp [Manager.setChild, hin]
    · by_cases hin : i = (s'.awaitReady t caller).next <;> simp [Manager.setChild, hin]

theorem inv_resolved (s : Manager) (h : Inv s) (t : ℕ) (hs : s.stoppedByUs = true)
    (hended : AllEnded s) (hno : ∀ u, u ≠ t → ¬ Spawning (s.tasks u)) : Inv (s.resolved t) := by
  have hset := inv_setTask s h t none (allowed_none s t)
  refine ⟨fun i hi => absurd hi (hended i),hset.spawning,hset.chain,hset.backoff,hset.stopping,
    hset.awaited,hset.asked,fun _ => ⟨hs,hended,fun u hu => ?_⟩⟩
  by_cases hut : u = t
  · subst hut
    simp [Manager.resolved, Manager.setTask, Spawning] at hu
  · exact hno u hut (by simpa [Manager.resolved, Manager.setTask, hut] using hu)

theorem inv_askShutdown (s : Manager) (h : Inv s) (t : ℕ) (hs : s.stoppedByUs = true)
    (hended : AllEnded s) (hno : ∀ u, u ≠ t → ¬ Spawning (s.tasks u)) : Inv (s.askShutdown t) := by
  unfold Manager.askShutdown
  split
  · refine inv_setTask s h t _ ⟨?_,Or.inr hno,?_,?_,fun _ => hs,?_,fun _ => hended⟩ <;>
      simp [Spawning, OnChain]
  · exact inv_resolved s h t hs hended hno

theorem inv_await (s : Manager) (h : Inv s) (t i : ℕ) (b : Bool) (k : Task)
    (hk : k = .race i b ∨ k = .awaitExit i b) (hs : s.stoppedByUs = true)
    (hno : ∀ u, u ≠ t → ¬ Spawning (s.tasks u))
    (hi : (∀ j, (s.children j).fate = .running → j = i) ∧
      (b = true → (s.children i).fate ≠ .running)) : Inv (s.setTask t (some k)) := by
  refine inv_setTask s h t _ ⟨?_,Or.inr hno,?_,?_,fun _ => hs,?_,?_⟩
  · rcases hk with rfl | rfl <;> simp [Spawning]
  · rcases hk with rfl | rfl <;> simp [OnChain]
  · rcases hk with rfl | rfl <;> simp
  · intro j b' hj
    rcases hk with rfl | rfl <;> simp at hj <;> rw [← hj.1, ← hj.2] <;> exact hi
  · rcases hk with rfl | rfl <;> simp

theorem inv_stop (isWin : Bool) (s : Manager) (h : Inv s) (t : ℕ)
    (hno : ∀ u, ¬ Spawning (s.tasks u)) : Inv (s.stop isWin t) := by
  have hs := inv_stoppedByUs s h
  unfold Manager.stop
  simp only
  split
  · rename_i hp
    exact inv_askShutdown _ hs t rfl
      (allEnded_held _ hs (fun i hi => by rw [show _ = _ from hp] at hi; cases hi)) (fun u _ => hno u)
  · rename_i i hp
    have honly : ∀ j, (s.children j).fate = .running → j = i := fun j hj => by
      have := (h.held j hj).1.symm.trans hp
      simpa using this
    split
    · rename_i hc
      refine inv_askShutdown _ (inv_alike _ _ hs (alike_check _ i true)) t rfl (fun j hj => ?_)
        (fun u _ => hno u)
      exact ended_of_exitCode _ hc (honly j hj ▸ hj)
    · have hcheck := inv_alike _ _ hs (alike_check { s with stoppedByUs := true } i false)
      split
      · exact inv_await _ hcheck t i false _ (Or.inl rfl) rfl (fun u _ => hno u)
          ⟨honly,by simp⟩
      · have hkill := alike_killGroup ({ s with stoppedByUs := true }.check i false)
        refine inv_await _ (inv_alike _ _ hcheck hkill) t i false _ (Or.inr rfl) hkill.stoppedByUs
          (fun u _ => ?_) ⟨fun j hj => honly j (hkill.running j hj),by simp⟩
        rw [hkill.tasks]
        exact hno u

theorem sawExit_roles (i : ℕ) (k : Option Task) :
    (Spawning (k.map (Task.sawExit i)) ↔ Spawning k) ∧
    (OnChain (k.map (Task.sawExit i)) ↔ OnChain k) ∧
    (Stopping (k.map (Task.sawExit i)) ↔ Stopping k) ∧
    (Bystander (k.map (Task.sawExit i)) ↔ Bystander k) ∧
    (k.map (Task.sawExit i) = some .backoff ↔ k = some .backoff) ∧
    (k.map (Task.sawExit i) = some .shutdown ↔ k = some .shutdown) := by
  rcases k with _ | k
  · simp
  · cases k <;> simp [Task.sawExit, Spawning, OnChain, Stopping, Bystander]

theorem sawExit_awaited (i : ℕ) (k : Option Task) (j : ℕ) (b : Bool)
    (h : k.map (Task.sawExit i) = some (.race j b) ∨ k.map (Task.sawExit i) = some (.awaitExit j b)) :
    ∃ b', (k = some (.race j b') ∨ k = some (.awaitExit j b')) ∧ b = (b' || j = i) := by
  rcases k with _ | k
  · simp at h
  · cases k with
    | race l b' =>
      simp only [Option.map_some, Task.sawExit, Option.some.injEq, Task.race.injEq, reduceCtorEq,
        or_false] at h
      obtain ⟨rfl, rfl⟩ := h
      exact ⟨b',Or.inl rfl,rfl⟩
    | awaitExit l b' =>
      simp only [Option.map_some, Task.sawExit, Option.some.injEq, Task.awaitExit.injEq,
        reduceCtorEq, false_or] at h
      obtain ⟨rfl, rfl⟩ := h
      exact ⟨b',Or.inr rfl,rfl⟩
    | takeOver c => simp [Task.sawExit] at h
    | pickPort c => simp [Task.sawExit] at h
    | health c => simp [Task.sawExit] at h
    | pause c => simp [Task.sawExit] at h
    | backoff => simp [Task.sawExit] at h
    | shutdown => simp [Task.sawExit] at h

theorem inv_sawExit (s : Manager) (h : Inv s) (i : ℕ) (hi : (s.children i).fate ≠ .running) :
    Inv { s with tasks := fun u => (s.tasks u).map (Task.sawExit i) } := by
  have hr := fun u => sawExit_roles i (s.tasks u)
  refine ⟨h.held,fun t ht => ?_,fun t u ht hu => ?_,fun t ht => ?_,fun t ht => ?_,
    fun t j b ht => ?_,fun t ht => ?_,fun hs => ?_⟩
  · obtain ⟨hended, hby⟩ := h.spawning t ((hr t).1.mp ht)
    exact ⟨hended,fun u hu => (hr u).2.2.2.1.mpr (hby u hu)⟩
  · exact h.chain t u ((hr t).2.1.mp ht) ((hr u).2.1.mp hu)
  · exact h.backoff t ((hr t).2.2.2.2.1.mp ht)
  · exact h.stopping t ((hr t).2.2.1.mp ht)
  · obtain ⟨b', hk, rfl⟩ := sawExit_awaited i (s.tasks t) j b ht
    obtain ⟨honly, hended⟩ := h.awaited t j b' hk
    refine ⟨honly,fun hb => ?_⟩
    rcases Bool.or_eq_true_iff.mp hb with hb | hb
    · exact hended hb
    · simp only [decide_eq_true_eq] at hb
      exact hb ▸ hi
  · exact h.asked t ((hr t).2.2.2.2.2.mp ht)
  · obtain ⟨hstop, hended, hno⟩ := h.final hs
    exact ⟨hstop,hended,fun u hu => hno u ((hr u).1.mp hu)⟩

theorem inv_exit (s : Manager) (h : Inv s) (i : ℕ) (d : Death) (t : ℕ)
    (hi : (s.children i).fate = .running)
    (ho : Orderly s (.exit i d t)) : Inv (s.exit i d t) := by
  have hdead : Inv (s.setChild i { s.children i with fate := d.fate }) := by
    refine inv_alike s _ h ⟨rfl,rfl,rfl,rfl,rfl,fun j hj => ?_,fun j => ?_,fun j => ?_⟩
    · by_cases hji : j = i
      · exact hji ▸ hi
      · simpa [Manager.setChild, hji] using hj
    · by_cases hji : j = i <;> simp [Manager.setChild, hji]
    · by_cases hji : j = i <;> simp [Manager.setChild, hji]
  have hfate : ∀ j, ((s.setChild i { s.children i with fate := d.fate }).children j).fate ≠
      .running := by
    intro j hj
    by_cases hji : j = i
    · subst hji
      cases d <;> simp [Manager.setChild, Death.fate] at hj
    · simp only [Manager.setChild, Function.update_of_ne hji] at hj
      exact hji (running_held s h j i hj hi)
  have hsaw := inv_sawExit _ hdead i (hfate i)
  unfold Manager.exit
  simp only
  split
  · exact hsaw
  · rename_i hstop
    have hstop : s.stoppedByUs = false := (Bool.not_eq_true _).mp hstop
    refine inv_scheduleRestart _ hsaw t (fun hlt u _ => ?_) (Or.inr hfate)
    constructor
    · intro hu
      exact (h.spawning u ((sawExit_roles i (s.tasks u)).1.mp hu)).1 i hi
    · intro hu
      have hback := ho hstop hlt u ((sawExit_roles i (s.tasks u)).2.1.mp hu)
      rcases h.backoff u hback with hb | hb
      · rw [hstop] at hb
        cases hb
      · exact hb i hi

theorem inv_takenOver (s : Manager) (h : Inv s) (t : ℕ) (caller : Caller)
    (ht : s.tasks t = some (.takeOver caller)) :
    Inv { s.setTask t (some (.pickPort caller)) with stoppedByUs := false, spawnError := false } := by
  have hspawning : Spawning (s.tasks t) := ⟨caller,Or.inl ht⟩
  obtain ⟨hended, hby⟩ := h.spawning t hspawning
  have hstopped : s.stopped = false := by
    by_contra hn
    exact (h.final (by simpa using hn)).2.2 t hspawning
  have hnot : ∀ u, s.tasks u ≠ some .backoff ∧ ¬ Stopping (s.tasks u) := by
    intro u
    by_cases hu : u = t
    · subst hu
      simp [ht, Stopping]
    · rcases hby u hu with hb | hb | hb <;> simp [hb, Stopping]
  have hreset : Inv { s with stoppedByUs := false, spawnError := false } :=
    ⟨h.held,h.spawning,h.chain,fun u hu => absurd hu (hnot u).1,fun u hu => absurd hu (hnot u).2,
      h.awaited,h.asked,fun hs => by rw [show s.stopped = true from hs] at hstopped; cases hstopped⟩
  refine inv_setTask _ hreset t _ ⟨fun _ => ⟨hended,hstopped,hby⟩,
    Or.inr (fun u hu => (bystander_not _ (hby u hu)).1),
    fun _ u hu => (bystander_not _ (hby u hu)).2,?_,?_,?_,?_⟩ <;> simp [Stopping]

theorem inv_backoffOver (s : Manager) (h : Inv s) (t : ℕ) (ht : s.tasks t = some .backoff)
    (hs : s.stoppedByUs = false) : Inv (s.setTask t (some (.takeOver .restart))) := by
  have hended : AllEnded s := (h.backoff t ht).resolve_left (by simp [hs])
  have hstopped : s.stopped = false := by
    by_contra hn
    have := (h.final (by simpa using hn)).1
    simp [hs] at this
  have halone := alone_onChain s h t (by simp [OnChain, ht])
  have hby : ∀ u, u ≠ t → Bystander (s.tasks u) := by
    intro u hu
    obtain ⟨hns, hnc⟩ := halone u hu
    have hstop : ¬ Stopping (s.tasks u) := fun hstop => by
      have := h.stopping u hstop
      simp [hs] at this
    rcases hk : s.tasks u with _ | k
    · exact Or.inl rfl
    · rw [hk] at hns hnc hstop
      cases k with
      | takeOver c => simp [Spawning] at hns
      | pickPort c => simp [Spawning] at hns
      | health c => cases c <;> simp [OnChain, Bystander] at hnc ⊢
      | pause c => cases c <;> simp [OnChain, Bystander] at hnc ⊢
      | backoff => simp [OnChain] at hnc
      | race i b => simp [Stopping] at hstop
      | awaitExit i b => simp [Stopping] at hstop
      | shutdown => simp [Stopping] at hstop
  refine inv_setTask s h t _ ⟨fun _ => ⟨hended,hstopped,hby⟩,
    Or.inr (fun u hu => (halone u hu).1),fun _ u hu => (halone u hu).2,?_,?_,?_,?_⟩ <;>
      simp [Stopping]

theorem inv_start (s : Manager) (h : Inv s) (t : ℕ) (hq : Quiet s) :
    Inv { s.setTask t (some (.takeOver .owner)) with stopped := false } := by
  have hnew : Inv { s with stopped := false } :=
    ⟨h.held,h.spawning,h.chain,h.backoff,h.stopping,h.awaited,h.asked,fun hs => by cases hs⟩
  refine inv_setTask _ hnew t _ ⟨fun _ => ⟨hq.2,rfl,fun u _ => Or.inl (hq.1 u)⟩,
    Or.inr (fun u _ => ?_),?_,?_,?_,?_,?_⟩
  · simp [hq.1 u, Spawning]
  all_goals simp [OnChain, Stopping]

theorem stopping_no_spawning (s : Manager) (h : Inv s) (t : ℕ) (ht : Stopping (s.tasks t)) (u : ℕ)
    (hu : u ≠ t) : ¬ Spawning (s.tasks u) := by
  intro hs
  rcases (h.spawning u hs).2 t hu.symm with hb | hb | hb <;> simp [hb, Stopping] at ht

theorem inv_step (isWin : Bool) (s : Manager) (e : Event) (s' : Manager) (h : Inv s)
    (ho : Orderly s e) (hst : step isWin s e = some s') : Inv s' := by
  cases e with
  | start t =>
    simp only [step] at hst
    split at hst <;> cases hst
    exact inv_start s h t ho
  | takeOverKill t i =>
    simp only [step] at hst
    split at hst <;> cases hst
    exact inv_alike s _ h (alike_killTree s i)
  | takenOver t =>
    simp only [step] at hst
    split at hst <;> cases hst
    rename_i caller ht
    exact inv_takenOver s h t caller ht
  | portPicked t port token failure =>
    simp only [step] at hst
    split at hst <;> cases hst
    rename_i caller ht
    exact inv_spawn s h t caller ht port token failure
  | portFailed t =>
    simp only [step] at hst
    split at hst <;> cases hst
    rename_i caller ht
    obtain ⟨hended, hby⟩ := h.spawning t ⟨caller,Or.inr ht⟩
    exact inv_rejected s h t caller (fun _ u hu => bystander_not _ (hby u hu)) (Or.inr hended)
  | healthReply t reply =>
    simp only [step] at hst
    split at hst <;> cases hst
    rename_i caller ht
    have ha := alone_waiting s h t caller (Or.inl ht)
    cases reply with
    | ok =>
      exact inv_alike _ _ (inv_setTask s h t none (allowed_none s t))
        (alike_same _ _ rfl rfl rfl rfl rfl rfl)
    | error => exact inv_failed s h t caller ha
    | notReady => exact inv_setTask s h t _ (allowed_waiting s t caller ha _ (Or.inr rfl))
  | pauseOver t late =>
    simp only [step] at hst
    split at hst <;> cases hst
    rename_i caller ht
    have ha := alone_waiting s h t caller (Or.inr ht)
    cases late with
    | true => exact inv_failed s h t caller ha
    | false => exact inv_awaitReady s h t caller ha
  | backoffOver t =>
    simp only [step] at hst
    split at hst <;> cases hst
    rename_i ht
    cases hs : s.stoppedByUs with
    | true => exact inv_setTask s h t none (allowed_none s t)
    | false => exact inv_backoffOver s h t ht hs
  | exit i d t =>
    simp only [step] at hst
    split_ifs at hst with hcond
    cases hst
    exact inv_exit s h i d t hcond.1 ho
  | stop t =>
    simp only [step] at hst
    split at hst <;> cases hst
    exact inv_stop isWin s h t ho
  | raceOver t =>
    simp only [step] at hst
    split at hst <;> cases hst
    rename_i i b ht
    have hkill := alike_killGroup s
    have hstop : Stopping (s.tasks t) := Or.inl ⟨i,b,Or.inl ht⟩
    obtain ⟨honly, hended⟩ := h.awaited t i b (Or.inl ht)
    refine inv_await _ (inv_alike s _ h hkill) t i b _ (Or.inr rfl)
      (hkill.stoppedByUs.trans (h.stopping t hstop)) (fun u hu => ?_)
      ⟨fun j hj => honly j (hkill.running j hj),fun hb hi => hended hb (hkill.running i hi)⟩
    rw [hkill.tasks]
    exact stopping_no_spawning s h t hstop u hu
  | exitSeen t =>
    simp only [step] at hst
    split at hst <;> cases hst
    rename_i i ht
    have hstop : Stopping (s.tasks t) := Or.inl ⟨i,true,Or.inr ht⟩
    obtain ⟨honly, hended⟩ := h.awaited t i true (Or.inr ht)
    exact inv_resolved s h t (h.stopping t hstop)
      (fun j hj => hended rfl (honly j hj ▸ hj)) (stopping_no_spawning s h t hstop)
  | shutdownOver t =>
    simp only [step] at hst
    split at hst <;> cases hst
    rename_i ht
    have hstop : Stopping (s.tasks t) := Or.inr ht
    exact inv_resolved s h t (h.stopping t hstop) (h.asked t ht) (stopping_no_spawning s h t hstop)
  | stopTimer t =>
    simp only [step] at hst
    split at hst <;> cases hst
    exact inv_alike s _ h (alike_killGroup s)
  | cleanupTimer i =>
    simp only [step] at hst
    split_ifs at hst
    all_goals cases hst
    · exact inv_alike s _ h (alike_same _ _ rfl rfl rfl rfl rfl rfl)
    · have hkill := inv_alike _ _ (inv_alike s _ h (alike_check s i false))
        (alike_killTree (s.check i false) i)
      exact inv_alike _ _ hkill (alike_same _ _ rfl rfl rfl rfl rfl rfl)

end Uru.Sidecar
