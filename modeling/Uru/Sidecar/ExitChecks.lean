import Uru.Sidecar.ManagerInvariant

/-!
# Who is taken for dead

The manager asks a child's exit code whether it is still there. A child that
died by a signal has none, so the answer is wrong exactly when a look falls on
such a child; and `stop` then waits for an exit that was delivered before.
-/

set_option autoImplicit false

namespace Uru.Sidecar
open Uru.Lib.Machine

/-- A `stop` listens for the exit of the child, and has or has not seen it. -/
def Awaits (k : Option Task) (i : ℕ) (exited : Bool) : Prop :=
  k = some (.race i exited) ∨ k = some (.awaitExit i exited)

/-- Every look at a child told a dead one from a live one, and every `stop`
that still waits for an exit waits for a live child, whose exit it will see. -/
structure ChecksRight (s : Manager) : Prop where
  dead : ∀ c ∈ s.checks, c.dead = c.ended
  awaited : ∀ t i, Awaits (s.tasks t) i false → (s.children i).fate = .running ∧
    ∀ d u, s.tasks u = none → Awaits ((s.exit i d u).tasks t) i true

/-- The child is gone and left no exit code. -/
def Child.Silent (c : Child) : Prop := c.fate ≠ .running ∧ c.exitCode = none

def Misjudged (s : Manager) : Prop := ∃ i, s.proc = some i ∧ (s.children i).Silent

/-- No look falls on a silent child, and none on a live child while the spawn
error of another is recorded. -/
def ChecksReliable (s : Manager) : Event → Prop
  | .portPicked t _ _ _ => (∃ caller, s.tasks t = some (.pickPort caller)) → s.spawnError = false
  | .healthReply t .error => (∃ caller, s.tasks t = some (.health caller)) → ¬ Misjudged s
  | .pauseOver t late => (∃ caller, s.tasks t = some (.pause caller)) → ¬ Misjudged s ∧
      (late = false → s.spawnError = true → ∀ i, s.proc = some i → (s.children i).fate ≠ .running)
  | .stop t => s.tasks t = none → ¬ Misjudged s
  | .cleanupTimer i => i ∈ s.cleanups → (s.children i).hasPid = true → ¬ (s.children i).Silent
  | _ => True

structure ChecksInv (s : Manager) : Prop where
  dead : ∀ c ∈ s.checks, c.dead = c.ended
  awaited : ∀ t i, Awaits (s.tasks t) i false → (s.children i).fate = .running
  known : ∀ i, (s.children i).fate = .running → i < s.next ∧ (s.children i).hasPid = true

theorem checksInv_init : ChecksInv init := by
  refine ⟨?_,?_,?_⟩ <;> simp [init, Awaits]

theorem awaits_exit (s : Manager) (t i : ℕ) (d : Death) (u : ℕ) (h : Awaits (s.tasks t) i false)
    (hu : s.tasks u = none) : Awaits ((s.exit i d u).tasks t) i true := by
  have htu : t ≠ u := by
    rintro rfl
    simp [Awaits, hu] at h
  have hsaw : Awaits ((s.tasks t).map (Task.sawExit i)) i true := by
    rcases h with h | h <;> simp [h, Awaits, Task.sawExit]
  unfold Manager.exit Manager.scheduleRestart
  simp only
  split_ifs
  · exact hsaw
  · rw [setTask_other _ u t _ htu]
    exact hsaw
  · rw [setTask_other _ u t _ htu]
    exact hsaw

theorem checksInv_right (s : Manager) (h : ChecksInv s) : ChecksRight s :=
  ⟨h.dead,fun t i ht => ⟨h.awaited t i ht,fun d u hu => awaits_exit s t i d u ht hu⟩⟩

structure Follows (s s' : Manager) : Prop where
  fate : ∀ i, (s'.children i).fate = (s.children i).fate
  hasPid : ∀ i, (s'.children i).hasPid = (s.children i).hasPid
  next : s'.next = s.next
  checks : ∀ c ∈ s'.checks, c ∈ s.checks ∨ c.dead = c.ended
  awaits : ∀ t i, Awaits (s'.tasks t) i false → Awaits (s.tasks t) i false

theorem follows_same (s s' : Manager) (hchildren : s'.children = s.children)
    (hnext : s'.next = s.next) (hchecks : s'.checks = s.checks) (htasks : s'.tasks = s.tasks) :
    Follows s s' :=
  ⟨fun i => by rw [hchildren],fun i => by rw [hchildren],hnext,fun c hc => Or.inl (hchecks ▸ hc),
    fun t i ht => htasks ▸ ht⟩

theorem follows_trans (s s' s'' : Manager) (h : Follows s s') (h' : Follows s' s'') :
    Follows s s'' := by
  refine ⟨fun i => (h'.fate i).trans (h.fate i),fun i => (h'.hasPid i).trans (h.hasPid i),
    h'.next.trans h.next,fun c hc => (h'.checks c hc).elim (h.checks c) Or.inr,
    fun t i ht => h.awaits t i (h'.awaits t i ht)⟩

theorem checksInv_follows (s s' : Manager) (h : ChecksInv s) (hf : Follows s s') :
    ChecksInv s' := by
  refine ⟨fun c hc => (hf.checks c hc).elim (h.dead c) id,fun t i ht => ?_,fun i hi => ?_⟩
  · rw [hf.fate]
    exact h.awaited t i (hf.awaits t i ht)
  · rw [hf.fate] at hi
    rw [hf.next, hf.hasPid]
    exact h.known i hi

theorem follows_setTask (s : Manager) (t : ℕ) (k : Option Task)
    (hk : ∀ i, Awaits k i false → Awaits (s.tasks t) i false) : Follows s (s.setTask t k) := by
  refine ⟨fun _ => rfl,fun _ => rfl,rfl,fun _ h => Or.inl h,fun u i hu => ?_⟩
  by_cases hut : u = t
  · rw [hut, setTask_self] at hu
    exact hut ▸ hk i hu
  · rwa [setTask_other s t u k hut] at hu

theorem follows_check (s : Manager) (i : ℕ) (dead : Bool)
    (h : dead = true ↔ (s.children i).fate ≠ .running) : Follows s (s.check i dead) := by
  refine ⟨fun _ => rfl,fun _ => rfl,rfl,fun c hc => ?_,fun _ _ h => h⟩
  rcases List.mem_cons.mp hc with rfl | hc
  · exact Or.inr (Bool.eq_iff_iff.mpr (by simp [h]))
  · exact Or.inl hc

theorem follows_killTree (s : Manager) (i : ℕ) : Follows s (s.killTree i) := by
  rw [Manager.killTree]
  split
  · refine ⟨fun j => ?_,fun j => ?_,rfl,fun _ h => Or.inl h,fun _ _ h => h⟩ <;>
      by_cases hj : j = i <;> simp [Manager.setChild, hj]
  · exact follows_same s s rfl rfl rfl rfl

theorem follows_killGroup (s : Manager) : Follows s s.killGroup := by
  rw [Manager.killGroup]
  split
  · exact follows_same s s rfl rfl rfl rfl
  · exact follows_killTree s _

theorem follows_scheduleRestart (s : Manager) (t : ℕ) : Follows s (s.scheduleRestart t) := by
  rw [Manager.scheduleRestart]
  split
  · exact follows_setTask s t none (by simp [Awaits])
  · exact follows_trans _ _ _ (follows_same s { s with restartAttempts := s.restartAttempts+1 } rfl
      rfl rfl rfl) (follows_setTask _ t (some .backoff) (by simp [Awaits]))

theorem follows_rejected (s : Manager) (t : ℕ) (caller : Caller) :
    Follows s (s.rejected t caller) := by
  cases caller with
  | owner => exact follows_setTask s t none (by simp [Awaits])
  | restart => exact follows_scheduleRestart s t

/-- A look that reads the exit code is right unless it falls on a silent child. -/
theorem reads_right (s : Manager) (i : ℕ) (hp : s.proc = some i) (h : ¬ Misjudged s) :
    (s.children i).exitCode.isSome = true ↔ (s.children i).fate ≠ .running := by
  refine ⟨ended_of_exitCode _,fun hr => ?_⟩
  by_contra hn
  exact h ⟨i,hp,hr,by simpa using hn⟩

theorem follows_cleanup (s : Manager) (h : ¬ Misjudged s) : Follows s s.cleanup := by
  unfold Manager.cleanup
  split
  · exact follows_same s s rfl rfl rfl rfl
  · rename_i i hp
    have hread := reads_right s i hp h
    split
    · rename_i hc
      exact follows_check s i true (by simp [← hread, hc])
    · rename_i hc
      have hcheck := follows_check s i false (by simp [← hread, hc])
      have hstopped := follows_same (s.check i false) { s.check i false with stoppedByUs := true }
        rfl rfl rfl rfl
      have hkill := follows_trans _ _ _ hstopped (follows_killGroup _)
      exact follows_trans _ _ _ (follows_trans _ _ _ hcheck hkill) (follows_same _ _ rfl rfl rfl rfl)

theorem follows_failed (s : Manager) (t : ℕ) (caller : Caller) (h : ¬ Misjudged s) :
    Follows s (s.failed t caller) :=
  follows_trans _ _ _ (follows_cleanup s h) (follows_rejected _ t caller)

theorem follows_awaitReady (s : Manager) (t : ℕ) (caller : Caller) (h : ¬ Misjudged s)
    (he : s.spawnError = true → ∀ i, s.proc = some i → (s.children i).fate ≠ .running) :
    Follows s (s.awaitReady t caller) := by
  unfold Manager.awaitReady
  split
  · exact follows_failed s t caller h
  · rename_i i hp
    have hread := reads_right s i hp h
    split
    · rename_i hc
      have hended : (s.children i).fate ≠ .running := by
        rcases Bool.or_eq_true_iff.mp hc with hc | hc
        · exact he hc i hp
        · exact hread.mp hc
      exact follows_trans _ _ _ (follows_check s i true (by simpa using hended))
        (follows_failed (s.check i true) t caller h)
    · rename_i hc
      have hrun : ¬ (s.children i).exitCode.isSome = true := by
        intro hn
        simp [hn] at hc
      exact follows_trans _ _ _ (follows_check s i false (by simpa [← hread] using hrun))
        (follows_setTask _ t _ (by simp [Awaits]))

theorem checksInv_spawn (s : Manager) (h : ChecksInv s) (t : ℕ) (caller : Caller) (port token : ℕ)
    (failure : Option ℕ) (he : s.spawnError = false) :
    ChecksInv (s.spawn t caller port token failure) := by
  let s' : Manager := { s.setTask t none with
    port := port, token := token, client := some (port,token), proc := some s.next,
    children := Function.update s.children s.next ⟨port,token,failure.isNone,.running,false⟩ }
  have hready : s'.awaitReady t caller =
      (s'.check s.next false).setTask t (some (.health caller)) := by
    simp [s', Manager.awaitReady, Manager.setTask, he, Child.exitCode]
  have hdead : ∀ c ∈ (s'.awaitReady t caller).checks, c.dead = c.ended := by
    intro c hc
    rw [hready] at hc
    rcases List.mem_cons.mp hc with rfl | hc
    · simp [s']
    · exact h.dead c hc
  have hawaits : ∀ u i, Awaits ((s'.awaitReady t caller).tasks u) i false →
      (s.children i).fate = .running ∧ i ≠ s.next := by
    intro u i hu
    have hrun : (s.children i).fate = .running := by
      refine h.awaited u i ?_
      by_cases hut : u = t
      · rw [hready, hut, setTask_self] at hu
        simp [Awaits] at hu
      · rw [hready, setTask_other _ t u _ hut] at hu
        rwa [← setTask_other s t u none hut]
    exact ⟨hrun,(h.known i hrun).1.ne⟩
  have hchild : ∀ i, i ≠ s.next → (s'.awaitReady t caller).children i = s.children i := by
    intro i hi
    rw [hready]
    exact Function.update_of_ne hi _ _
  have hself : (s'.awaitReady t caller).children s.next = ⟨port,token,failure.isNone,.running,false⟩ := by
    rw [hready]
    exact Function.update_self _ _ _
  have hnext : (s'.awaitReady t caller).next = s.next := by rw [hready]; rfl
  cases failure with
  | none =>
    rw [show s.spawn t caller port token none = { s'.awaitReady t caller with
      next := (s'.awaitReady t caller).next+1 } from rfl]
    refine ⟨hdead,fun u i hu => ?_,fun i hi => ?_⟩
    · obtain ⟨hrun, hne⟩ := hawaits u i hu
      simpa only [hchild i hne] using hrun
    · by_cases hin : i = s.next
      · subst hin
        exact ⟨by simp [hnext],by simp [hself]⟩
      · simp only [hchild i hin] at hi ⊢
        exact ⟨hnext ▸ Nat.lt_succ_of_lt (h.known i hi).1,(h.known i hi).2⟩
  | some errno =>
    rw [show s.spawn t caller port token (some errno) = { (s'.awaitReady t caller).setChild
      (s'.awaitReady t caller).next { (s'.awaitReady t caller).children
        (s'.awaitReady t caller).next with fate := .notSpawned errno } with
      next := (s'.awaitReady t caller).next+1, spawnError := true } from rfl]
    refine ⟨hdead,fun u i hu => ?_,fun i hi => ?_⟩
    · obtain ⟨hrun, hne⟩ := hawaits u i hu
      simpa only [hnext, Manager.setChild, Function.update_of_ne hne, hchild i hne] using hrun
    · by_cases hin : i = s.next
      · simp [Manager.setChild, hnext, hin] at hi
      · simp only [hnext, Manager.setChild, Function.update_of_ne hin, hchild i hin] at hi ⊢
        exact ⟨Nat.lt_succ_of_lt (h.known i hi).1,(h.known i hi).2⟩

theorem checksInv_exit (s : Manager) (h : ChecksInv s) (i : ℕ) (d : Death) (t : ℕ) :
    ChecksInv (s.exit i d t) := by
  have hfate : d.fate ≠ .running := by cases d <;> simp [Death.fate]
  have hsaw : ChecksInv { s.setChild i { s.children i with fate := d.fate } with
      tasks := fun u => (s.tasks u).map (Task.sawExit i) } := by
    refine ⟨h.dead,fun u j hu => ?_,fun j hj => ?_⟩
    · obtain ⟨b, hb, hexited⟩ := sawExit_awaited i (s.tasks u) j false hu
      obtain ⟨rfl, hji⟩ := Bool.or_eq_false_iff.mp hexited.symm
      have hji : j ≠ i := of_decide_eq_false hji
      simpa [Manager.setChild, hji] using h.awaited u j hb
    · by_cases hji : j = i
      · simp [Manager.setChild, hji, hfate] at hj
      · simpa [Manager.setChild, hji] using h.known j (by simpa [Manager.setChild, hji] using hj)
  unfold Manager.exit
  simp only
  split
  · exact hsaw
  · exact checksInv_follows _ _ hsaw (follows_scheduleRestart _ t)

theorem checksInv_await (s : Manager) (h : ChecksInv s) (t i : ℕ) (k : Task)
    (hk : k = .race i false ∨ k = .awaitExit i false) (hi : (s.children i).fate = .running) :
    ChecksInv (s.setTask t (some k)) := by
  refine ⟨h.dead,fun u j hu => ?_,h.known⟩
  by_cases hut : u = t
  · rw [hut, setTask_self] at hu
    rcases hk with rfl | rfl <;> simp [Awaits] at hu <;> exact hu ▸ hi
  · rw [setTask_other s t u _ hut] at hu
    exact h.awaited u j hu

theorem follows_askShutdown (s : Manager) (t : ℕ) : Follows s (s.askShutdown t) := by
  unfold Manager.askShutdown
  split
  · exact follows_setTask s t _ (by simp [Awaits])
  · exact follows_trans _ _ _ (follows_setTask s t none (by simp [Awaits]))
      (follows_same _ _ rfl rfl rfl rfl)

theorem checksInv_stop (isWin : Bool) (s : Manager) (h : ChecksInv s) (t : ℕ)
    (hm : ¬ Misjudged s) : ChecksInv (s.stop isWin t) := by
  have hs : ChecksInv { s with stoppedByUs := true } := ⟨h.dead,h.awaited,h.known⟩
  unfold Manager.stop
  simp only
  split
  · exact checksInv_follows _ _ hs (follows_askShutdown _ t)
  · rename_i i hp
    have hread := reads_right s i hp hm
    split
    · rename_i hc
      have hcheck := checksInv_follows _ _ hs (follows_check _ i true (by simp [← hread, hc]))
      exact checksInv_follows _ _ hcheck (follows_askShutdown _ t)
    · rename_i hc
      have hrun : (s.children i).fate = .running := by
        by_contra hn
        exact hc (hread.mpr hn)
      have hcheck := checksInv_follows _ _ hs (follows_check _ i false (by simp [hrun]))
      split
      · exact checksInv_await _ hcheck t i _ (Or.inl rfl) hrun
      · have hkill := follows_killGroup ({ s with stoppedByUs := true }.check i false)
        exact checksInv_await _ (checksInv_follows _ _ hcheck hkill) t i _ (Or.inr rfl)
          ((hkill.fate i).trans hrun)

theorem checks_rejected (s : Manager) (t : ℕ) (caller : Caller) :
    (s.rejected t caller).checks = s.checks := by
  cases caller with
  | owner => rfl
  | restart =>
    simp only [Manager.rejected, Manager.scheduleRestart]
    split <;> rfl

theorem checks_killGroup (s : Manager) : s.killGroup.checks = s.checks := by
  unfold Manager.killGroup Manager.killTree
  split
  · rfl
  · split <;> rfl

theorem cleanup_checks (s : Manager) (c : Check) (h : c ∈ s.checks) : c ∈ s.cleanup.checks := by
  unfold Manager.cleanup
  split
  · exact h
  · split
    · exact List.mem_cons_of_mem _ h
    · simp [checks_killGroup, Manager.check, h]

theorem failed_checks (s : Manager) (t : ℕ) (caller : Caller) (c : Check) (h : c ∈ s.checks) :
    c ∈ (s.failed t caller).checks := by
  rw [Manager.failed, checks_rejected]
  exact cleanup_checks s c h

theorem not_right (s : Manager) (c : Check) (h : c ∈ s.checks) (hc : c.dead ≠ c.ended) :
    ¬ ChecksRight s :=
  fun hs => hc (hs.dead c h)

theorem failed_wrong (s : Manager) (t : ℕ) (caller : Caller) (h : Misjudged s) :
    ¬ ChecksRight (s.failed t caller) := by
  obtain ⟨i, hp, hr, hc⟩ := h
  refine not_right _ ⟨true,false⟩ ?_ (by simp)
  rw [Manager.failed, checks_rejected]
  simp [Manager.cleanup, hp, hc, checks_killGroup, Manager.check, hr]

theorem awaitReady_wrong (s : Manager) (t : ℕ) (caller : Caller) (h : Misjudged s) :
    ¬ ChecksRight (s.awaitReady t caller) := by
  obtain ⟨i, hp, hr, hc⟩ := h
  by_cases he : s.spawnError = true
  · simp only [Manager.awaitReady, hp, he, Bool.true_or, if_true]
    exact failed_wrong _ t caller ⟨i,hp,hr,hc⟩
  · refine not_right _ ⟨true,false⟩ ?_ (by simp)
    simp [Manager.awaitReady, hp, he, hc, Manager.check, Manager.setTask, hr]

theorem awaitReady_spawnError (s : Manager) (t : ℕ) (caller : Caller) (i : ℕ)
    (he : s.spawnError = true) (hp : s.proc = some i) (hr : (s.children i).fate = .running) :
    (⟨false,true⟩ : Check) ∈ (s.awaitReady t caller).checks := by
  simp only [Manager.awaitReady, hp, he, Bool.true_or, if_true]
  exact failed_checks _ t caller _ (by simp [Manager.check, hr])

theorem spawn_checks (s : Manager) (t : ℕ) (caller : Caller) (port token : ℕ) (failure : Option ℕ) :
    (s.spawn t caller port token failure).checks = ({ s.setTask t none with
      port := port, token := token, client := some (port,token), proc := some s.next,
      children := Function.update s.children s.next ⟨port,token,failure.isNone,.running,false⟩ }.awaitReady
        t caller).checks := by
  cases failure <;> rfl

theorem stop_wrong (isWin : Bool) (s : Manager) (t : ℕ) (h : Misjudged s) :
    ¬ ChecksRight (s.stop isWin t) := by
  obtain ⟨i, hp, hr, hc⟩ := h
  refine not_right _ ⟨true,false⟩ ?_ (by simp)
  cases isWin <;>
    simp [Manager.stop, hp, hc, Manager.setTask, checks_killGroup, Manager.check, hr]

theorem checksInv_step (isWin : Bool) (s : Manager) (e : Event) (s' : Manager) (h : ChecksInv s)
    (ho : ChecksReliable s e) (hst : step isWin s e = some s') : ChecksInv s' := by
  cases e with
  | start t =>
    simp only [step] at hst
    split at hst <;> cases hst
    have hset := follows_setTask s t (some (.takeOver .owner)) (by simp [Awaits])
    exact checksInv_follows s _ h (follows_trans _ _ _ hset (follows_same _ _ rfl rfl rfl rfl))
  | takeOverKill t i =>
    simp only [step] at hst
    split at hst <;> cases hst
    exact checksInv_follows s _ h (follows_killTree s i)
  | takenOver t =>
    simp only [step] at hst
    split at hst <;> cases hst
    rename_i caller _
    have hset := follows_setTask s t (some (.pickPort caller)) (by simp [Awaits])
    exact checksInv_follows s _ h (follows_trans _ _ _ hset (follows_same _ _ rfl rfl rfl rfl))
  | portPicked t port token failure =>
    simp only [step] at hst
    split at hst <;> cases hst
    rename_i caller ht
    exact checksInv_spawn s h t caller port token failure (ho ⟨caller,ht⟩)
  | portFailed t =>
    simp only [step] at hst
    split at hst <;> cases hst
    rename_i caller _
    exact checksInv_follows s _ h (follows_rejected s t caller)
  | healthReply t reply =>
    simp only [step] at hst
    split at hst <;> cases hst
    rename_i caller ht
    cases reply with
    | ok =>
      have hset := follows_setTask s t none (by simp [Awaits])
      exact checksInv_follows s _ h (follows_trans _ _ _ hset (follows_same _ _ rfl rfl rfl rfl))
    | error => exact checksInv_follows s _ h (follows_failed s t caller (ho ⟨caller,ht⟩))
    | notReady => exact checksInv_follows s _ h (follows_setTask s t _ (by simp [Awaits]))
  | pauseOver t late =>
    simp only [step] at hst
    split at hst <;> cases hst
    rename_i caller ht
    obtain ⟨hm, he⟩ := ho ⟨caller,ht⟩
    cases late with
    | true => exact checksInv_follows s _ h (follows_failed s t caller hm)
    | false => exact checksInv_follows s _ h (follows_awaitReady s t caller hm (he rfl))
  | backoffOver t =>
    simp only [step] at hst
    split at hst <;> cases hst
    refine checksInv_follows s _ h (follows_setTask s t _ (fun i hi => ?_))
    split at hi <;> simp [Awaits] at hi
  | exit i d t =>
    simp only [step] at hst
    split_ifs at hst
    cases hst
    exact checksInv_exit s h i d t
  | stop t =>
    simp only [step] at hst
    split at hst <;> cases hst
    rename_i ht
    exact checksInv_stop isWin s h t (ho ht)
  | raceOver t =>
    simp only [step] at hst
    split at hst <;> cases hst
    rename_i i b ht
    have hkill := follows_killGroup s
    have hset : Follows s.killGroup (s.killGroup.setTask t (some (.awaitExit i b))) := by
      refine follows_setTask _ t _ (fun j hj => Or.inl ?_)
      obtain ⟨rfl, rfl⟩ : i = j ∧ b = false := by simpa [Awaits] using hj
      rw [(alike_killGroup s).tasks, ht]
    exact checksInv_follows s _ h (follows_trans _ _ _ hkill hset)
  | exitSeen t =>
    simp only [step] at hst
    split at hst <;> cases hst
    have hset := follows_setTask s t none (by simp [Awaits])
    exact checksInv_follows s _ h (follows_trans _ _ _ hset (follows_same _ _ rfl rfl rfl rfl))
  | shutdownOver t =>
    simp only [step] at hst
    split at hst <;> cases hst
    have hset := follows_setTask s t none (by simp [Awaits])
    exact checksInv_follows s _ h (follows_trans _ _ _ hset (follows_same _ _ rfl rfl rfl rfl))
  | stopTimer t =>
    simp only [step] at hst
    split at hst <;> cases hst
    exact checksInv_follows s _ h (follows_killGroup s)
  | cleanupTimer i =>
    simp only [step] at hst
    split_ifs at hst with hi hdead
    all_goals cases hst
    · have hended : (s.children i).fate ≠ .running := by
        intro hr
        have hpid := (h.known i hr).2
        simp [Child.exitCode, hr, hpid] at hdead
      have hcheck := follows_check s i true (by simpa using hended)
      exact checksInv_follows s _ h (follows_trans _ _ _ hcheck (follows_same _ _ rfl rfl rfl rfl))
    · obtain ⟨hcode, hpid⟩ : (s.children i).exitCode = none ∧ (s.children i).hasPid = true := by
        simpa using hdead
      have hrun : (s.children i).fate = .running := by
        by_contra hn
        exact ho hi hpid ⟨hn,hcode⟩
      have hkill := follows_trans _ _ _ (follows_check s i false (by simp [hrun]))
        (follows_killTree _ i)
      exact checksInv_follows s _ h (follows_trans _ _ _ hkill (follows_same _ _ rfl rfl rfl rfl))

theorem unreliable_wrong (isWin : Bool) (s : Manager) (e : Event) (ho : ¬ ChecksReliable s e) :
    ∃ s', step isWin s e = some s' ∧ ¬ ChecksRight s' := by
  cases e with
  | portPicked t port token failure =>
    simp only [ChecksReliable, Classical.not_imp, Bool.not_eq_false] at ho
    obtain ⟨⟨caller, ht⟩, he⟩ := ho
    have hst : step isWin s (.portPicked t port token failure) =
        some (s.spawn t caller port token failure) := by simp only [step, ht]
    refine ⟨_,hst,not_right _ ⟨false,true⟩ ?_ (by simp)⟩
    rw [spawn_checks]
    exact awaitReady_spawnError _ t caller s.next he rfl (by simp)
  | healthReply t reply =>
    cases reply with
    | error =>
      simp only [ChecksReliable, Classical.not_imp, not_not] at ho
      obtain ⟨⟨caller, ht⟩, hm⟩ := ho
      have hst : step isWin s (.healthReply t .error) = some (s.failed t caller) := by
        simp only [step, ht]
      exact ⟨_,hst,failed_wrong s t caller hm⟩
    | ok => exact absurd trivial ho
    | notReady => exact absurd trivial ho
  | pauseOver t late =>
    simp only [ChecksReliable, Classical.not_imp] at ho
    obtain ⟨⟨caller, ht⟩, hbad⟩ := ho
    have hst : step isWin s (.pauseOver t late) =
        some (if late then s.failed t caller else s.awaitReady t caller) := by simp only [step, ht]
    refine ⟨_,hst,?_⟩
    by_cases hm : Misjudged s
    · cases late with
      | true => exact failed_wrong s t caller hm
      | false => exact awaitReady_wrong s t caller hm
    · simp only [hm, not_false_eq_true, true_and, Classical.not_imp, not_forall, not_not] at hbad
      obtain ⟨rfl, he, i, hp, hr⟩ := hbad
      exact not_right _ ⟨false,true⟩ (awaitReady_spawnError s t caller i he hp hr) (by simp)
  | stop t =>
    simp only [ChecksReliable, Classical.not_imp, not_not] at ho
    have hst : step isWin s (.stop t) = some (s.stop isWin t) := by simp only [step, ho.1]
    exact ⟨_,hst,stop_wrong isWin s t ho.2⟩
  | cleanupTimer i =>
    simp only [ChecksReliable, Classical.not_imp, not_not] at ho
    obtain ⟨hi, hpid, hr, hc⟩ := ho
    have hst : step isWin s (.cleanupTimer i) =
        some { (s.check i false).killTree i with cleanups := s.cleanups.erase i } := by
      simp [step, hi, hc, hpid]
    refine ⟨_,hst,not_right _ ⟨true,false⟩ ?_ (by simp)⟩
    simp [hpid, Manager.killTree, Manager.check, Manager.setChild, hr]
  | start t => exact absurd trivial ho
  | takeOverKill t i => exact absurd trivial ho
  | takenOver t => exact absurd trivial ho
  | portFailed t => exact absurd trivial ho
  | backoffOver t => exact absurd trivial ho
  | exit i d t => exact absurd trivial ho
  | raceOver t => exact absurd trivial ho
  | exitSeen t => exact absurd trivial ho
  | shutdownOver t => exact absurd trivial ho
  | stopTimer t => exact absurd trivial ho

/-- Along any run the checks are right, and no `stop` waits for an exit that
is past, if and only if no look falls on a child that died by a signal. -/
theorem checks_right_iff (isWin : Bool) (es : List Event) :
    Always (step isWin) ChecksRight init es ↔ Meets (step isWin) ChecksReliable init es :=
  always_iff_meets (checksInv_step isWin) checksInv_right
    (fun s e _ ho => unreliable_wrong isWin s e ho) es init checksInv_init

/-- The sidecar is killed by a signal and the backoff is pending. A `stop`
takes it for alive and listens for the exit that was delivered before. -/
theorem stop_awaits_past_exit : ∃ s, run (step false) init [.start 0,.takenOver 0,
      .portPicked 0 7000 1 none,.healthReply 0 .ok,.exit 0 (.signal "SIGKILL") 1,.stop 2] = some s ∧
    s.tasks 2 = some (.awaitExit 0 false) ∧ (s.children 0).fate = .signaled "SIGKILL" ∧
    ¬ ChecksRight s := by
  refine ⟨_,rfl,rfl,rfl,fun h => ?_⟩
  have := (h.awaited 2 0 (Or.inr rfl)).1
  cases this

end Uru.Sidecar
