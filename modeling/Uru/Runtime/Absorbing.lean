import Uru.Runtime.Shutdown

/-!
# A shutdown is final

Once a stop was called the status stays `stopping`, and once the last stop has
returned no llama server runs. A run keeps both exactly when no branch of
the boot task or the supervisor that writes the status is reached after a
stop began, no server is spawned after the last stop returned or behind the back
of the stop that is ending the servers, and no stop is cancelled that still has
a server to end.
-/

set_option autoImplicit false

namespace Uru.Runtime.Shutdown
open Uru.Lib.Machine

def AllReturned (s : SidecarRuntime) : Prop := s.returned = true ∧ ∀ i, s.stops i = none

def NoneRunning (s : SidecarRuntime) : Prop := ∀ v, s.running v = false

structure Absorbed (s : SidecarRuntime) : Prop where
  status : s.stopBegan = true → s.status = .stopping
  servers : AllReturned s → NoneRunning s

/-- No other `stop` is pending. -/
def OnlyStop (s : SidecarRuntime) (i : ℕ) : Prop := ∀ j, j ≠ i → s.stops j = none

def Orderly (s : SidecarRuntime) : Event → Prop
  | .bootStarts chat embed => s.blocked = none → s.boot = .queued →
      (chat.isSome ∨ embed.isSome → s.stopBegan = false) ∧ (chat = none → ¬ AllReturned s)
  | .bootReady => s.blocked = none → s.boot = .namespace → s.stopBegan = false
  | .bootFails _ => s.blocked = none → s.boot ≠ .queued ∧ s.boot ≠ .ended → s.stopBegan = false
  | .restarted => s.blocked = none → ∀ v exc, s.thread = some (v,.finished (some exc)) →
      s.supervisor = .restarting v → s.stopBegan = false
  | .threadRuns exc => exc = none → ∀ v again, s.thread = some (v,.start again) → ¬ AllReturned s
  | .teardown i => s.blocked = none → s.lifespan = true ∧ s.stops i = none → s.returned = true →
      (∀ j, s.stops j = none ∨ SidecarRuntime.cancelled (s.stops j) = true) → NoneRunning s
  | .stopCancelled i => s.blocked = none → s.stops i ≠ none → s.returned = true → OnlyStop s i →
      NoneRunning s
  | .stopRuns timeout =>
      (∀ i, s.blocked = some (i,.look .embed) → s.running .embed = false → OnlyStop s i →
        s.running .chat = false) ∧
      ∀ i n, s.blocked = some (i,.wait .embed n) →
        (timeout = true ∨ s.running .embed = false ∨ s.spawns .embed ≠ n) → OnlyStop s i →
        s.running .chat = false ∧ (timeout = false → s.running .embed = false)
  | _ => True

structure Inv (s : SidecarRuntime) : Prop extends Absorbed s where
  began : s.returned = true → s.stopBegan = true
  created : ∀ v, s.running v = true → s.created = true
  threaded : s.thread ≠ none → s.created = true
  pending : ∀ i, s.stops i ≠ none → s.stopBegan = true
  ending : ∀ i k, s.blocked = some (i,k) → s.stops i ≠ none

theorem inv_init : Inv init :=
  ⟨⟨by simp [init],fun _ _ => rfl⟩,by simp [init],by simp [init],by simp [init],by simp [init],
    by simp [init]⟩

/-- While a `stop` is pending nothing is asked of the servers. -/
theorem inv_pending (s : SidecarRuntime) (h : Inv s) (i : ℕ) (k : Caller × Stop)
    (b : Option (ℕ × Ending)) (hk : ∀ j e, b = some (j,e) → j = i ∨ s.blocked = some (j,e))
    (hb : s.stopBegan = true) :
    Inv { s with stops := Function.update s.stops i (some k), blocked := b } := by
  refine ⟨⟨h.status,fun ⟨_,hall⟩ => ?_⟩,h.began,h.created,h.threaded,fun _ _ => hb,fun j e he => ?_⟩
  · have := hall i
    simp at this
  · by_cases hj : j = i
    · simp [hj]
    · simpa [hj] using h.ending j e ((hk j e he).resolve_left hj)

theorem inv_stopServers (s : SidecarRuntime) (h : Inv s) (i : ℕ) (caller : Caller)
    (hb : s.stopBegan = true) : Inv (s.stopServers i caller) := by
  refine inv_pending s h i _ _ (fun j e he => Or.inl ?_) hb
  injection he with he
  exact (Prod.mk.inj he).1.symm

theorem inv_stopProxy (s : SidecarRuntime) (h : Inv s) (i : ℕ) (caller : Caller)
    (hb : s.stopBegan = true) : Inv (s.stopProxy i caller) := by
  unfold SidecarRuntime.stopProxy
  split
  · exact inv_pending s h i _ _ (fun _ _ he => Or.inr he) hb
  · exact inv_stopServers s h i caller hb

theorem inv_stop (s : SidecarRuntime) (h : Inv s) (i : ℕ) (caller : Caller) :
    Inv (s.stop i caller) := by
  have hb : Inv { s with status := .stopping, stopBegan := true } :=
    ⟨⟨fun _ => rfl,h.servers⟩,fun _ => rfl,h.created,h.threaded,fun _ _ => rfl,h.ending⟩
  unfold SidecarRuntime.stop
  simp only
  split
  · exact inv_pending _ hb i _ _ (fun _ _ he => Or.inr he) rfl
  · exact inv_stopProxy _ hb i caller rfl

/-- Only what the invariant does not speak of differs. -/
theorem inv_same (s s' : SidecarRuntime) (h : Inv s) (hstatus : s'.status = s.status)
    (hrunning : ∀ v, s'.running v = true → s.running v = true) (hcreated : s'.created = s.created)
    (hstops : s'.stops = s.stops) (hblocked : s'.blocked = s.blocked)
    (hbegan : s'.stopBegan = s.stopBegan) (hreturned : s'.returned = s.returned)
    (hthread : s'.thread ≠ none → s.created = true) : Inv s' := by
  refine ⟨⟨?_,fun hall v => ?_⟩,?_,fun v hv => ?_,fun ht => ?_,?_,?_⟩
  · rw [hbegan, hstatus]
    exact h.status
  · rw [AllReturned, hreturned, hstops] at hall
    have := h.servers hall v
    exact Bool.eq_false_iff.mpr (fun hv => by simp [hrunning v hv] at this)
  · rw [hreturned, hbegan]
    exact h.began
  · rw [hcreated]
    exact h.created v (hrunning v hv)
  · rw [hcreated]
    exact hthread ht
  · rw [hstops, hbegan]
    exact h.pending
  · rw [hstops, hblocked]
    exact h.ending

theorem inv_status (s : SidecarRuntime) (h : Inv s) (st : Status) (exc : Option String)
    (hb : s.stopBegan = false) : Inv { s with status := st, error := exc } :=
  ⟨⟨fun hn => by simp [hb] at hn,h.servers⟩,h.began,h.created,h.threaded,h.pending,h.ending⟩

theorem inv_spawn (s : SidecarRuntime) (h : Inv s) (v : Server) (hc : s.created = true)
    (hn : ¬ AllReturned s) : Inv (s.spawn v) :=
  ⟨⟨h.status,fun hall => absurd hall hn⟩,h.began,fun _ _ => hc,fun _ => hc,h.pending,h.ending⟩

theorem inv_kill (s : SidecarRuntime) (h : Inv s) (v : Server) : Inv (s.kill v) := by
  refine inv_same s _ h rfl (fun u hu => ?_) rfl rfl rfl rfl rfl h.threaded
  by_cases huv : u = v
  · simp [SidecarRuntime.kill, huv] at hu
  · simpa [SidecarRuntime.kill, huv] using hu

/-- The `stop` of the embedding server is the last; the others may return only
to no server. -/
theorem inv_stopped (s : SidecarRuntime) (h : Inv s) (i : ℕ) (v : Server) (k : Ending)
    (hi : s.blocked = some (i,k)) (hv : v = .embed → OnlyStop s i → NoneRunning s) :
    Inv (s.stopped i v) := by
  have hb : s.stopBegan = true := h.pending i (h.ending i k hi)
  cases v with
  | chat =>
    refine ⟨⟨h.status,h.servers⟩,h.began,h.created,h.threaded,h.pending,fun j e he => ?_⟩
    have hj : i = j := by
      injection he with he
      exact (Prod.mk.inj he).1
    exact hj ▸ h.ending i k hi
  | embed =>
    refine ⟨⟨h.status,fun ⟨_,hall⟩ => hv rfl (fun j hj => ?_)⟩,fun _ => hb,h.created,h.threaded,
      fun _ _ => hb,fun j e he => by cases he⟩
    have := hall j
    simpa [SidecarRuntime.stopped, hj] using this

theorem inv_stopRuns (s : SidecarRuntime) (h : Inv s) (timeout : Bool)
    (ho : Orderly s (.stopRuns timeout)) (s' : SidecarRuntime)
    (hst : s.stopRuns timeout = some s') : Inv s' := by
  have hnone : s.running .chat = false → s.running .embed = false → NoneRunning s := by
    rintro hchat hembed (_ | _)
    · exact hchat
    · exact hembed
  unfold SidecarRuntime.stopRuns at hst
  split at hst
  · cases hst
  · rename_i i v hi
    split_ifs at hst with hv
    · cases hst
      refine ⟨⟨h.status,h.servers⟩,h.began,h.created,h.threaded,h.pending,fun j e he => ?_⟩
      have hj : i = j := by
        injection he with he
        exact (Prod.mk.inj he).1
      exact hj ▸ h.ending i _ hi
    · cases hst
      refine inv_stopped s h i v _ hi (fun hembed honly => ?_)
      subst hembed
      have hdead : s.running .embed = false := by
        by_contra hrun
        have hrun : s.running .embed = true := by simpa using hrun
        exact hv (by simp [h.created .embed hrun, SidecarRuntime.isAlive, hrun])
      exact hnone (ho.1 i hi hdead honly) hdead
  · rename_i i v n hi
    split_ifs at hst with ht hv
    · cases hst
      refine inv_stopped _ (inv_kill s h v) i v _ hi (fun hembed honly => ?_)
      subst hembed
      have hchat := (ho.2 i n hi (Or.inl ht) honly).1
      rintro (_ | _)
      · simpa [SidecarRuntime.kill] using hchat
      · simp [SidecarRuntime.kill]
    · cases hst
      refine inv_stopped s h i v _ hi (fun hembed honly => ?_)
      subst hembed
      have hgone : s.running .embed = false ∨ s.spawns .embed ≠ n := by
        simpa [SidecarRuntime.isAlive, or_iff_not_imp_left] using hv
      obtain ⟨hchat, hdead⟩ := ho.2 i n hi (Or.inr hgone) honly
      exact hnone hchat (hdead (by simpa using ht))

theorem inv_bootFailed (s : SidecarRuntime) (h : Inv s) (exc : String)
    (hb : s.stopBegan = false) : Inv (s.bootFailed exc) :=
  inv_same { s with status := .error, error := some exc } _ (inv_status s h _ _ hb)
    rfl (fun _ hv => hv) rfl rfl rfl rfl rfl h.threaded

theorem inv_bootStart (s : SidecarRuntime) (h : Inv s) (chat embed : Option String)
    (hb : chat.isSome ∨ embed.isSome → s.stopBegan = false)
    (hn : chat = none → ¬ AllReturned s) : Inv (s.bootStart chat embed) := by
  have hc : Inv { s with created := true } :=
    ⟨⟨h.status,h.servers⟩,h.began,fun _ _ => rfl,fun _ => rfl,h.pending,h.ending⟩
  cases chat with
  | some exc => exact inv_bootFailed _ hc exc (hb (Or.inl rfl))
  | none =>
    have hchat := inv_spawn { s with created := true } hc .chat rfl (hn rfl)
    cases embed with
    | some exc => exact inv_bootFailed _ hchat exc (hb (Or.inr rfl))
    | none =>
      have hembed := inv_spawn _ hchat .embed rfl (hn rfl)
      exact inv_same _ _ hembed rfl (fun _ hv => hv) rfl rfl rfl rfl rfl (fun _ => rfl)

theorem inv_restart (s : SidecarRuntime) (h : Inv s) (v : Server) (hc : s.created = true) :
    Inv (s.restart v) :=
  inv_same s _ h rfl (fun _ hv => hv) rfl rfl rfl rfl rfl (fun _ => hc)

theorem inv_checkEmbed (s : SidecarRuntime) (h : Inv s) : Inv s.checkEmbed := by
  unfold SidecarRuntime.checkEmbed
  split
  · exact inv_same s _ h rfl (fun _ hv => hv) rfl rfl rfl rfl rfl h.threaded
  · rename_i hc
    simp only [Bool.or_eq_true, not_or, Bool.not_eq_true', Bool.not_eq_false] at hc
    exact inv_restart s h .embed hc.1

theorem inv_supervise (s : SidecarRuntime) (h : Inv s) : Inv s.supervise := by
  unfold SidecarRuntime.supervise
  split
  · exact h
  · split
    · exact inv_checkEmbed s h
    · rename_i hc
      simp only [Bool.or_eq_true, not_or, Bool.not_eq_true', Bool.not_eq_false] at hc
      exact inv_restart s h .chat hc.1

theorem inv_latch (s : SidecarRuntime) (h : Inv s) (v : Server) (exc : Option String)
    (hb : exc.isSome → s.stopBegan = false) : Inv (s.latch v exc) := by
  cases exc with
  | none => exact inv_same s _ h rfl (fun _ hv => hv) rfl rfl rfl rfl rfl (fun ht => absurd rfl ht)
  | some exc =>
    have herror := inv_status s h .error
      (some (v.alias++" crashed and could not be restarted: "++exc)) (hb rfl)
    exact inv_same _ _ herror rfl (fun _ hv => hv) rfl rfl rfl rfl rfl (fun ht => absurd rfl ht)

theorem inv_restarted (s : SidecarRuntime) (h : Inv s) (v : Server) (exc : Option String)
    (hb : exc.isSome → s.stopBegan = false) : Inv (s.restarted v exc) := by
  cases v with
  | chat => exact inv_checkEmbed _ (inv_latch s h .chat exc hb)
  | embed =>
    have hlatch := inv_latch s h .embed exc hb
    exact inv_same _ _ hlatch rfl (fun _ hv => hv) rfl rfl rfl rfl rfl hlatch.threaded

theorem inv_threadStep (s : SidecarRuntime) (h : Inv s) (v : Server) (exc : Option Raised)
    (stage : Stage) (ht : s.thread = some (v,stage)) (ho : Orderly s (.threadRuns exc))
    (s' : SidecarRuntime) (hst : s.threadStep v exc stage = some s') : Inv s' := by
  have hc : s.created = true := h.threaded (by simp [ht])
  have hmoved : ∀ r, Inv r → r.created = true → ∀ k, Inv { r with thread := k } := fun r hr hrc k =>
    inv_same r _ hr rfl (fun _ hv => hv) rfl rfl rfl rfl rfl (fun _ => hrc)
  cases stage with
  | stop again => cases exc <;> cases hst <;> exact hmoved _ (inv_kill s h v) hc _
  | start again =>
    cases exc with
    | none =>
      cases hst
      exact hmoved _ (inv_spawn s h v hc (ho rfl v again ht)) hc _
    | some exc =>
      cases hst
      exact hmoved s h hc _
  | wait again => cases exc <;> cases hst <;> exact hmoved s h hc _
  | finished exc' => cases hst

theorem cancelled_none (k : Option (Caller × Stop)) :
    (if SidecarRuntime.cancelled k then none else k) = none ↔
      k = none ∨ SidecarRuntime.cancelled k = true := by
  split
  · rename_i hk
    simp [hk]
  · rename_i hk
    simp [hk]

theorem inv_teardown (s : SidecarRuntime) (h : Inv s) (i : ℕ) (hi : s.lifespan = true)
    (hfree : s.stops i = none) (hb : s.blocked = none) (ho : Orderly s (.teardown i)) :
    Inv (s.teardown i) := by
  have hcancel : Inv s.cancelTasks := by
    refine ⟨⟨h.status,fun ⟨hr,hall⟩ => ?_⟩,h.began,h.created,h.threaded,fun j hj => ?_,
      fun j e he => ?_⟩
    · exact ho hb ⟨hi,hfree⟩ hr (fun j => (cancelled_none _).mp (hall j))
    · exact h.pending j (fun hnone => hj ((cancelled_none _).mpr (Or.inl hnone)))
    · exact absurd (hb.symm.trans he) (by simp)
  unfold SidecarRuntime.teardown
  split
  · exact inv_stop _ hcancel i .lifespan
  · exact hcancel

theorem inv_stopCancelled (s : SidecarRuntime) (h : Inv s) (i : ℕ) (hi : s.stops i ≠ none)
    (hb : s.blocked = none) (ho : Orderly s (.stopCancelled i)) :
    Inv { s with stops := Function.update s.stops i none } := by
  refine ⟨⟨h.status,fun ⟨hr,hall⟩ => ho hb hi hr (fun j hj => ?_)⟩,h.began,h.created,h.threaded,
    fun j _ => h.pending i hi,fun j e he => absurd (hb.symm.trans he) (by simp)⟩
  have := hall j
  simpa [hj] using this

theorem step_act (s : SidecarRuntime) (e : Event) (s' : SidecarRuntime) (hst : step s e = some s') :
    act s e = some s' ∧ (e.onLoop = true → s.blocked = none) := by
  unfold step at hst
  split_ifs at hst with hc
  refine ⟨hst,fun he => ?_⟩
  simpa [he] using hc

theorem inv_step (s : SidecarRuntime) (e : Event) (s' : SidecarRuntime) (h : Inv s)
    (ho : Orderly s e) (hst : step s e = some s') : Inv s' := by
  obtain ⟨hst, hloop⟩ := step_act s e s' hst
  cases e with
  | bootStarts chat embed =>
    simp only [act] at hst
    split_ifs at hst with hq
    cases hst
    exact inv_bootStart s h chat embed (ho (hloop rfl) hq).1 (ho (hloop rfl) hq).2
  | serversReady =>
    simp only [act] at hst
    split_ifs at hst
    cases hst
    exact inv_same s _ h rfl (fun _ hv => hv) rfl rfl rfl rfl rfl h.threaded
  | proxyUp =>
    simp only [act] at hst
    split_ifs at hst
    cases hst
    exact inv_same s _ h rfl (fun _ hv => hv) rfl rfl rfl rfl rfl h.threaded
  | connected =>
    simp only [act] at hst
    split_ifs at hst
    cases hst
    exact inv_same s _ h rfl (fun _ hv => hv) rfl rfl rfl rfl rfl h.threaded
  | bootReady =>
    simp only [act] at hst
    split_ifs at hst with hq
    cases hst
    have hok := inv_status s h .ok s.error (ho (hloop rfl) hq)
    exact inv_same _ _ hok rfl (fun _ hv => hv) rfl rfl rfl rfl rfl h.threaded
  | bootFails exc =>
    simp only [act] at hst
    split_ifs at hst with hq
    cases hst
    exact inv_bootFailed s h exc (ho (hloop rfl) hq)
  | supervisorWakes =>
    simp only [act] at hst
    split_ifs at hst
    cases hst
    exact inv_supervise s h
  | threadRuns exc =>
    simp only [act] at hst
    split at hst
    · rename_i v stage ht
      exact inv_threadStep s h v exc stage ht ho s' hst
    · cases hst
  | threadDropped =>
    simp only [act] at hst
    split at hst
    · split_ifs at hst
      cases hst
      exact inv_same s _ h rfl (fun _ hv => hv) rfl rfl rfl rfl rfl (fun ht => absurd rfl ht)
    · cases hst
  | restarted =>
    simp only [act] at hst
    split at hst
    · rename_i v exc ht
      split_ifs at hst with hsup
      cases hst
      refine inv_restarted s h v exc (fun hexc => ?_)
      obtain ⟨msg, rfl⟩ := Option.isSome_iff_exists.mp hexc
      exact ho (hloop rfl) v msg ht hsup
    · cases hst
  | crash v =>
    cases hst
    exact inv_kill s h v
  | shutdown i =>
    simp only [act] at hst
    split_ifs at hst
    cases hst
    exact inv_stop s h i .route
  | watchdogStops i =>
    simp only [act] at hst
    split_ifs at hst
    cases hst
    have hgone := inv_same s { s with watchdog := false } h rfl (fun _ hv => hv) rfl rfl
      rfl rfl rfl h.threaded
    exact inv_stop _ hgone i .watchdog
  | parentGone i =>
    simp only [act] at hst
    split_ifs at hst
    cases hst
    have hgone := inv_same s { s with parentWatchdog := false } h rfl (fun _ hv => hv) rfl rfl
      rfl rfl rfl h.threaded
    exact inv_stop _ hgone i .parentWatchdog
  | teardown i =>
    simp only [act] at hst
    split_ifs at hst with hc
    cases hst
    exact inv_teardown s h i hc.1 hc.2 (hloop rfl) ho
  | disconnected i =>
    simp only [act] at hst
    split at hst
    · rename_i caller hk
      cases hst
      exact inv_stopProxy s h i caller (h.pending i (by simp [hk]))
    · cases hst
  | proxyExited i =>
    simp only [act] at hst
    split at hst
    · rename_i caller hk
      cases hst
      exact inv_stopServers s h i caller (h.pending i (by simp [hk]))
    · cases hst
  | stopCancelled i =>
    simp only [act] at hst
    split at hst
    · rename_i k hk
      cases hst
      exact inv_stopCancelled s h i (by simp [hk]) (hloop rfl) ho
    · cases hst
  | stopRuns timeout => exact inv_stopRuns s h timeout ho s' hst

theorem not_absorbed_status (s : SidecarRuntime) (hb : s.stopBegan = true)
    (hs : s.status ≠ .stopping) : ¬ Absorbed s :=
  fun h => hs (h.status hb)

theorem not_absorbed_running (s : SidecarRuntime) (hall : AllReturned s)
    (hv : ¬ NoneRunning s) : ¬ Absorbed s :=
  fun h => hv (h.servers hall)

theorem bootStart_bad (s : SidecarRuntime) (chat embed : Option String)
    (h : ¬ ((chat.isSome ∨ embed.isSome → s.stopBegan = false) ∧
      (chat = none → ¬ AllReturned s))) : ¬ Absorbed (s.bootStart chat embed) := by
  rcases not_and_or.mp h with h | h
  · push Not at h
    obtain ⟨hfails, hb⟩ := h
    have hb : s.stopBegan = true := by simpa using hb
    refine not_absorbed_status _ ?_ ?_
    all_goals cases chat <;> cases embed <;> simp at hfails <;>
      simp [SidecarRuntime.bootStart, SidecarRuntime.bootFailed, SidecarRuntime.spawn, hb]
  · push Not at h
    obtain ⟨rfl, hr, hall⟩ := h
    refine not_absorbed_running _ ?_ (fun hv => ?_)
    · cases embed with
      | none => exact ⟨hr,hall⟩
      | some exc => exact ⟨hr,hall⟩
    · have := hv .chat
      cases embed <;> simp [SidecarRuntime.bootStart, SidecarRuntime.bootFailed,
        SidecarRuntime.spawn] at this

theorem restarted_bad (s : SidecarRuntime) (v : Server) (exc : String)
    (hb : s.stopBegan = true) : ¬ Absorbed (s.restarted v (some exc)) := by
  refine not_absorbed_status _ ?_ ?_
  · cases v with
    | chat =>
      simp only [SidecarRuntime.restarted, SidecarRuntime.checkEmbed]
      split <;> exact hb
    | embed => exact hb
  · cases v with
    | chat =>
      simp only [SidecarRuntime.restarted, SidecarRuntime.checkEmbed]
      split <;> simp [SidecarRuntime.latch, SidecarRuntime.restart]
    | embed => simp [SidecarRuntime.restarted, SidecarRuntime.latch]

theorem stopRuns_bad (s : SidecarRuntime) (timeout : Bool)
    (ho : ¬ Orderly s (.stopRuns timeout)) : ∃ s', s.stopRuns timeout = some s' ∧ ¬ Absorbed s' := by
  have hreturned : ∀ r : SidecarRuntime, ∀ i, r.stops = s.stops → OnlyStop s i →
      AllReturned (r.stopped i .embed) := by
    intro r i hstops honly
    refine ⟨rfl,fun j => ?_⟩
    by_cases hj : j = i
    · simp [SidecarRuntime.stopped, hj]
    · simpa [SidecarRuntime.stopped, hj, hstops] using honly j hj
  rcases not_and_or.mp ho with ho | ho
  · push Not at ho
    obtain ⟨i, hi, hembed, honly, hchat⟩ := ho
    refine ⟨s.stopped i .embed,by simp [SidecarRuntime.stopRuns, hi, SidecarRuntime.isAlive, hembed],
      not_absorbed_running _ (hreturned s i rfl honly) (fun hv => hchat (hv .chat))⟩
  · push Not at ho
    obtain ⟨i, n, hi, hends, honly, hruns⟩ := ho
    cases timeout with
    | true =>
      refine ⟨(s.kill .embed).stopped i .embed,by simp [SidecarRuntime.stopRuns, hi],
        not_absorbed_running _ (hreturned _ i rfl honly) (fun hv => ?_)⟩
      have hchat : s.running .chat = false := by
        simpa [SidecarRuntime.stopped, SidecarRuntime.kill] using hv .chat
      exact absurd (hruns hchat).1 (by simp)
    | false =>
      have hgone : ¬ (s.isAlive .embed && s.spawns .embed = n) = true := by
        simpa [SidecarRuntime.isAlive, or_iff_not_imp_left] using hends
      refine ⟨s.stopped i .embed,by simp only [SidecarRuntime.stopRuns, hi, Bool.false_eq_true,
        if_false, if_neg hgone],not_absorbed_running _ (hreturned s i rfl honly) (fun hv => ?_)⟩
      exact (hruns (hv .chat)).2 (hv .embed)

/-- A turn of the event loop that is not blocked. -/
theorem step_loop (s : SidecarRuntime) (e : Event) (hb : s.blocked = none) : step s e = act s e := by
  simp [step, hb]

theorem step_bad (s : SidecarRuntime) (e : Event) (h : Inv s) (ho : ¬ Orderly s e) :
    ∃ s', step s e = some s' ∧ ¬ Absorbed s' := by
  cases e with
  | bootStarts chat embed =>
    simp only [Orderly, Classical.not_imp] at ho
    obtain ⟨hb, hq, hbad⟩ := ho
    exact ⟨s.bootStart chat embed,(step_loop s _ hb).trans (if_pos hq),bootStart_bad s chat embed hbad⟩
  | bootReady =>
    simp only [Orderly, Classical.not_imp, Bool.not_eq_false] at ho
    obtain ⟨hb, hq, hbegan⟩ := ho
    exact ⟨{ s with status := .ok, boot := .ended },(step_loop s _ hb).trans (if_pos hq),
      not_absorbed_status _ hbegan (by simp)⟩
  | bootFails exc =>
    simp only [Orderly, Classical.not_imp, Bool.not_eq_false] at ho
    obtain ⟨hb, hq, hbegan⟩ := ho
    exact ⟨s.bootFailed exc,(step_loop s _ hb).trans (if_pos hq),
      not_absorbed_status _ hbegan (by simp [SidecarRuntime.bootFailed])⟩
  | restarted =>
    simp only [Orderly, Classical.not_imp, not_forall, Bool.not_eq_false] at ho
    obtain ⟨hb, v, exc, ht, hsup, hbegan⟩ := ho
    refine ⟨s.restarted v (some exc),(step_loop s _ hb).trans ?_,restarted_bad s v exc hbegan⟩
    simp only [act, ht, if_pos hsup]
  | threadRuns exc =>
    simp only [Orderly, not_forall, not_not] at ho
    obtain ⟨rfl, v, again, ht, hall⟩ := ho
    refine ⟨{ s.spawn v with thread := some (v,.wait again) },?_,?_⟩
    · simp only [step, Event.onLoop, Bool.false_and, Bool.false_eq_true, if_false, act, ht,
        SidecarRuntime.threadStep]
    refine not_absorbed_running _ hall (fun hv => ?_)
    have := hv v
    simp [SidecarRuntime.spawn] at this
  | teardown i =>
    simp only [Orderly, Classical.not_imp] at ho
    obtain ⟨hb, hc, hr, hall, hv⟩ := ho
    refine ⟨s.teardown i,(step_loop s _ hb).trans (if_pos hc),?_⟩
    have hstatus : s.cancelTasks.status = .stopping := h.status (h.began hr)
    rw [SidecarRuntime.teardown, if_neg (not_not.mpr hstatus)]
    exact not_absorbed_running _ ⟨hr,fun j => (cancelled_none _).mpr (hall j)⟩ hv
  | stopCancelled i =>
    simp only [Orderly, Classical.not_imp] at ho
    obtain ⟨hb, hi, hr, hall, hv⟩ := ho
    obtain ⟨k, hk⟩ := Option.ne_none_iff_exists'.mp hi
    refine ⟨{ s with stops := Function.update s.stops i none },(step_loop s _ hb).trans ?_,?_⟩
    · simp only [act, hk]
    refine not_absorbed_running _ ⟨hr,fun j => ?_⟩ hv
    by_cases hj : j = i
    · simp [hj]
    · simpa [hj] using hall j hj
  | stopRuns timeout =>
    obtain ⟨s', hst, hbad⟩ := stopRuns_bad s timeout ho
    exact ⟨s',by simpa [step, Event.onLoop, act] using hst,hbad⟩
  | serversReady | proxyUp | connected | supervisorWakes | threadDropped | crash | shutdown
  | watchdogStops | parentGone | disconnected | proxyExited =>
    exact absurd trivial ho

/-- In every state of a run the status stays `stopping` once a stop was called
and no server runs once the last stop has returned, exactly when every step of
the run is orderly. -/
theorem shutdown_absorbing_iff (es : List Event) :
    Always step Absorbed init es ↔ Meets step Orderly init es :=
  always_iff_meets inv_step (fun _ h => h.toAbsorbed) step_bad es init inv_init

/-- A stop while the models load ends the servers, the boot task then finds one
of them gone and reports an error; and a restart of the chat server that was in
the worker thread when the stop came starts it while the stop waits for the
embedding server, and it outlives the stop. -/
theorem shutdown_undone :
    (∃ s, run step init [.bootStarts none none,.shutdown 0,.stopRuns false,.crash .chat,
      .stopRuns false,.stopRuns false,.crash .embed,.stopRuns false,.bootFails "exited early"] = some s ∧
      s.stopBegan = true ∧ s.status = .error) ∧
    ∃ s, run step init [.bootStarts none none,.serversReady,.proxyUp,.connected,.bootReady,
      .crash .chat,.supervisorWakes,.threadRuns none,.shutdown 0,.disconnected 0,.proxyExited 0,
      .stopRuns false,.stopRuns false,.threadRuns none,.crash .embed,.stopRuns false] = some s ∧
      s.returned = true ∧ s.stops 0 = none ∧ s.running .chat = true := by
  exact ⟨⟨_,rfl,rfl,rfl⟩,_,rfl,rfl,rfl,rfl⟩

end Uru.Runtime.Shutdown
