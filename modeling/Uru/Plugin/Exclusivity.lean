import Uru.Plugin.Backend

/-!
# One backend at a time

Along every orderly run the stored manager alone may own a live sidecar, one
indexer at most has its handlers registered, and an unload or an uninstall
leaves neither behind. A run is orderly when no boot starts over a manager
that is not down or during an uninstall, no stop is called on a manager about
to spawn, none clears a manager that replaced the stopped one, and after an
unload no handlers are registered and no failed boot leaves its manager up.
-/

set_option autoImplicit false

namespace Uru.Plugin.Backend
open Uru.Lib.Machine

/-- Not alive, and nothing it has pending will spawn. -/
structure Down (m : Manager) : Prop where
  alive : m.alive = false
  starting : m.starting = false
  restarting : m.restarting = false
  pending : m.stoppedByUs = true ∨ m.crashed = false ∧ m.reloading = false

/-- No call of `start` is before its spawn. -/
def Calm (m : Manager) : Prop := m.starting = false ∧ m.restarting = false

/-- A stop that waits for what is alive, with nothing about to spawn. -/
structure Proper (m : Manager) (awaited : Option ℕ) : Prop where
  calm : Calm m
  stoppedByUs : m.stoppedByUs = true
  waits : m.alive = true → awaited = some m.deaths

theorem down_step (m m' : Manager) (e : Manager.Event) (h : Down m) (hst : m.step e = some m') :
    Down m' := by
  obtain ⟨halive, hstarting, hrestarting, hpending⟩ := h
  cases e with
  | takenOver => simp [Manager.step, hstarting, hrestarting] at hst
  | spawned => simp [Manager.step, hstarting] at hst
  | portFailed => simp [Manager.step, hstarting] at hst
  | died again => simp [Manager.step, halive] at hst
  | respawned => simp [Manager.step, hrestarting] at hst
  | respawnFailed again => simp [Manager.step, hrestarting] at hst
  | backoffOver =>
    simp only [Manager.step] at hst
    split_ifs at hst with hc
    cases hst
    have hs := hpending.resolve_right (by simp [hc])
    exact ⟨halive,hstarting,by simp [Manager.backoffOver, hrestarting, hs],Or.inl hs⟩
  | restartReady =>
    simp only [Manager.step] at hst
    split_ifs at hst with hc
    cases hst
    exact ⟨halive,hstarting,hrestarting,hpending.imp id (fun hn => ⟨hn.1,rfl⟩)⟩
  | restartFailed unseen again =>
    simp only [Manager.step] at hst
    split_ifs at hst with hc
    cases hst
    have hs := hpending.resolve_right (by simp [hc])
    refine ⟨?_,?_,?_,Or.inl ?_⟩ <;>
      simp [Manager.startFailed, halive, hstarting, hrestarting, hs]

theorem down_stop (m : Manager) (h : Down m) : Down m.stop :=
  ⟨h.alive,h.starting,h.restarting,Or.inl rfl⟩

theorem down_fresh : Down Manager.fresh := ⟨rfl,rfl,rfl,Or.inr ⟨rfl,rfl⟩⟩

theorem proper_step (m m' : Manager) (e : Manager.Event) (aw : Option ℕ) (h : Proper m aw)
    (hst : m.step e = some m') : Proper m' aw := by
  obtain ⟨⟨hstarting, hrestarting⟩, hs, hwaits⟩ := h
  cases e with
  | takenOver => simp [Manager.step, hstarting, hrestarting] at hst
  | spawned => simp [Manager.step, hstarting] at hst
  | portFailed => simp [Manager.step, hstarting] at hst
  | respawned => simp [Manager.step, hrestarting] at hst
  | respawnFailed again => simp [Manager.step, hrestarting] at hst
  | died again =>
    simp only [Manager.step] at hst
    split_ifs at hst
    cases hst
    exact ⟨⟨hstarting,hrestarting⟩,hs,fun ha => by simp [Manager.died] at ha⟩
  | backoffOver =>
    simp only [Manager.step] at hst
    split_ifs at hst
    cases hst
    exact ⟨⟨hstarting,by simp [Manager.backoffOver, hrestarting, hs]⟩,hs,hwaits⟩
  | restartReady =>
    simp only [Manager.step] at hst
    split_ifs at hst
    cases hst
    exact ⟨⟨hstarting,hrestarting⟩,hs,hwaits⟩
  | restartFailed unseen again =>
    simp only [Manager.step] at hst
    split_ifs at hst
    cases hst
    cases ha : m.alive
    · refine ⟨⟨?_,?_⟩,?_,fun hn => ?_⟩
      · simpa [Manager.startFailed, ha] using hstarting
      · simpa [Manager.startFailed, ha] using hrestarting
      · simp [Manager.startFailed, ha, hs]
      · simp [Manager.startFailed, ha] at hn
    · refine ⟨⟨?_,?_⟩,?_,fun hn => ?_⟩
      · simpa [Manager.startFailed, ha] using hstarting
      · simpa [Manager.startFailed, ha] using hrestarting
      · simp [Manager.startFailed, ha]
      · simp [Manager.startFailed, ha] at hn

theorem proper_stop (m : Manager) (aw : Option ℕ) (h : Proper m aw) : Proper m.stop aw :=
  ⟨h.calm,rfl,h.waits⟩

theorem proper_called (m : Manager) (h : Calm m) : Proper m.stop m.awaited := by
  refine ⟨h,rfl,fun ha => ?_⟩
  rw [Manager.awaited, if_pos (show m.alive = true from ha)]
  rfl

/-- A stop that resolves leaves its manager down. -/
theorem down_of_exited (m : Manager) (aw : Option ℕ) (h : Proper m aw)
    (hx : m.exited aw = true) : Down m := by
  refine ⟨?_,h.calm.1,h.calm.2,Or.inl h.stoppedByUs⟩
  by_contra ha
  rw [Bool.not_eq_false] at ha
  rw [h.waits ha] at hx
  simp [Manager.exited] at hx

structure Exclusive (s : UruPlugin) : Prop where
  manager : ∀ m, (s.managers m).alive = true → s.manager = some m
  indexer : ∀ i ∈ s.eventOffs, ∀ j ∈ s.eventOffs, i = j

def Settled (s : UruPlugin) : Prop := s.boot = none ∧ ∀ t, s.tasks t = none

/-- After an unload, or after an uninstall that no boot followed, nothing is
left once everything has settled. -/
def Gone (s : UruPlugin) : Prop := s.unloaded = true ∨ s.deleted = true → Settled s →
  (∀ m, (s.managers m).alive = false) ∧ s.eventOffs = []

def Sound (s : UruPlugin) : Prop := Exclusive s ∧ Gone s

def Deleting (k : Option Task) : Prop :=
  (∃ b, k = some (.waiting .delete b)) ∨ (∃ m aw, k = some (.stopping .delete m aw)) ∨
    (∃ had, k = some (.flushing .delete had)) ∨ k = some .saving

def NoDelete (s : UruPlugin) : Prop := ∀ t, ¬ Deleting (s.tasks t)

def Starting (s : UruPlugin) (m : ℕ) : Prop :=
  s.boot = some (.starting m) ∨ s.boot = some (.savingNamespace m)

def Unloading (s : UruPlugin) (m : ℕ) : Prop :=
  (∃ t had, s.tasks t = some (.flushing .unload had)) ∨
    ∃ t aw, s.tasks t = some (.stopping .unload m aw) ∧ Proper (s.managers m) aw

def StoredCalm (s : UruPlugin) : Prop := ∀ m, s.manager = some m → Calm (s.managers m)

/-- The stored manager is the one that was stopped, or is down. -/
def StoredSame (s : UruPlugin) (m : ℕ) : Prop :=
  ∀ m', s.manager = some m' → m' = m ∨ Down (s.managers m')

def OrderlyTask (s : UruPlugin) : Task → Prop
  | .waiting _ _ => StoredCalm s
  | .stopping .unload _ _ => True
  | .stopping op m _ => StoredSame s m ∧ (op = .restart → s.boot = none → NoDelete s)
  | .flushing .unload _ => ∀ m, s.manager = some m → Calm (s.managers m) ∨ Starting s m
  | _ => True

def OrderlyBoot (s : UruPlugin) : Boot → Prop
  | .persisting => ∀ m, s.manager = some m → Down (s.managers m)
  | .starting _ => s.unloaded = true → StoredCalm s
  | .savingNamespace _ => s.unloaded = true → StoredCalm s
  | .undoing none => ∀ m, s.manager = some m → Down (s.managers m)
  | .undoing (some (m,_)) => StoredSame s m
  | .loading => s.indexer.isSome = true → s.unloaded = false
  | _ => True

def OrderlyReject (s : UruPlugin) (unseen : Bool) : Boot → Prop
  | .starting m => s.unloaded = true → s.manager = some m →
      Down ((s.managers m).startFailed unseen) ∨ Unloading s m
  | .savingNamespace m => s.unloaded = true → s.manager = some m →
      Down (s.managers m) ∨ Unloading s m
  | .undoing _ => ∀ m, s.manager = some m → Down (s.managers m) ∨ Unloading s m
  | _ => True

def Orderly (s : UruPlugin) : Event → Prop
  | .runBackend _ => s.boot = none → NoDelete s
  | .restartBackend _ => s.boot = none → (s.manager = none → NoDelete s) ∧ StoredCalm s
  | .resume t => ∀ k, s.tasks t = some k → OrderlyTask s k
  | .stopRejects t => ∀ m aw, s.tasks t ≠ some (.stopping .unload m aw)
  | .bootResume _ => ∀ b, s.boot = some b → OrderlyBoot s b
  | .bootReject unseen => ∀ b, s.boot = some b → OrderlyReject s unseen b
  | _ => True

def Covered (s : UruPlugin) (m : ℕ) : Prop :=
  Down (s.managers m) ∨ Unloading s m ∨ Starting s m ∨
    ∃ aw, s.boot = some (.undoing (some (m,aw)))

def Erased (s : UruPlugin) : Prop := s.boot = none ∧ s.manager = none ∧ s.eventOffs = []

def TaskOk (s : UruPlugin) : Option Task → Prop
  | some (.waiting op b) => op = .setup ∨ op = .delete ∧ (s.boot = none ∨ b = some s.boots)
  | some (.stopping op m aw) =>
    (op ≠ .unload → Proper (s.managers m) aw) ∧ (op = .delete → s.boot = none)
  | some (.flushing op _) => op = .unload ∨ op = .delete ∧ Erased s
  | some .saving => Erased s
  | _ => True

def BootOk (s : UruPlugin) : Option Boot → Prop
  | some (.starting m) => m < s.nextManager
  | some (.undoing (some (m,aw))) => Proper (s.managers m) aw
  | some (.flushing _) => s.eventOffs = []
  | some .loading => s.eventOffs = []
  | _ => True

structure Inv (s : UruPlugin) : Prop where
  fresh : ∀ m, s.nextManager ≤ m → s.managers m = Manager.fresh
  stored : ∀ m, s.manager = some m → m < s.nextManager
  others : ∀ m, s.manager ≠ some m → Down (s.managers m)
  tasks : ∀ t, TaskOk s (s.tasks t)
  boot : BootOk s s.boot
  covered : s.unloaded = true → ∀ m, s.manager = some m → Covered s m
  clear : s.unloaded = true → s.eventOffs = []
  single : s.eventOffs.length ≤ 1
  deleted : s.deleted = true → Erased s

theorem inv_init (vaultKey : Bool) : Inv (init vaultKey) := by
  refine ⟨fun _ _ => rfl,?_,fun _ _ => down_fresh,fun _ => trivial,trivial,?_,?_,?_,?_⟩ <;>
    simp [init]

theorem inv_sound (s : UruPlugin) (h : Inv s) : Sound s := by
  have hdown : ∀ m, s.manager ≠ some m → (s.managers m).alive = false :=
    fun m hm => (h.others m hm).alive
  refine ⟨⟨fun m hm => ?_,fun i hi j hj => ?_⟩,fun hgone hset => ?_⟩
  · by_contra hn
    rw [hdown m hn] at hm
    cases hm
  · have hsingle := h.single
    rcases hl : s.eventOffs with _ | ⟨a,l⟩
    · simp [hl] at hi
    · have : l = [] := by
        rw [hl] at hsingle
        exact List.length_eq_zero_iff.mp (by simpa using hsingle)
      simp only [hl, this, List.mem_singleton] at hi hj
      exact hi.trans hj.symm
  · rcases hgone with hu | hd
    · refine ⟨fun m => ?_,h.clear hu⟩
      by_cases hm : s.manager = some m
      · rcases h.covered hu m hm with hc | hc | hc | hc
        · exact hc.alive
        · rcases hc with ⟨t,had,ht⟩ | ⟨t,aw,ht,_⟩ <;> simp [hset.2 t] at ht
        · rcases hc with hc | hc <;> simp [hset.1] at hc
        · obtain ⟨aw, hc⟩ := hc
          simp [hset.1] at hc
      · exact hdown m hm
    · obtain ⟨_, hnone, hoffs⟩ := h.deleted hd
      exact ⟨fun m => hdown m (by simp [hnone]),hoffs⟩

structure Keeps (x y : Manager) : Prop where
  down : Down x → Down y
  proper : ∀ aw, Proper x aw → Proper y aw

theorem keeps_stop (m : Manager) : Keeps m m.stop := ⟨down_stop m,proper_stop m⟩

theorem keeps_step (m m' : Manager) (e : Manager.Event) (hst : m.step e = some m') :
    Keeps m m' :=
  ⟨fun h => down_step m m' e h hst,fun aw h => proper_step m m' e aw h hst⟩

theorem keeps_startFailed (m : Manager) (unseen : Bool) : Keeps m (m.startFailed unseen) := by
  refine ⟨fun h => ?_,fun aw h => ?_⟩
  · rw [Manager.startFailed, if_neg (by simp [h.alive])]
    refine ⟨h.alive,h.starting,h.restarting,h.pending.imp (fun hp => ?_) id⟩
    simp [hp]
  · unfold Manager.startFailed
    split
    · exact ⟨h.calm,rfl,fun ha => by cases ha⟩
    · exact ⟨h.calm,by simp [h.stoppedByUs],h.waits⟩

theorem taskOk_mono (s s' : UruPlugin) (k : Option Task) (hboot : s.boot = none → s'.boot = none)
    (hboots : s'.boots = s.boots) (herased : Erased s → Erased s')
    (hproper : ∀ m aw, Proper (s.managers m) aw → Proper (s'.managers m) aw)
    (h : TaskOk s k) : TaskOk s' k := by
  rcases k with _ | k
  · trivial
  · cases k with
    | joined b => trivial
    | waiting op b =>
      exact Or.imp id (fun hd => ⟨hd.1,Or.imp hboot (fun hb => hboots ▸ hb) hd.2⟩) h
    | stopping op m aw => exact ⟨fun hop => hproper m aw (h.1 hop),fun hop => hboot (h.2 hop)⟩
    | flushing op had =>
      exact Or.imp id (fun hd => ⟨hd.1,herased hd.2⟩) h
    | saving => exact herased h

theorem bootOk_mono (s s' : UruPlugin) (b : Option Boot) (hnext : s'.nextManager = s.nextManager)
    (hoffs : s.eventOffs = [] → s'.eventOffs = [])
    (hproper : ∀ m aw, Proper (s.managers m) aw → Proper (s'.managers m) aw)
    (h : BootOk s b) : BootOk s' b := by
  rcases b with _ | b
  · trivial
  · cases b with
    | undoing k =>
      rcases k with _ | ⟨m,aw⟩
      · trivial
      · exact hproper m aw h
    | flushing had => exact hoffs h
    | loading => exact hoffs h
    | starting m => exact Nat.lt_of_lt_of_eq h hnext.symm
    | savingKey | ensuring | persisting | savingNamespace => trivial

theorem managers_setManager (s : UruPlugin) (m u : ℕ) (x : Manager) :
    (s.setManager m x).managers u = if u = m then x else s.managers u := by
  simp only [UruPlugin.setManager, Function.update_apply]

theorem proper_setManager (s : UruPlugin) (m : ℕ) (x : Manager) (hk : Keeps (s.managers m) x)
    (u : ℕ) (aw : Option ℕ) (h : Proper (s.managers u) aw) :
    Proper ((s.setManager m x).managers u) aw := by
  rw [managers_setManager]
  split
  · rename_i hum
    exact hk.proper aw (hum ▸ h)
  · exact h

theorem unloading_setManager (s : UruPlugin) (m : ℕ) (x : Manager) (hk : Keeps (s.managers m) x)
    (u : ℕ) (h : Unloading s u) : Unloading (s.setManager m x) u := by
  refine h.imp id ?_
  rintro ⟨t, aw, ht, hp⟩
  exact ⟨t,aw,ht,proper_setManager s m x hk u aw hp⟩

theorem inv_setManager (s : UruPlugin) (h : Inv s) (m : ℕ) (x : Manager)
    (hk : Keeps (s.managers m) x) (hm : m < s.nextManager) : Inv (s.setManager m x) := by
  have hdown : ∀ u, Down (s.managers u) → Down ((s.setManager m x).managers u) := by
    intro u hu
    rw [managers_setManager]
    split
    · rename_i hum
      exact hk.down (hum ▸ hu)
    · exact hu
  have hproper := proper_setManager s m x hk
  refine ⟨fun u hu => ?_,h.stored,fun u hu => hdown u (h.others u hu),fun t => ?_,?_,
    fun hun u hu => ?_,h.clear,h.single,h.deleted⟩
  · rw [managers_setManager, if_neg]
    · exact h.fresh u hu
    · have : s.nextManager ≤ u := hu
      omega
  · exact taskOk_mono s _ _ id rfl id hproper (h.tasks t)
  · exact bootOk_mono s _ _ rfl id hproper h.boot
  · rcases h.covered hun u hu with hc | hc | hc | hc
    · exact Or.inl (hdown u hc)
    · exact Or.inr (Or.inl (unloading_setManager s m x hk u hc))
    · exact Or.inr (Or.inr (Or.inl hc))
    · exact Or.inr (Or.inr (Or.inr hc))

theorem tasks_setTask (s : UruPlugin) (t u : ℕ) (k : Option Task) :
    (s.setTask t k).tasks u = if u = t then k else s.tasks u := by
  simp only [UruPlugin.setTask, Function.update_apply]

/-- A call whose end no manager waits for after an unload. -/
def Dispensable (s : UruPlugin) (t : ℕ) : Prop :=
  (∀ had, s.tasks t ≠ some (.flushing .unload had)) ∧
    ∀ m aw, s.tasks t ≠ some (.stopping .unload m aw)

theorem covered_setTask (s : UruPlugin) (t : ℕ) (k : Option Task) (ht : Dispensable s t) (m : ℕ)
    (h : Covered s m) : Covered (s.setTask t k) m := by
  rcases h with h | h | h | h
  · exact Or.inl h
  · refine Or.inr (Or.inl ?_)
    rcases h with ⟨u,had,hu⟩ | ⟨u,aw,hu,hp⟩
    · refine Or.inl ⟨u,had,?_⟩
      rw [tasks_setTask, if_neg, hu]
      rintro rfl
      exact ht.1 had hu
    · refine Or.inr ⟨u,aw,?_,hp⟩
      rw [tasks_setTask, if_neg, hu]
      rintro rfl
      exact ht.2 m aw hu
  · exact Or.inr (Or.inr (Or.inl h))
  · exact Or.inr (Or.inr (Or.inr h))

theorem inv_setTask (s : UruPlugin) (h : Inv s) (t : ℕ) (k : Option Task) (hk : TaskOk s k)
    (hc : s.unloaded = true → ∀ m, s.manager = some m → Covered (s.setTask t k) m) :
    Inv (s.setTask t k) := by
  refine ⟨h.fresh,h.stored,h.others,fun u => ?_,?_,hc,h.clear,h.single,h.deleted⟩
  · rw [tasks_setTask]
    split
    · exact taskOk_mono s _ k id rfl id (fun _ _ hp => hp) hk
    · exact taskOk_mono s _ _ id rfl id (fun _ _ hp => hp) (h.tasks u)
  · exact bootOk_mono s _ _ rfl id (fun _ _ hp => hp) h.boot

theorem inv_setTask_dispensable (s : UruPlugin) (h : Inv s) (t : ℕ) (k : Option Task)
    (hk : TaskOk s k) (ht : Dispensable s t) : Inv (s.setTask t k) :=
  inv_setTask s h t k hk (fun hu m hm => covered_setTask s t k ht m (h.covered hu m hm))

theorem dispensable_free (s : UruPlugin) (t : ℕ) (ht : s.tasks t = none) : Dispensable s t :=
  ⟨fun had => by simp [ht],fun m aw => by simp [ht]⟩

theorem inv_setBoot (s : UruPlugin) (h : Inv s) (hold : s.boot ≠ none) (b : Option Boot)
    (hb : BootOk s b) (hc : s.unloaded = true → ∀ m, s.manager = some m → Covered s m →
      Covered { s with boot := b } m) : Inv { s with boot := b } :=
  ⟨h.fresh,h.stored,h.others,
    fun t => taskOk_mono s _ _ (fun hn => absurd hn hold) rfl (fun he => absurd he.1 hold)
      (fun _ _ hp => hp) (h.tasks t),
    bootOk_mono s _ _ rfl id (fun _ _ hp => hp) hb,fun hu m hm => hc hu m hm (h.covered hu m hm),
    h.clear,h.single,fun hd => absurd (h.deleted hd).1 hold⟩

theorem inv_noManager (s : UruPlugin) (h : Inv s)
    (hd : ∀ m, s.manager = some m → Down (s.managers m)) : Inv { s with manager := none } := by
  refine ⟨h.fresh,fun m hm => by simp at hm,fun m _ => ?_,fun t => ?_,?_,
    fun _ m hm => by simp at hm,h.clear,h.single,fun hdel => ?_⟩
  · by_cases hm : s.manager = some m
    · exact hd m hm
    · exact h.others m hm
  · exact taskOk_mono s _ _ id rfl (fun he => ⟨he.1,rfl,he.2.2⟩) (fun _ _ hp => hp) (h.tasks t)
  · exact bootOk_mono s _ _ rfl id (fun _ _ hp => hp) h.boot
  · exact ⟨(h.deleted hdel).1,rfl,(h.deleted hdel).2.2⟩

theorem inv_noOffs (s : UruPlugin) (h : Inv s) : Inv { s with eventOffs := [] } :=
  ⟨h.fresh,h.stored,h.others,
    fun t => taskOk_mono s _ _ id rfl (fun he => ⟨he.1,he.2.1,rfl⟩) (fun _ _ hp => hp) (h.tasks t),
    bootOk_mono s _ _ rfl (fun _ => rfl) (fun _ _ hp => hp) h.boot,h.covered,fun _ => rfl,by simp,
    fun hd => ⟨(h.deleted hd).1,(h.deleted hd).2.1,rfl⟩⟩

theorem inv_indexer (s : UruPlugin) (h : Inv s) (i : Option ℕ) (n : ℕ) :
    Inv { s with indexer := i, nextIndexer := n } :=
  ⟨h.fresh,h.stored,h.others,h.tasks,h.boot,h.covered,h.clear,h.single,h.deleted⟩

theorem inv_notDeleted (s : UruPlugin) (h : Inv s) : Inv { s with deleted := false } :=
  ⟨h.fresh,h.stored,h.others,h.tasks,h.boot,h.covered,h.clear,h.single,fun hd => by cases hd⟩

/-- Without an uninstall under way no suspended call counts on there being no
boot. -/
theorem taskOk_begin (s s' : UruPlugin) (k : Option Task) (hk : ¬ Deleting k)
    (hmanagers : s'.managers = s.managers) (h : TaskOk s k) : TaskOk s' k := by
  rcases k with _ | k
  · trivial
  · cases k with
    | joined b => trivial
    | waiting op b =>
      exact Or.inl (h.resolve_right (fun hd => hk (Or.inl ⟨b,by rw [hd.1]⟩)))
    | stopping op m aw =>
      refine ⟨fun hop => hmanagers ▸ h.1 hop,fun hop => ?_⟩
      exact absurd (Or.inr (Or.inl ⟨m,aw,by rw [hop]⟩)) hk
    | flushing op had =>
      refine Or.inl (h.resolve_right (fun hd => hk ?_))
      exact Or.inr (Or.inr (Or.inl ⟨had,by rw [hd.1]⟩))
    | saving => exact absurd (Or.inr (Or.inr (Or.inr rfl))) hk

theorem inv_begin (s : UruPlugin) (h : Inv s) (hboot : s.boot = none) (hn : NoDelete s) :
    Inv { s with
      boot := some (if s.vaultKey then .ensuring else .savingKey), boots := s.boots+1,
      vaultKey := true, deleted := false } := by
  refine ⟨h.fresh,h.stored,h.others,fun u => taskOk_begin s _ _ (hn u) rfl (h.tasks u),?_,
    fun hu m hm => ?_,h.clear,h.single,fun hd => by cases hd⟩
  · cases hkey : s.vaultKey <;> simp [BootOk]
  · rcases h.covered hu m hm with hc | hc | hc | hc
    · exact Or.inl hc
    · exact Or.inr (Or.inl hc)
    · rcases hc with hc | hc <;> simp [hboot] at hc
    · obtain ⟨aw, hc⟩ := hc
      simp [hboot] at hc

theorem inv_runBackend (s : UruPlugin) (h : Inv s) (t : ℕ) (ht : Dispensable s t)
    (hn : s.boot = none → NoDelete s) : Inv (s.runBackend t) := by
  unfold UruPlugin.runBackend
  simp only
  split
  · exact inv_setTask_dispensable _ (inv_notDeleted s h) t _ trivial ht
  · rename_i hboot
    exact inv_setTask_dispensable _ (inv_begin s h hboot (hn hboot)) t (some (.joined (s.boots+1)))
      trivial ht

theorem inv_stopManager (s : UruPlugin) (h : Inv s) (t : ℕ) (op : Op) (m : ℕ)
    (hm : s.manager = some m) (hcalm : Calm (s.managers m)) (ht : Dispensable s t)
    (hdel : op = .delete → s.boot = none) : Inv (s.stopManager t op m) := by
  have hs := inv_setManager s h m _ (keeps_stop (s.managers m)) (h.stored m hm)
  refine inv_setTask_dispensable _ hs t _ ⟨fun _ => ?_,hdel⟩ ht
  rw [managers_setManager, if_pos rfl]
  exact proper_called _ hcalm

theorem inv_stopIndexer (s : UruPlugin) (h : Inv s) (t : ℕ) (ht : Dispensable s t)
    (hboot : s.boot = none) (hmanager : s.manager = none) : Inv (s.stopIndexer t .delete) :=
  inv_setTask_dispensable _ (inv_noOffs s h) t _ (Or.inr ⟨rfl,hboot,hmanager,rfl⟩) ht

theorem inv_onunload (s : UruPlugin) (h : Inv s) (t : ℕ) (ht : s.tasks t = none) :
    Inv (s.onunload t) := by
  have hs := inv_noOffs s h
  have hflush : (s.onunload t).tasks t = some (.flushing .unload s.indexer.isSome) := by
    simp [UruPlugin.onunload, UruPlugin.stopIndexer, UruPlugin.setTask]
  have hset := inv_setTask_dispensable _ hs t (some (.flushing .unload s.indexer.isSome))
    (Or.inl rfl) (dispensable_free _ t ht)
  exact ⟨hset.fresh,hset.stored,hset.others,hset.tasks,hset.boot,
    fun _ m _ => Or.inr (Or.inl (Or.inl ⟨t,_,hflush⟩)),fun _ => rfl,hset.single,hset.deleted⟩

/-- An operation goes on with its manager stopped. -/
theorem inv_managerStopped (s : UruPlugin) (h : Inv s) (t : ℕ) (op : Op) (hop : op ≠ .unload)
    (ht : Dispensable s t) (hd : ∀ m, s.manager = some m → Down (s.managers m))
    (hdel : op = .delete → s.boot = none)
    (hn : op = .restart → s.boot = none → NoDelete s) : Inv (s.managerStopped t op) := by
  have hs := inv_noManager s h hd
  cases op with
  | restart => exact inv_runBackend _ hs t ht (hn rfl)
  | setup => exact inv_setTask_dispensable _ hs t none trivial ht
  | delete => exact inv_stopIndexer _ hs t ht (hdel rfl) rfl
  | unload => exact absurd rfl hop

theorem inv_restartBackend (s : UruPlugin) (h : Inv s) (t : ℕ) (ht : s.tasks t = none)
    (ho : Orderly s (.restartBackend t)) : Inv (s.restartBackend t) := by
  have hfree := dispensable_free s t ht
  unfold UruPlugin.restartBackend
  split
  · exact h
  · rename_i hboot
    obtain ⟨hn, hcalm⟩ := ho hboot
    split
    · rename_i m hm
      exact inv_stopManager s h t .restart m hm (hcalm m hm) hfree (by simp)
    · rename_i hm
      exact inv_runBackend s h t hfree (fun _ => hn hm)

/-- An operation that has waited for the boot stops the stored manager. -/
theorem inv_stopStored (s : UruPlugin) (h : Inv s) (t : ℕ) (op : Op) (hop : op ≠ .unload)
    (hrestart : op ≠ .restart) (ht : Dispensable s t) (hcalm : StoredCalm s)
    (hdel : op = .delete → s.boot = none) : Inv (s.stopStored t op) := by
  unfold UruPlugin.stopStored
  split
  · rename_i m hm
    exact inv_stopManager s h t op m hm (hcalm m hm) ht hdel
  · rename_i hm
    exact inv_managerStopped s h t op hop ht (fun m hsome => by simp [hm] at hsome) hdel
      (fun hr => absurd hr hrestart)

/-- The stop after the flush of an unload, unless a boot will see to it. -/
theorem inv_unloadStop (s : UruPlugin) (h : Inv s) (t : ℕ)
    (hcalm : ∀ m, s.manager = some m → Calm (s.managers m) ∨ Starting s m) :
    Inv (s.stopStored t .unload) := by
  unfold UruPlugin.stopStored
  split
  · rename_i m hm
    have hs := inv_setManager s h m _ (keeps_stop (s.managers m)) (h.stored m hm)
    refine inv_setTask _ hs t _ ⟨fun hop => absurd rfl hop,by simp⟩ (fun _ m' hm' => ?_)
    have hmm : m' = m := Option.some.inj (hm'.symm.trans hm)
    subst hmm
    rcases hcalm m' hm with hcalm | hstart
    · refine Or.inr (Or.inl (Or.inr ⟨t,(s.managers m').awaited,?_,?_⟩))
      · rw [tasks_setTask, if_pos rfl]
      · show Proper ((s.setManager m' (s.managers m').stop).managers m') _
        rw [managers_setManager, if_pos rfl]
        exact proper_called _ hcalm
    · exact Or.inr (Or.inr (Or.inl hstart))
  · rename_i hm
    exact inv_setTask s h t none trivial (fun _ m hsome => by simp [hm] at hsome)

/-- The stop of an unload has done its part when it resolves. -/
theorem covered_stopped (s : UruPlugin) (t m : ℕ) (aw : Option ℕ)
    (ht : s.tasks t = some (.stopping .unload m aw)) (hx : (s.managers m).exited aw = true)
    (m' : ℕ) (h : Covered s m') : Covered (s.setTask t none) m' := by
  rcases h with h | (⟨u,had,hu⟩ | ⟨u,aw',hu,hp⟩) | h | h
  · exact Or.inl h
  · refine Or.inr (Or.inl (Or.inl ⟨u,had,?_⟩))
    rw [tasks_setTask, if_neg, hu]
    rintro rfl
    simp [ht] at hu
  · by_cases hut : u = t
    · subst hut
      rw [ht] at hu
      cases hu
      exact Or.inl (down_of_exited _ aw hp hx)
    · refine Or.inr (Or.inl (Or.inr ⟨u,aw',?_,hp⟩))
      rw [tasks_setTask, if_neg hut, hu]
  · exact Or.inr (Or.inr (Or.inl h))
  · exact Or.inr (Or.inr (Or.inr h))

theorem inv_resume (s : UruPlugin) (h : Inv s) (t : ℕ) (k : Task) (ht : s.tasks t = some k)
    (ho : OrderlyTask s k) (s' : UruPlugin) (hst : s.resume t k = some s') : Inv s' := by
  have hk := h.tasks t
  rw [ht] at hk
  cases k with
  | joined b =>
    simp only [UruPlugin.resume] at hst
    split_ifs at hst
    cases hst
    exact inv_setTask_dispensable s h t none trivial ⟨by simp [ht],by simp [ht]⟩
  | waiting op b =>
    simp only [UruPlugin.resume] at hst
    split_ifs at hst with hset
    cases hst
    have hdisp : Dispensable s t := ⟨by simp [ht],by simp [ht]⟩
    rcases hk with rfl | ⟨rfl, hb⟩
    · exact inv_stopStored s h t .setup (by simp) (by simp) hdisp ho (by simp)
    · refine inv_stopStored s h t .delete (by simp) (by simp) hdisp ho (fun _ => ?_)
      rcases hb with hb | rfl
      · exact hb
      · simpa [UruPlugin.settled] using hset
  | stopping op m aw =>
    simp only [UruPlugin.resume] at hst
    split_ifs at hst with hx
    cases hst
    by_cases hop : op = .unload
    · subst hop
      exact inv_setTask s h t none trivial
        (fun hu m' hm' => covered_stopped s t m aw ht hx m' (h.covered hu m' hm'))
    · have hdown := down_of_exited _ aw (hk.1 hop) hx
      have hsame : StoredSame s m ∧ (op = .restart → s.boot = none → NoDelete s) := by
        cases op with
        | unload => exact absurd rfl hop
        | restart | setup | delete => exact ho
      refine inv_managerStopped s h t op hop ⟨by simp [ht],by simp [ht, hop]⟩ (fun m' hm' => ?_)
        hk.2 hsame.2
      rcases hsame.1 m' hm' with rfl | hd
      · exact hdown
      · exact hd
  | flushing op had =>
    have hs : Inv (s.indexerStopped had) :=
      inv_indexer s h (if had then none else s.indexer) s.nextIndexer
    rcases hk with rfl | ⟨rfl, herased⟩
    · cases hst
      exact inv_unloadStop _ hs t ho
    · cases hst
      exact inv_setTask_dispensable _ hs t _ herased
        ⟨by simp [UruPlugin.indexerStopped, ht],by simp [UruPlugin.indexerStopped, ht]⟩
  | saving =>
    cases hst
    have hs := inv_setTask_dispensable s h t none trivial ⟨by simp [ht],by simp [ht]⟩
    exact ⟨hs.fresh,hs.stored,hs.others,hs.tasks,hs.boot,hs.covered,hs.clear,hs.single,
      fun _ => hk⟩

theorem inv_bootEnded (s : UruPlugin) (h : Inv s) (hold : s.boot ≠ none)
    (hc : s.unloaded = true → ∀ m, s.manager = some m → Down (s.managers m) ∨ Unloading s m) :
    Inv s.bootEnded := by
  refine inv_setBoot s h hold none trivial (fun hu m hm _ => ?_)
  rcases hc hu m hm with hd | hd
  · exact Or.inl hd
  · exact Or.inr (Or.inl hd)

/-- A boot that is not at its start or its undoing covers no manager. -/
theorem covered_idle (s : UruPlugin) (m : ℕ) (h : Covered s m) (hs : ¬ Starting s m)
    (hu : ∀ aw, s.boot ≠ some (.undoing (some (m,aw)))) :
    Down (s.managers m) ∨ Unloading s m := by
  rcases h with h | h | h | ⟨aw,h⟩
  · exact Or.inl h
  · exact Or.inr h
  · exact absurd h hs
  · exact absurd h (hu aw)

theorem inv_idleBoot (s : UruPlugin) (h : Inv s) (b : Boot) (hb : s.boot = some b)
    (hs : ∀ m, b ≠ .starting m ∧ b ≠ .savingNamespace m) (hu : ∀ k, b ≠ .undoing k)
    (b' : Option Boot) (hb' : BootOk s b') : Inv { s with boot := b' } := by
  refine inv_setBoot s h (by simp [hb]) b' hb' (fun _ m _ hc => ?_)
  have hidle := covered_idle s m hc (by simp [Starting, hb, hs]) (by simp [hb, hu])
  rcases hidle with hd | hd
  · exact Or.inl hd
  · exact Or.inr (Or.inl hd)

theorem inv_startSidecar (s : UruPlugin) (h : Inv s) (hb : s.boot = some .persisting)
    (hd : ∀ m, s.manager = some m → Down (s.managers m)) : Inv s.startSidecar := by
  have hnew : ∀ m, m ≠ s.nextManager → (s.startSidecar).managers m = s.managers m := by
    intro m hm
    simp [UruPlugin.startSidecar, UruPlugin.setManager, hm]
  have hdown : ∀ m, Down (s.managers m) := by
    intro m
    by_cases hm : s.manager = some m
    · exact hd m hm
    · exact h.others m hm
  refine ⟨fun m hm => ?_,fun m hm => ?_,fun m hm => ?_,fun t => ?_,Nat.lt_succ_self _,
    fun _ m hm => ?_,h.clear,h.single,fun hdel => ?_⟩
  · have hlt : s.nextManager+1 ≤ m := hm
    rw [hnew m (by omega)]
    exact h.fresh m (by omega)
  · cases hm
    exact Nat.lt_succ_self _
  · rw [hnew m (fun heq => hm (by rw [heq]; rfl))]
    exact hdown m
  · refine taskOk_mono s _ _ (fun hn => by simp [hb] at hn) rfl (fun he => ?_) (fun m aw hp => ?_)
      (h.tasks t)
    · simp [he.1] at hb
    · by_cases hm : m = s.nextManager
      · have := hp.stoppedByUs
        rw [h.fresh m (by omega)] at this
        cases this
      · rw [hnew m hm]
        exact hp
  · cases hm
    exact Or.inr (Or.inr (Or.inl (Or.inl rfl)))
  · simp [(h.deleted hdel).1] at hb

/-- The look at `unloaded` after the start: the stored manager is stopped
again, or the old indexer makes way for a new one. -/
theorem inv_sidecarStarted (s : UruPlugin) (h : Inv s) (hold : s.boot ≠ none)
    (hcalm : s.unloaded = true → StoredCalm s) : Inv s.sidecarStarted := by
  unfold UruPlugin.sidecarStarted
  split
  · rename_i hu
    split
    · rename_i m hm
      have hs := inv_setManager s h m _ (keeps_stop (s.managers m)) (h.stored m hm)
      refine inv_setBoot _ hs hold _ ?_ (fun _ m' hm' _ => ?_)
      · show Proper ((s.setManager m (s.managers m).stop).managers m) _
        rw [managers_setManager, if_pos rfl]
        exact proper_called _ (hcalm hu m hm)
      · have hmm : m' = m := Option.some.inj (hm'.symm.trans hm)
        subst hmm
        exact Or.inr (Or.inr (Or.inr ⟨_,rfl⟩))
    · rename_i hm
      exact inv_setBoot s h hold _ trivial (fun _ m hsome => by simp [hm] at hsome)
  · rename_i hu
    have hs := inv_noOffs s h
    exact inv_setBoot _ hs hold _ rfl (fun hun => absurd hun hu)

theorem inv_undone (s : UruPlugin) (h : Inv s) (hold : s.boot ≠ none)
    (hd : ∀ m, s.manager = some m → Down (s.managers m)) :
    Inv { s.bootEnded with manager := none } := by
  have hs := inv_noManager s h hd
  exact inv_setBoot _ hs hold none trivial (fun _ m hm => by simp at hm)

theorem inv_registerVaultEvents (s : UruPlugin) (h : Inv s) (hb : s.boot = some .loading)
    (ho : s.indexer.isSome = true → s.unloaded = false) : Inv s.registerVaultEvents := by
  have hidle := fun b' hb' => inv_idleBoot s h .loading hb (by simp) (by simp) b' hb'
  have hoffs : s.eventOffs = [] := by
    have := h.boot
    rwa [hb] at this
  unfold UruPlugin.registerVaultEvents
  split
  · rename_i i hi
    have hu := ho (by simp [hi])
    have hs := hidle none trivial
    refine ⟨hs.fresh,hs.stored,hs.others,fun t => ?_,trivial,fun hun => ?_,fun hun => ?_,?_,
      fun hdel => ?_⟩
    · refine taskOk_mono s _ _ (fun _ => rfl) rfl (fun he => ?_) (fun _ _ hp => hp) (h.tasks t)
      simp [he.1] at hb
    · simp [show s.unloaded = true from hun] at hu
    · simp [show s.unloaded = true from hun] at hu
    · simp [hoffs]
    · simp [(h.deleted hdel).1] at hb
  · exact hidle none trivial

theorem inv_bootResume (s : UruPlugin) (h : Inv s) (save : Bool) (b : Boot)
    (hb : s.boot = some b) (ho : OrderlyBoot s b) (s' : UruPlugin)
    (hst : s.bootResume save b = some s') : Inv s' := by
  have hold : s.boot ≠ none := by simp [hb]
  cases b with
  | savingKey =>
    cases hst
    exact inv_idleBoot s h .savingKey hb (by simp) (by simp) _ trivial
  | ensuring =>
    simp only [UruPlugin.bootResume, Option.some.injEq] at hst
    subst hst
    split
    · exact inv_idleBoot s h .ensuring hb (by simp) (by simp) none trivial
    · exact inv_idleBoot s h .ensuring hb (by simp) (by simp) _ trivial
  | persisting =>
    cases hst
    exact inv_startSidecar s h hb ho
  | starting m =>
    simp only [UruPlugin.bootResume] at hst
    split_ifs at hst
    · cases hst
      refine inv_setBoot s h hold _ trivial (fun _ m' _ hc => ?_)
      rcases hc with hc | hc | hc | ⟨aw,hc⟩
      · exact Or.inl hc
      · exact Or.inr (Or.inl hc)
      · rcases hc with hc | hc
        · rw [hb] at hc
          cases hc
          exact Or.inr (Or.inr (Or.inl (Or.inr rfl)))
        · simp [hb] at hc
      · simp [hb] at hc
    · cases hst
      exact inv_sidecarStarted s h hold ho
  | savingNamespace m =>
    cases hst
    exact inv_sidecarStarted s h hold ho
  | undoing k =>
    rcases k with _ | ⟨m,aw⟩
    · cases hst
      exact inv_undone s h hold ho
    · simp only [UruPlugin.bootResume] at hst
      split_ifs at hst with hx
      cases hst
      refine inv_undone s h hold (fun m' hm' => ?_)
      rcases ho m' hm' with rfl | hd
      · have hproper := h.boot
        rw [hb] at hproper
        exact down_of_exited _ aw hproper hx
      · exact hd
  | flushing had =>
    cases hst
    have hoffs : s.eventOffs = [] := by
      have := h.boot
      rwa [hb] at this
    have hs := inv_idleBoot s h (.flushing had) hb (by simp) (by simp) (some .loading) hoffs
    exact inv_indexer _ hs (some s.nextIndexer) (s.nextIndexer+1)
  | loading =>
    cases hst
    exact inv_registerVaultEvents s h hb ho

theorem inv_bootReject (s : UruPlugin) (h : Inv s) (unseen : Bool) (b : Boot)
    (hb : s.boot = some b) (ho : OrderlyReject s unseen b) (s' : UruPlugin)
    (hst : s.bootReject unseen b = some s') : Inv s' := by
  have hold : s.boot ≠ none := by simp [hb]
  cases b with
  | starting m =>
    simp only [UruPlugin.bootReject] at hst
    split_ifs at hst
    cases hst
    have hkeeps := keeps_startFailed (s.managers m) unseen
    have hm : m < s.nextManager := by
      have := h.boot
      rwa [hb] at this
    have hs := inv_setManager s h m _ hkeeps hm
    refine inv_bootEnded _ hs hold (fun hu m' hm' => ?_)
    by_cases hmm : m' = m
    · subst hmm
      rw [managers_setManager, if_pos rfl]
      exact (ho hu hm').imp id (unloading_setManager s m' _ hkeeps m')
    · refine covered_idle _ m' (hs.covered hu m' hm') (fun hc => ?_) (fun aw hc => ?_)
      · rcases hc with hc | hc <;> simp only [UruPlugin.setManager, hb] at hc <;> cases hc
        exact hmm rfl
      · simp only [UruPlugin.setManager, hb] at hc
        cases hc
  | savingNamespace m =>
    cases hst
    refine inv_bootEnded s h hold (fun hu m' hm' => ?_)
    by_cases hmm : m' = m
    · subst hmm
      exact ho hu hm'
    · refine covered_idle _ m' (h.covered hu m' hm') (fun hc => ?_) (by simp [hb])
      rcases hc with hc | hc <;> rw [hb] at hc <;> cases hc
      exact hmm rfl
  | undoing k =>
    cases hst
    exact inv_bootEnded s h hold (fun _ m hm => ho m hm)
  | flushing had => cases hst
  | savingKey =>
    cases hst
    exact inv_idleBoot s h .savingKey hb (by simp) (by simp) none trivial
  | ensuring =>
    cases hst
    exact inv_idleBoot s h .ensuring hb (by simp) (by simp) none trivial
  | persisting =>
    cases hst
    exact inv_idleBoot s h .persisting hb (by simp) (by simp) none trivial
  | loading =>
    cases hst
    exact inv_idleBoot s h .loading hb (by simp) (by simp) none trivial

theorem inv_managerStep (s : UruPlugin) (h : Inv s) (m : ℕ) (x : Manager) (e : Manager.Event)
    (hst : (s.managers m).step e = some x) : Inv (s.setManager m x) := by
  by_cases hm : m < s.nextManager
  · exact inv_setManager s h m x (keeps_step _ x e hst) hm
  · rw [h.fresh m (by omega)] at hst
    cases e <;> cases hst

theorem inv_step (s : UruPlugin) (e : Event) (s' : UruPlugin) (h : Inv s) (ho : Orderly s e)
    (hst : step s e = some s') : Inv s' := by
  cases e with
  | runBackend t =>
    simp only [step, Option.isNone_iff_eq_none] at hst
    split_ifs at hst with ht
    cases hst
    exact inv_runBackend s h t (dispensable_free s t ht) ho
  | restartBackend t =>
    simp only [step, Option.isNone_iff_eq_none] at hst
    split_ifs at hst with ht
    cases hst
    exact inv_restartBackend s h t ht ho
  | runSetup t =>
    simp only [step, Option.isNone_iff_eq_none] at hst
    split_ifs at hst with ht
    cases hst
    exact inv_setTask_dispensable s h t _ (Or.inl rfl) (dispensable_free s t ht)
  | deleteData t =>
    simp only [step, Option.isNone_iff_eq_none] at hst
    split_ifs at hst with ht
    cases hst
    unfold UruPlugin.deleteData
    split
    · refine inv_setTask_dispensable s h t _ (Or.inr ⟨rfl,?_⟩) (dispensable_free s t ht)
      cases hb : s.boot <;> simp [UruPlugin.bootPromise, hb]
    · exact h
  | onunload t =>
    simp only [step, Option.isNone_iff_eq_none] at hst
    split_ifs at hst with ht
    cases hst
    exact inv_onunload s h t ht
  | resume t =>
    simp only [step, Option.bind_eq_some_iff] at hst
    obtain ⟨k, ht, hst⟩ := hst
    exact inv_resume s h t k ht (ho k ht) s' hst
  | stopRejects t =>
    simp only [step] at hst
    split at hst
    · rename_i op m aw ht
      cases hst
      refine inv_setTask_dispensable s h t none trivial ⟨by simp [ht],fun m' aw' => ho m' aw'⟩
    · cases hst
  | bootResume save =>
    simp only [step, Option.bind_eq_some_iff] at hst
    obtain ⟨b, hb, hst⟩ := hst
    exact inv_bootResume s h save b hb (ho b hb) s' hst
  | bootReject unseen =>
    simp only [step, Option.bind_eq_some_iff] at hst
    obtain ⟨b, hb, hst⟩ := hst
    exact inv_bootReject s h unseen b hb (ho b hb) s' hst
  | manager m e =>
    simp only [step, Option.map_eq_some_iff] at hst
    obtain ⟨x, hx, rfl⟩ := hst
    exact inv_managerStep s h m x e hx

/-- Along an orderly run the stored manager alone may own a live sidecar, one
indexer at most has handlers registered, and once everything has settled after
an unload or an uninstall neither is left. -/
theorem backend_sound (vaultKey : Bool) (es : List Event)
    (h : Meets step Orderly (init vaultKey) es) : Always step Sound (init vaultKey) es :=
  always_of_invariant inv_step inv_sound es _ (inv_init vaultKey) h

/-- The plugin is unloaded before its manager has spawned the sidecar. -/
theorem backend_sound_unload : Always step Sound (init true) [.runBackend 0,.bootResume false,
      .bootResume false,.onunload 1,.manager 0 .takenOver,.manager 0 .spawned,.resume 1,
      .bootResume false,.manager 0 (.died false),.resume 1,.bootResume false,.resume 0] := by
  refine backend_sound true _ ⟨fun _ t => by simp [Deleting, init],fun _ h => ?_⟩
  cases h
  refine ⟨?_,fun _ h => ?_⟩
  · rintro b ⟨⟩
    trivial
  cases h
  refine ⟨?_,fun _ h => ?_⟩
  · rintro b ⟨⟩ m ⟨⟩
  cases h
  refine ⟨trivial,fun _ h => ?_⟩
  cases h
  refine ⟨trivial,fun _ h => ?_⟩
  cases h
  refine ⟨trivial,fun _ h => ?_⟩
  cases h
  refine ⟨?_,fun _ h => ?_⟩
  · rintro k ⟨⟩ m ⟨⟩
    exact Or.inl ⟨rfl,rfl⟩
  cases h
  refine ⟨?_,fun _ h => ?_⟩
  · rintro b ⟨⟩ _ m ⟨⟩
    exact ⟨rfl,rfl⟩
  cases h
  refine ⟨trivial,fun _ h => ?_⟩
  cases h
  refine ⟨?_,fun _ h => ?_⟩
  · rintro k ⟨⟩
    trivial
  cases h
  refine ⟨?_,fun _ h => ?_⟩
  · rintro b ⟨⟩ m ⟨⟩
    exact Or.inl rfl
  cases h
  refine ⟨?_,fun _ _ => trivial⟩
  rintro k ⟨⟩
  trivial

def bootRun : List Event := [.runBackend 0,.bootResume false,.bootResume false,
  .manager 0 .takenOver,.manager 0 .spawned,.bootResume false,.bootResume false,.bootResume false]

/-- A second boot replaces a manager whose sidecar is alive; the stop in a
setup resolves after a restart has replaced its manager, and drops the new
one; and an unload while the new indexer loads leaves its handlers. -/
theorem backend_unsound :
    (∃ s, run step (init true) (bootRun++[.runBackend 1,.bootResume false,.bootResume false]) =
      some s ∧ ¬ Exclusive s) ∧
    (∃ s, run step (init true) (bootRun++[.manager 0 (.died true),.runSetup 1,.resume 1,
      .restartBackend 2,.resume 2,.bootResume false,.bootResume false,.manager 1 .takenOver,
      .manager 1 .spawned,.resume 1]) = some s ∧ ¬ Exclusive s) ∧
    ∃ s, run step (init true) [.runBackend 0,.bootResume false,.bootResume false,
      .manager 0 .takenOver,.manager 0 .spawned,.bootResume false,.bootResume false,.onunload 1,
      .bootResume false,.resume 1,.manager 0 (.died false),.resume 1,.resume 0] = some s ∧
      ¬ Gone s := by
  refine ⟨⟨_,rfl,fun h => ?_⟩,⟨_,rfl,fun h => ?_⟩,_,rfl,fun h => ?_⟩
  · have := h.manager 0 rfl
    cases this
  · have := h.manager 1 rfl
    cases this
  · have := (h (Or.inl rfl) ⟨rfl,fun t => by rcases t with _ | _ | t <;> rfl⟩).2
    cases this

end Uru.Plugin.Backend
