import Uru.Lib.Machine
import Uru.Lib.Record
import Uru.Indexing.Interleaving

/-!
# The debounce timers

A change to a note arms a timer and stores it under the note's path, in place
of the timer stored there before. Both the key of a timer and the key that its
callback deletes are the path the file object has at that moment, and a rename
changes the path of the object. A timer id counts as true.
-/

set_option autoImplicit false

namespace Uru.Indexing.DebounceTimers
open Uru.Lib Uru.Lib.Machine

/-- The vault maps paths to file objects; a timer is armed for a file object.
Of the past it is kept which timers were armed before `cancelPending` was last
called, and which of those have run since. -/
structure Indexer where
  vault : Record String ℕ
  path : ℕ → String
  nextFile : ℕ
  pending : Record String ℕ
  timers : ℕ → Option ℕ
  nextTimer : ℕ
  cutoff : ℕ
  late : List ℕ

def clearTimeout (timers : ℕ → Option ℕ) (n : ℕ) : ℕ → Option ℕ := Function.update timers n none

namespace Indexer

def cleared (s : Indexer) (f : ℕ) : ℕ → Option ℕ :=
  match s.pending.get (s.path f) with
  | some prev => clearTimeout s.timers prev
  | none => s.timers

def debounce (s : Indexer) (f : ℕ) : Indexer :=
  { s with
    timers := Function.update (s.cleared f) s.nextTimer (some f)
    pending := s.pending.set (s.path f) s.nextTimer
    nextTimer := s.nextTimer+1 }

def onChange (s : Indexer) (isIgnored : String → Bool) (f : ℕ) : Indexer :=
  if isIgnored (s.path f) then s else s.debounce f

def fired (s : Indexer) (n f : ℕ) : Indexer :=
  { s with
    timers := clearTimeout s.timers n
    pending := s.pending.delete (s.path f)
    late := if n < s.cutoff then n::s.late else s.late }

def cancelPending (s : Indexer) : Indexer :=
  { s with
    timers := s.pending.values.foldl clearTimeout s.timers
    pending := ∅
    cutoff := s.nextTimer }

end Indexer

inductive Event where
  | create (path : String)
  | modify (path : String)
  | delete (path : String)
  | rename (oldPath newPath : String)
  | fire (timer : ℕ)
  | cancelPending

/-- The handlers of a delete and of a rename leave the timers alone. -/
def step (isIgnored : String → Bool) (s : Indexer) : Event → Option Indexer
  | .create p => match s.vault.get p with
    | none => some ({ s with
        vault := s.vault.set p s.nextFile
        path := Function.update s.path s.nextFile p
        nextFile := s.nextFile+1 }.onChange isIgnored s.nextFile)
    | some _ => none
  | .modify p => (s.vault.get p).map (s.onChange isIgnored)
  | .delete p => (s.vault.get p).map (fun _ => { s with vault := s.vault.delete p })
  | .rename p q => match s.vault.get p, s.vault.get q with
    | some f, none => some { s with
        vault := (s.vault.delete p).set q f
        path := Function.update s.path f q }
    | _, _ => none
  | .fire n => (s.timers n).map (s.fired n)
  | .cancelPending => some s.cancelPending

def init : Indexer where
  vault := ∅
  path := fun _ => ""
  nextFile := 0
  pending := ∅
  timers := fun _ => none
  nextTimer := 0
  cutoff := 0
  late := []

/-- The armed timers are the stored ones, a note has at most one, and no timer
armed before `cancelPending` has run after it. -/
structure Tracked (s : Indexer) : Prop where
  stored : ∀ n, (s.timers n).isSome ↔ ∃ p, s.pending.get p = some n
  single : ∀ n m f, s.timers n = some f → s.timers m = some f → n = m
  stopped : s.late = []

def Home (s : Indexer) (f : ℕ) : Prop :=
  ∀ n, s.timers n = some f → s.pending.get (s.path f) = some n

/-- No note changes, and no timer fires, while a timer of that note is stored
under a path the note no longer has. -/
def Settled (isIgnored : String → Bool) (s : Indexer) : Event → Prop
  | .modify p => ∀ f, s.vault.get p = some f → isIgnored (s.path f) = false → Home s f
  | .fire n => ∀ f, s.timers n = some f → s.pending.get (s.path f) = some n
  | _ => True

structure Inv (s : Indexer) : Prop where
  stored : ∀ n, (s.timers n).isSome ↔ ∃ p, s.pending.get p = some n
  once : ∀ p q n, s.pending.get p = some n → s.pending.get q = some n → p = q
  single : ∀ n m f, s.timers n = some f → s.timers m = some f → n = m
  old : ∀ n f, s.timers n = some f → s.cutoff ≤ n ∧ n < s.nextTimer ∧ f < s.nextFile
  files : ∀ p f, s.vault.get p = some f → f < s.nextFile
  cutoff : s.cutoff ≤ s.nextTimer
  stopped : s.late = []

theorem inv_init : Inv init :=
  ⟨by simp [init],by simp [init],by simp [init],by simp [init],by simp [init],le_rfl,rfl⟩

theorem tracked_of_inv (s : Indexer) (h : Inv s) : Tracked s := ⟨h.stored,h.single,h.stopped⟩

theorem cleared_eq (s : Indexer) (f n : ℕ) :
    s.cleared f n = if s.pending.get (s.path f) = some n then none else s.timers n := by
  unfold Indexer.cleared
  cases hp : s.pending.get (s.path f) with
  | none => simp
  | some prev =>
    by_cases hn : n = prev
    · simp [clearTimeout, hn]
    · simp [clearTimeout, Function.update_of_ne hn, Ne.symm hn]

theorem debounce_timer (s : Indexer) (f n g : ℕ) (hn : n ≠ s.nextTimer) :
    (s.debounce f).timers n = some g ↔
      s.timers n = some g ∧ s.pending.get (s.path f) ≠ some n := by
  simp only [Indexer.debounce, Function.update_of_ne hn, cleared_eq]
  split_ifs with hp <;> simp [hp]

theorem debounce_new (s : Indexer) (f : ℕ) : (s.debounce f).timers s.nextTimer = some f := by
  simp [Indexer.debounce]

theorem debounce_pending (s : Indexer) (f : ℕ) (q : String) :
    (s.debounce f).pending.get q =
      if q = s.path f then some s.nextTimer else s.pending.get q := by
  simp [Indexer.debounce]

/-- No key holds a timer that has still to be armed. -/
theorem pending_old (s : Indexer) (h : Inv s) (p : String) (n : ℕ) (hp : s.pending.get p = some n) :
    n < s.nextTimer := by
  obtain ⟨f, hf⟩ := Option.isSome_iff_exists.mp ((h.stored n).mpr ⟨p,hp⟩)
  exact (h.old n f hf).2.1

theorem inv_debounce (s : Indexer) (h : Inv s) (f : ℕ) (hf : f < s.nextFile) (hh : Home s f) :
    Inv (s.debounce f) := by
  refine ⟨fun n => ?_,fun p q n hp hq => ?_,fun n m g hn hm => ?_,fun n g hn => ?_,h.files,
    h.cutoff.trans (Nat.le_succ _),h.stopped⟩
  · by_cases hn : n = s.nextTimer
    · subst hn
      rw [debounce_new]
      exact iff_of_true rfl ⟨s.path f,by simp [debounce_pending]⟩
    · simp only [Option.isSome_iff_exists, debounce_timer s f n _ hn, debounce_pending,
        exists_and_right]
      rw [← Option.isSome_iff_exists, h.stored n]
      constructor
      · rintro ⟨⟨q, hq⟩, hne⟩
        have hqf : q ≠ s.path f := fun he => hne (he ▸ hq)
        exact ⟨q,by rw [if_neg hqf, hq]⟩
      · rintro ⟨q, hq⟩
        split_ifs at hq with hqf
        · exact absurd (Option.some.inj hq).symm hn
        · exact ⟨⟨q,hq⟩,fun hp => hqf (h.once q _ n hq hp)⟩
  · rw [debounce_pending] at hp hq
    split_ifs at hp hq with hpf hqf hqf
    · exact hpf.trans hqf.symm
    · exact absurd (Option.some.inj hp) (pending_old s h q n hq).ne'
    · exact absurd (Option.some.inj hq) (pending_old s h p n hp).ne'
    · exact h.once p q n hp hq
  · -- the file of the new timer has no other timer left
    have halone (k : ℕ) (hk : k ≠ s.nextTimer) : (s.debounce f).timers k ≠ some f := by
      intro hkf
      obtain ⟨ht, hp⟩ := (debounce_timer s f k f hk).mp hkf
      exact hp (hh k ht)
    by_cases hns : n = s.nextTimer <;> by_cases hms : m = s.nextTimer
    · exact hns.trans hms.symm
    · subst hns
      rw [debounce_new] at hn
      cases hn
      exact absurd hm (halone m hms)
    · subst hms
      rw [debounce_new] at hm
      cases hm
      exact absurd hn (halone n hns)
    · exact h.single n m g ((debounce_timer s f n g hns).mp hn).1
        ((debounce_timer s f m g hms).mp hm).1
  · by_cases hns : n = s.nextTimer
    · subst hns
      rw [debounce_new] at hn
      cases hn
      exact ⟨h.cutoff,Nat.lt_succ_self _,hf⟩
    · obtain ⟨hc, hlt, hg⟩ := h.old n g ((debounce_timer s f n g hns).mp hn).1
      exact ⟨hc,hlt.trans (Nat.lt_succ_self _),hg⟩

theorem inv_onChange (isIgnored : String → Bool) (s : Indexer) (h : Inv s) (f : ℕ)
    (hf : f < s.nextFile) (hh : isIgnored (s.path f) = false → Home s f) :
    Inv (s.onChange isIgnored f) := by
  unfold Indexer.onChange
  by_cases hi : isIgnored (s.path f) = true
  · rw [if_pos hi]
    exact h
  · rw [if_neg hi]
    exact inv_debounce s h f hf (hh (by simpa using hi))

theorem inv_create (isIgnored : String → Bool) (s : Indexer) (h : Inv s) (p : String) :
    Inv ({ s with
      vault := s.vault.set p s.nextFile
      path := Function.update s.path s.nextFile p
      nextFile := s.nextFile+1 }.onChange isIgnored s.nextFile) := by
  have hnew : Inv { s with
      vault := s.vault.set p s.nextFile
      path := Function.update s.path s.nextFile p
      nextFile := s.nextFile+1 } := by
    refine ⟨h.stored,h.once,h.single,fun n f hn => ?_,fun q f hq => ?_,h.cutoff,h.stopped⟩
    · obtain ⟨hc, hlt, hf⟩ := h.old n f hn
      exact ⟨hc,hlt,Nat.lt_succ_of_lt hf⟩
    · simp only [Record.get_set] at hq
      split_ifs at hq
      · cases hq
        exact Nat.lt_succ_self _
      · exact Nat.lt_succ_of_lt (h.files q f hq)
  refine inv_onChange isIgnored _ hnew s.nextFile (Nat.lt_succ_self _) fun _ n hn => ?_
  exact absurd (h.old n _ hn).2.2 (lt_irrefl _)

theorem fired_timer (s : Indexer) (n f m : ℕ) :
    (s.fired n f).timers m = if m = n then none else s.timers m := by
  by_cases hm : m = n
  · simp [Indexer.fired, clearTimeout, hm]
  · simp [Indexer.fired, clearTimeout, hm]

theorem inv_fired (s : Indexer) (h : Inv s) (n f : ℕ) (hn : s.timers n = some f)
    (hp : s.pending.get (s.path f) = some n) : Inv (s.fired n f) := by
  have hkept (m g : ℕ) (hm : (s.fired n f).timers m = some g) : s.timers m = some g := by
    rw [fired_timer] at hm
    split_ifs at hm
    exact hm
  have hget (q : String) (m : ℕ) : (s.fired n f).pending.get q = some m ↔
      q ≠ s.path f ∧ s.pending.get q = some m := by
    simp only [Indexer.fired, Record.get_delete]
    split_ifs with hq <;> simp [hq]
  refine ⟨fun m => ?_,fun p q m hp' hq' => ?_,fun m k g hm hk => ?_,fun m g hm => ?_,h.files,
    h.cutoff,?_⟩
  · rw [fired_timer]
    by_cases hm : m = n
    · subst hm
      rw [if_pos rfl]
      refine iff_of_false (by simp) ?_
      rintro ⟨q, hq⟩
      obtain ⟨hne, hq⟩ := (hget q m).mp hq
      exact hne (h.once q _ m hq hp)
    · rw [if_neg hm, h.stored m]
      refine exists_congr fun q => ⟨fun hq => (hget q m).mpr ⟨fun he => ?_,hq⟩,
        fun hq => ((hget q m).mp hq).2⟩
      rw [he, hp] at hq
      exact hm (Option.some.inj hq).symm
  · exact h.once p q m ((hget p m).mp hp').2 ((hget q m).mp hq').2
  · exact h.single m k g (hkept m g hm) (hkept k g hk)
  · exact h.old m g (hkept m g hm)
  · have hc := (h.old n f hn).1
    simp [Indexer.fired, Nat.not_lt.mpr hc, h.stopped]

theorem clear_all (ns : List ℕ) (timers : ℕ → Option ℕ) (n : ℕ) :
    ns.foldl clearTimeout timers n = if n ∈ ns then none else timers n := by
  induction ns generalizing timers with
  | nil => simp
  | cons m ns ih =>
    rw [List.foldl_cons, ih]
    by_cases hm : n = m
    · simp [clearTimeout, hm]
    · simp [clearTimeout, hm]

/-- With every armed timer stored, `cancelPending` leaves none armed. -/
theorem cancelled_timers (s : Indexer) (h : Inv s) (n : ℕ) : s.cancelPending.timers n = none := by
  simp only [Indexer.cancelPending, clear_all]
  split_ifs with hn
  · rfl
  · cases ht : s.timers n with
    | none => rfl
    | some f =>
      obtain ⟨p, hp⟩ := (h.stored n).mp (by simp [ht])
      exact absurd (s.pending.mem_values p n hp) hn

theorem inv_cancelPending (s : Indexer) (h : Inv s) : Inv s.cancelPending := by
  have hnone := cancelled_timers s h
  refine ⟨fun n => ?_,fun p q n hp _ => ?_,fun n m f hn _ => ?_,fun n f hn => ?_,h.files,le_rfl,
    h.stopped⟩
  · rw [hnone]
    simp [Indexer.cancelPending]
  · simp [Indexer.cancelPending] at hp
  · simp [hnone] at hn
  · simp [hnone] at hn

theorem inv_step (isIgnored : String → Bool) (s : Indexer) (e : Event) (t : Indexer) (h : Inv s)
    (hok : Settled isIgnored s e) (ht : step isIgnored s e = some t) : Inv t := by
  cases e with
  | create p =>
    simp only [step] at ht
    cases hp : s.vault.get p with
    | some f => simp [hp] at ht
    | none =>
      simp only [hp, Option.some.injEq] at ht
      exact ht ▸ inv_create isIgnored s h p
  | modify p =>
    obtain ⟨f, hf, rfl⟩ := Option.map_eq_some_iff.mp ht
    exact inv_onChange isIgnored s h f (h.files p f hf) (hok f hf)
  | delete p =>
    obtain ⟨f, hf, rfl⟩ := Option.map_eq_some_iff.mp ht
    refine ⟨h.stored,h.once,h.single,h.old,fun q g hq => ?_,h.cutoff,h.stopped⟩
    simp only [Record.get_delete] at hq
    split_ifs at hq
    exact h.files q g hq
  | rename p q =>
    simp only [step] at ht
    cases hp : s.vault.get p with
    | none => simp [hp] at ht
    | some f =>
      cases hq : s.vault.get q with
      | some g => simp [hp, hq] at ht
      | none =>
        simp only [hp, hq, Option.some.injEq] at ht
        subst ht
        refine ⟨h.stored,h.once,h.single,h.old,fun r g hr => ?_,h.cutoff,h.stopped⟩
        simp only [Record.get_set, Record.get_delete] at hr
        split_ifs at hr
        · cases hr
          exact h.files p f hp
        · exact h.files r g hr
  | fire n =>
    obtain ⟨f, hf, rfl⟩ := Option.map_eq_some_iff.mp ht
    exact inv_fired s h n f hf (hok f hf)
  | cancelPending =>
    cases ht
    exact inv_cancelPending s h

/-- A step outside the condition breaks the tracking at once. -/
theorem untracked_step (isIgnored : String → Bool) (s : Indexer) (e : Event) (h : Inv s)
    (hbad : ¬Settled isIgnored s e) : ∃ t, step isIgnored s e = some t ∧ ¬Tracked t := by
  cases e with
  | modify p =>
    simp only [Settled, Home, not_forall] at hbad
    obtain ⟨f, hf, hi, n, hn, hp⟩ := hbad
    refine ⟨s.debounce f,by simp [step, hf, Indexer.onChange, hi],fun htr => ?_⟩
    have hne := (h.old n f hn).2.1.ne
    exact hne (htr.single n _ f ((debounce_timer s f n f hne).mpr ⟨hn,hp⟩) (debounce_new s f))
  | fire n =>
    simp only [Settled, not_forall] at hbad
    obtain ⟨f, hf, hp⟩ := hbad
    refine ⟨s.fired n f,by simp [step, hf],fun htr => ?_⟩
    obtain ⟨q, hq⟩ := (h.stored n).mp (by simp [hf])
    have hqf : q ≠ s.path f := fun he => hp (he ▸ hq)
    have hstill : (s.fired n f).pending.get q = some n := by
      simp [Indexer.fired, hqf, hq]
    have harmed := (htr.stored n).mpr ⟨q,hstill⟩
    simp [fired_timer] at harmed
  | _ => exact absurd trivial hbad

/-- The timers stay tracked along exactly the runs in which no note changes,
and no timer fires, while a timer of the note is stored under an old path. -/
theorem timers_tracked (isIgnored : String → Bool) (es : List Event) :
    Always (step isIgnored) Tracked init es ↔ Meets (step isIgnored) (Settled isIgnored) init es :=
  always_iff_meets (inv_step isIgnored) tracked_of_inv (untracked_step isIgnored) es init inv_init

/-- A renamed note that changes again has two timers. The first to fire deletes
the key of the second, which `cancelPending` then does not find. -/
theorem renamed_note_untracked :
    ¬Always (step fun _ => false) Tracked init [.create "a.md",.rename "a.md" "b.md",
      .modify "b.md"] ∧
    ∃ s, run (step fun _ => false) init [.create "a.md",.rename "a.md" "b.md",.modify "b.md",
      .fire 0,.cancelPending,.fire 1] = some s ∧ s.late = [1] := by
  refine ⟨fun h => ?_,_,rfl,by decide⟩
  have htracked := (((h.2 _ rfl).2 _ rfl).2 _ rfl)
  exact absurd (htracked.single 0 1 0 (by decide) (by decide)) (by decide)

section Whole

open Interleaving (Config)

def timerEvent : Interleaving.Event → Option Event
  | .create p _ _ _ => some (.create p)
  | .modify p _ _ => some (.modify p)
  | .delete p _ => some (.delete p)
  | .rename p q _ _ => some (.rename p q)
  | .fire n _ => some (.fire n)
  | _ => none

structure Same (w : Interleaving.Indexer) (s : Indexer) : Prop where
  vault : w.vault = s.vault
  path : w.path = s.path
  nextFile : w.nextFile = s.nextFile
  pending : w.pending = s.pending.get
  timers : w.timers = s.timers
  nextTimer : w.nextTimer = s.nextTimer

structure Frame (w w' : Interleaving.Indexer) : Prop where
  vault : w'.vault = w.vault
  path : w'.path = w.path
  nextFile : w'.nextFile = w.nextFile
  pending : w'.pending = w.pending
  timers : w'.timers = w.timers
  nextTimer : w'.nextTimer = w.nextTimer

theorem same_frame (w w' : Interleaving.Indexer) (s : Indexer) (h : Same w s) (hf : Frame w w') :
    Same w' s :=
  ⟨hf.vault.trans h.vault,hf.path.trans h.path,hf.nextFile.trans h.nextFile,
    hf.pending.trans h.pending,hf.timers.trans h.timers,hf.nextTimer.trans h.nextTimer⟩

theorem frame_resume (c : Config) (w w' : Interleaving.Indexer) (t : ℕ) (k : Interleaving.Task)
    (h : w.resume c t k = some w') : Frame w w' := by
  unfold Interleaving.Indexer.resume at h
  split at h
  all_goals try split at h
  all_goals cases h
  all_goals exact ⟨rfl,rfl,rfl,rfl,rfl,rfl⟩

theorem frame_resumeFull (c : Config) (w w' : Interleaving.Indexer) (r : Interleaving.FullRun)
    (ph : Interleaving.Phase) (h : w.resumeFull c r ph = some w') : Frame w w' := by
  unfold Interleaving.Indexer.resumeFull at h
  split at h
  all_goals try dsimp only at h
  all_goals try split at h
  all_goals cases h
  all_goals exact ⟨rfl,rfl,rfl,rfl,rfl,rfl⟩

theorem same_onChange (c : Config) (w : Interleaving.Indexer) (s : Indexer) (h : Same w s) (f : ℕ) :
    Same (w.onChange c f) (s.onChange (isIgnored c.settings) f) := by
  unfold Interleaving.Indexer.onChange Indexer.onChange
  rw [← h.path]
  split_ifs
  · exact h
  · refine ⟨h.vault,h.path,h.nextFile,?_,?_,congrArg (·+1) h.nextTimer⟩
    · funext q
      simp [Interleaving.Indexer.debounce, Indexer.debounce, Function.update_apply, h.path,
        h.pending, h.nextTimer]
    · rcases hp : s.pending.get (s.path f) with _ | t
      · simp [Interleaving.Indexer.debounce, Indexer.debounce, Interleaving.Indexer.cleared,
          Indexer.cleared, h.path, h.pending, h.timers, h.nextTimer, hp]
      · simp [Interleaving.Indexer.debounce, Indexer.debounce, Interleaving.Indexer.cleared,
          Indexer.cleared, h.path, h.pending, h.timers, h.nextTimer, clearTimeout, hp]

/-- The steps of the whole indexer move its timers as this machine moves
them, and leave them alone in all other events. -/
theorem same_step (c : Config) (w w' : Interleaving.Indexer) (s : Indexer)
    (e : Interleaving.Event) (h : Same w s) (he : Interleaving.step c w e = some w') :
    match timerEvent e with
    | some e' => ∃ s', step (isIgnored c.settings) s e' = some s' ∧ Same w' s'
    | none => Same w' s := by
  cases e with
  | create p basename mtime raw =>
    simp only [Interleaving.step, h.vault] at he
    simp only [timerEvent, step]
    cases hp : s.vault.get p with
    | some f => simp [hp] at he
    | none =>
      simp only [hp, Option.some.injEq] at he ⊢
      subst he
      refine ⟨_,rfl,?_⟩
      rw [h.nextFile]
      apply same_onChange
      refine ⟨rfl,?_,rfl,h.pending,h.timers,h.nextTimer⟩
      funext f
      by_cases hf : f = s.nextFile
      · simp [Interleaving.Indexer.path, hf]
      · have hpath := congrFun h.path f
        simpa [Interleaving.Indexer.path, Function.update_of_ne hf] using hpath
  | modify p mtime raw =>
    simp only [Interleaving.step, h.vault] at he
    simp only [timerEvent, step]
    cases hp : s.vault.get p with
    | none => simp [hp] at he
    | some f =>
      simp only [hp, Option.some.injEq, Option.map_some] at he ⊢
      subst he
      refine ⟨_,rfl,?_⟩
      apply same_onChange
      refine ⟨rfl,?_,h.nextFile,h.pending,h.timers,h.nextTimer⟩
      funext g
      have hpath := congrFun h.path g
      by_cases hg : g = f
      · subst hg
        simpa [Interleaving.Indexer.path] using hpath
      · simpa [Interleaving.Indexer.path, Function.update_of_ne hg] using hpath
  | delete p t =>
    simp only [Interleaving.step, h.vault] at he
    simp only [timerEvent, step]
    cases hp : s.vault.get p with
    | none => simp [hp] at he
    | some f =>
      simp only [hp] at he
      split at he
      · rename_i hs
        cases he
        exact ⟨_,rfl,⟨rfl,h.path,h.nextFile,h.pending,h.timers,h.nextTimer⟩⟩
      · cases he
  | rename p q basename t =>
    simp only [Interleaving.step, h.vault] at he
    simp only [timerEvent, step]
    split at he
    · rename_i f hp hq ht
      cases he
      simp only [hp, hq, Option.some.injEq]
      refine ⟨_,rfl,⟨rfl,?_,h.nextFile,h.pending,h.timers,h.nextTimer⟩⟩
      funext g
      by_cases hg : g = f
      · simp [Interleaving.Indexer.path, Interleaving.Indexer.setTask, hg]
      · have hpath := congrFun h.path g
        simpa [Interleaving.Indexer.path, Interleaving.Indexer.setTask,
          Function.update_of_ne hg] using hpath
    · cases he
  | fire n t =>
    simp only [Interleaving.step, h.timers] at he
    simp only [timerEvent, step]
    split at he
    · rename_i f hn ht
      cases he
      simp only [hn, Option.map_some, Option.some.injEq]
      refine ⟨_,rfl,⟨h.vault,h.path,h.nextFile,?_,rfl,h.nextTimer⟩⟩
      funext q
      simp [Interleaving.Indexer.setTask, Indexer.fired, Function.update_apply, h.path, h.pending]
    · cases he
  | resume t =>
    obtain ⟨k, -, hk⟩ := Option.bind_eq_some_iff.mp he
    exact same_frame w w' s h (frame_resume c w w' t k hk)
  | remembered t docId now =>
    simp only [Interleaving.step] at he
    split at he
    · cases he
      exact same_frame w _ s h ⟨rfl,rfl,rfl,rfl,rfl,rfl⟩
    · cases he
  | apply t =>
    obtain ⟨k, -, hk⟩ := Option.bind_eq_some_iff.mp he
    split at hk
    · cases hk
      exact same_frame w _ s h ⟨rfl,rfl,rfl,rfl,rfl,rfl⟩
    · cases hk
  | fullIndex force =>
    simp only [Interleaving.step] at he
    split at he
    · cases he
      exact same_frame w _ s h ⟨rfl,rfl,rfl,rfl,rfl,rfl⟩
    · cases he
      exact h
  | resumeFull =>
    obtain ⟨r, -, hr⟩ := Option.bind_eq_some_iff.mp he
    exact same_frame w w' s h (frame_resumeFull c w w' r _ hr)
  | rememberedFull docId now =>
    obtain ⟨r, -, hr⟩ := Option.bind_eq_some_iff.mp he
    split at hr
    · cases hr
      exact same_frame w _ s h ⟨rfl,rfl,rfl,rfl,rfl,rfl⟩
    · cases hr
  | applyFull =>
    obtain ⟨r, -, hr⟩ := Option.bind_eq_some_iff.mp he
    split at hr
    · cases hr
      exact same_frame w _ s h ⟨rfl,rfl,rfl,rfl,rfl,rfl⟩
    · cases hr
  | stop =>
    cases he
    exact same_frame w _ s h ⟨rfl,rfl,rfl,rfl,rfl,rfl⟩

/-- A run of the whole indexer runs this machine over its timer events. -/
theorem same_run (c : Config) (es : List Interleaving.Event) (w w' : Interleaving.Indexer)
    (s : Indexer) (h : Same w s) (he : run (Interleaving.step c) w es = some w') :
    ∃ s', run (step (isIgnored c.settings)) s (es.filterMap timerEvent) = some s' ∧
      Same w' s' := by
  induction es generalizing w s with
  | nil =>
    cases he
    exact ⟨s,rfl,h⟩
  | cons e es ih =>
    obtain ⟨v, hv, hrest⟩ := Option.bind_eq_some_iff.mp he
    have hstep := same_step c w v s e h hv
    cases ht : timerEvent e with
    | none =>
      rw [ht] at hstep
      rw [List.filterMap_cons_none ht]
      exact ih v s hstep hrest
    | some e' =>
      rw [ht] at hstep
      obtain ⟨s', hs, hsame⟩ := hstep
      obtain ⟨s'', hs'', hsame'⟩ := ih v s' hsame hrest
      exact ⟨s'',by rw [List.filterMap_cons_some ht, run, hs]; exact hs'',hsame'⟩

end Whole

end Uru.Indexing.DebounceTimers
