import Uru.Indexing.Interleaving

/-!
# Looks that are due, and requests sent in turn

A note is looked at again while a timer of its file is armed or a handler has
still to read it. A step is orderly when a request it sends is in turn, and
when a note that it leaves alone needs nothing. This module has the facts
about files, timers and documents that any orderly step keeps.
-/

set_option autoImplicit false

namespace Uru.Indexing.Interleaving
open Uru.Lib Uru.Lib.RemoteCopy

def asked (s : Indexer) : Option ℕ → Option Asked
  | none => s.full.bind (fun w => w.phase.request)
  | some t => (s.tasks t).bind Task.request

def wanted (c : Config) (s : Indexer) (p : String) : Option Text :=
  if isIgnored c.settings p then none
  else (s.noteAt p).bind (fun raw =>
    let t := readContent c.settings.includeFrontmatter raw
    if isBlank t then none else some t)

def Eligible (c : Config) (s : Indexer) (p : String) : Prop :=
  isIgnored c.settings p = false ∧ (s.noteAt p).isSome

/-- A handler that has still to read the note at the path, or has read it as
it is now. -/
def Looking (c : Config) (s : Indexer) (p : String) : Option Task → Prop
  | some (.reading f) => s.path f = p
  | some (.read f raw) => s.path f = p ∧ s.noteAt p = some raw
  | some (.built f doc) =>
    s.path f = p ∧ doc.map BatchDocument.content = wanted c s p ∧ ∀ d ∈ doc, d.externalId = p
  | some (.forgetting _ (some f) _) => s.path f = p
  | some (.saving (some f)) => s.path f = p
  | _ => False

def Armed (s : Indexer) (p : String) : Prop :=
  ∃ n f, s.timers n = some f ∧ s.path f = p ∧ ∀ q, s.pending q = some n → q = p

def Due (c : Config) (s : Indexer) (p : String) : Prop :=
  Eligible c s p ∧ (Armed s p ∨ ∃ t, Looking c s p (s.tasks t))

def copies (c : Config) (s : Indexer) : Copies (Option ℕ) String Text String where
  asked := asked s
  remote := s.backend
  record p := (s.store.get p).map IndexEntry.hash
  wanted := wanted c s
  due := Due c s

/-- A request is in turn when all others outstanding for its path are the same
and it sends what the note calls for now, or a later look at it is due. -/
def SendsInTurn (c : Config) (s : Indexer) (e : Event) : Prop :=
  ∀ s' x p r, step c s e = some s' → asked s' x = some (p,r,false) →
    asked s x ≠ some (p,r,false) →
    (∀ y r' b, y ≠ x → asked s y = some (p,r',b) → r' = r) ∧
      (r.outcome = wanted c s' p ∨ Due c s' p)

/-- The last look at a note that is still as it was read: the requests
outstanding for it send the same, and without one the backend has nothing of a
blank note, nor another text that passes for the note's by its hash. -/
def LeavesAlone (c : Config) (s : Indexer) (f : ℕ) (doc : Option BatchDocument) : Prop :=
  Eligible c s (s.path f) → Looking c s (s.path f) (some (.built f doc)) →
    (∀ x r b, asked s x = some (s.path f,r,b) → r.outcome = wanted c s (s.path f)) ∧
      (Idle (copies c s) (s.path f) → ∀ t, s.backend (s.path f) = some t →
        ∃ d ∈ doc, c.hash t = d.hash → t = d.content)

def DecidesRight (c : Config) (s : Indexer) : Task → Prop
  | .built f none => LeavesAlone c s f none
  | .built f (some d) =>
    if s.store.isUnchanged (s.path f) d.hash then LeavesAlone c s f (some d)
    else s.path f = d.externalId
  | _ => True

def Orderly (c : Config) (s : Indexer) (e : Event) : Prop :=
  SendsInTurn c s e ∧ ∀ t k, e = .resume t → s.tasks t = some k → DecidesRight c s k

def Task.file : Task → Option ℕ
  | .reading f => some f
  | .read f _ => some f
  | .built f _ => some f
  | .remembering f _ _ => some f
  | .forgetting _ renamed _ => renamed
  | .saving renamed => renamed

def Hashed (c : Config) (d : BatchDocument) : Prop := d.hash = c.hash d.content

structure TaskSound (c : Config) (s : Indexer) (k : Task) : Prop where
  file : ∀ f ∈ k.file, f < s.nextFile
  built : ∀ f d, k = .built f (some d) → Hashed c d
  sent : ∀ f d b, k = .remembering f d b → Hashed c d ∧ s.path f = d.externalId

structure RunSound (c : Config) (w : FullRun) : Prop where
  docs : ∀ d ∈ w.docs, Hashed c d.1
  built : ∀ f d, w.phase = .built f (some d) → Hashed c d
  dropping : ∀ d b, w.phase = .dropping d b → Hashed c d
  sent : ∀ d b, w.phase = .remembering d b → Hashed c d

structure Sound (c : Config) (s : Indexer) : Prop where
  located : ∀ p f, s.vault.get p = some f → s.path f = p ∧ f < s.nextFile
  timers : ∀ n f, s.timers n = some f → n < s.nextTimer ∧ f < s.nextFile
  pending : ∀ p n, s.pending p = some n → n < s.nextTimer
  tasks : ∀ t k, s.tasks t = some k → TaskSound c s k
  full : ∀ w, s.full = some w → RunSound c w

theorem taskSound_same (c : Config) (s s' : Indexer) (k : Task) (h : TaskSound c s k)
    (hobjects : s'.objects = s.objects) (hnext : s'.nextFile = s.nextFile) : TaskSound c s' k := by
  refine ⟨hnext ▸ h.file,h.built,fun f d b hk => ⟨(h.sent f d b hk).1,?_⟩⟩
  rw [Indexer.path, hobjects]
  exact (h.sent f d b hk).2

theorem sound_tasks (c : Config) (s s' : Indexer) (h : Sound c s) (htasks : s'.tasks = s.tasks)
    (hobjects : s'.objects = s.objects) (hnext : s'.nextFile = s.nextFile) (t : ℕ) (k : Task)
    (ht : s'.tasks t = some k) : TaskSound c s' k :=
  taskSound_same c s s' k (h.tasks t k (htasks ▸ ht)) hobjects hnext

theorem document_some (c : Config) (file : TFile) (raw : Text) (d : BatchDocument)
    (h : document c file raw = some d) : Hashed c d ∧ d.externalId = file.path := by
  have hdoc : toDocument c.hash c.settings { file with raw := .ok raw } = .ok (some d) := by
    cases ht : toDocument c.hash c.settings { file with raw := .ok raw } with
    | error m => simp [document, ht, Except.toOption] at h
    | ok doc => simpa [document, ht, Except.toOption] using h
  obtain ⟨hid, hhash, -, -⟩ := toDocument_some _ _ _ _ hdoc
  exact ⟨hhash,hid⟩

theorem document_content (c : Config) (file : TFile) (raw : Text) :
    (document c file raw).map BatchDocument.content =
      if isBlank (readContent c.settings.includeFrontmatter raw) then none
      else some (readContent c.settings.includeFrontmatter raw) := by
  simp only [document, toDocument, Except.map, Except.toOption, Option.join_some]
  split <;> rfl

theorem setTask_self (s : Indexer) (t : ℕ) (k : Option Task) : (s.setTask t k).tasks t = k := by
  simp [Indexer.setTask]

theorem setTask_other (s : Indexer) (t u : ℕ) (k : Option Task) (h : u ≠ t) :
    (s.setTask t k).tasks u = s.tasks u := by
  simp [Indexer.setTask, h]

theorem sound_setTask (c : Config) (s : Indexer) (h : Sound c s) (t : ℕ) (k : Option Task)
    (hk : ∀ κ, k = some κ → TaskSound c s κ) : Sound c (s.setTask t k) := by
  have hmove : ∀ κ, TaskSound c s κ → TaskSound c (s.setTask t k) κ :=
    fun κ hκ => taskSound_same c s _ κ hκ rfl rfl
  refine ⟨h.located,h.timers,h.pending,fun u κ hu => ?_,h.full⟩
  by_cases hut : u = t
  · rw [hut, setTask_self] at hu
    exact hmove κ (hk κ hu)
  · rw [setTask_other s t u k hut] at hu
    exact hmove κ (h.tasks u κ hu)

theorem sound_setFull (c : Config) (s : Indexer) (h : Sound c s) (w : Option FullRun)
    (hw : ∀ v, w = some v → RunSound c v) : Sound c (s.setFull w) :=
  ⟨h.located,h.timers,h.pending,sound_tasks c s _ h rfl rfl rfl,hw⟩

/-- The store, the backend and the flag of the full index do not matter. -/
theorem sound_memory (c : Config) (s : Indexer) (h : Sound c s) (store : HashStore)
    (backend : String → Option Text) (cancel : Bool) :
    Sound c { s with store := store, backend := backend, cancelRequested := cancel } :=
  ⟨h.located,h.timers,h.pending,sound_tasks c s _ h rfl rfl rfl,h.full⟩

theorem cleared_some (s : Indexer) (f n g : ℕ) :
    s.cleared f n = some g ↔ s.timers n = some g ∧ s.pending (s.path f) ≠ some n := by
  unfold Indexer.cleared
  cases hp : s.pending (s.path f) with
  | none => simp
  | some prev =>
    by_cases hn : n = prev
    · simp [hn]
    · simp [hn, Ne.symm hn]

theorem sound_debounce (c : Config) (s : Indexer) (h : Sound c s) (f : ℕ) (hf : f < s.nextFile) :
    Sound c (s.debounce f) := by
  refine ⟨h.located,fun n g hn => ?_,fun p n hn => ?_,sound_tasks c s _ h rfl rfl rfl,h.full⟩
  · by_cases hnew : n = s.nextTimer
    · simp only [Indexer.debounce, hnew, Function.update_self, Option.some.injEq] at hn ⊢
      exact ⟨Nat.lt_succ_self _,hn ▸ hf⟩
    · simp only [Indexer.debounce, Function.update_of_ne hnew] at hn ⊢
      obtain ⟨hlt, hg⟩ := h.timers n g ((cleared_some s f n g).mp hn).1
      exact ⟨Nat.lt_succ_of_lt hlt,hg⟩
  · simp only [Indexer.debounce] at hn ⊢
    by_cases hp : p = s.path f
    · rw [hp, Function.update_self, Option.some.injEq] at hn
      omega
    · rw [Function.update_of_ne hp] at hn
      exact Nat.lt_succ_of_lt (h.pending p n hn)

theorem sound_onChange (c : Config) (s : Indexer) (h : Sound c s) (f : ℕ) (hf : f < s.nextFile) :
    Sound c (s.onChange c f) := by
  unfold Indexer.onChange
  split
  · exact h
  · exact sound_debounce c s h f hf

theorem sound_create (c : Config) (s : Indexer) (h : Sound c s) (p : String) (file : TFile)
    (hfile : file.path = p) : Sound c { s with
      vault := s.vault.set p s.nextFile
      objects := Function.update s.objects s.nextFile file
      nextFile := s.nextFile+1 } := by
  have hpath : ∀ f, f < s.nextFile → Function.update s.objects s.nextFile file f = s.objects f :=
    fun f hf => Function.update_of_ne hf.ne _ _
  refine ⟨fun q f hq => ?_,fun n f hn => ?_,h.pending,fun t k ht => ?_,h.full⟩
  · rw [Record.get_set] at hq
    split_ifs at hq with hqp
    · cases hq
      simp [Indexer.path, hfile, hqp]
    · obtain ⟨hf, hlt⟩ := h.located q f hq
      exact ⟨by simpa only [Indexer.path, hpath f hlt] using hf,Nat.lt_succ_of_lt hlt⟩
  · exact ⟨(h.timers n f hn).1,Nat.lt_succ_of_lt (h.timers n f hn).2⟩
  · have hk := h.tasks t k ht
    refine ⟨fun f hf => Nat.lt_succ_of_lt (hk.file f hf),hk.built,fun f d b hs => ?_⟩
    obtain ⟨hd, hf⟩ := hk.sent f d b hs
    have hlt : f < s.nextFile := hk.file f (by simp [hs, Task.file])
    exact ⟨hd,by simpa only [Indexer.path, hpath f hlt] using hf⟩

theorem sound_modify (c : Config) (s : Indexer) (h : Sound c s) (f : ℕ) (file : TFile)
    (hfile : file.path = s.path f) :
    Sound c { s with objects := Function.update s.objects f file } := by
  have hpath : ∀ g, (Function.update s.objects f file g).path = s.path g := by
    intro g
    by_cases hg : g = f
    · rw [hg, Function.update_self, hfile]
    · rw [Function.update_of_ne hg, Indexer.path]
  refine ⟨fun q g hq => ?_,h.timers,h.pending,fun t k ht => ?_,h.full⟩
  · exact ⟨(hpath g).trans (h.located q g hq).1,(h.located q g hq).2⟩
  · have hk := h.tasks t k ht
    exact ⟨hk.file,hk.built,fun g d b hs =>
      ⟨(hk.sent g d b hs).1,(hpath g).trans (hk.sent g d b hs).2⟩⟩

theorem sound_delete (c : Config) (s : Indexer) (h : Sound c s) (p : String) :
    Sound c { s with vault := s.vault.delete p } := by
  refine ⟨fun q f hq => ?_,h.timers,h.pending,sound_tasks c s _ h rfl rfl rfl,h.full⟩
  rw [Record.get_delete] at hq
  split_ifs at hq
  exact h.located q f hq

/-- No handler may be waiting for the backend to take in the renamed file. -/
theorem sound_rename (c : Config) (s : Indexer) (h : Sound c s) (p q : String) (f : ℕ)
    (file : TFile) (hp : s.vault.get p = some f) (hfile : file.path = q)
    (hnone : ∀ t d b, s.tasks t ≠ some (.remembering f d b)) : Sound c { s with
      vault := (s.vault.delete p).set q f
      objects := Function.update s.objects f file } := by
  have hpath : ∀ g, g ≠ f → (Function.update s.objects f file g).path = s.path g :=
    fun g hg => by rw [Function.update_of_ne hg, Indexer.path]
  refine ⟨fun q' g hq => ?_,h.timers,h.pending,fun t k ht => ?_,h.full⟩
  · rw [Record.get_set] at hq
    split_ifs at hq with hqq
    · cases hq
      exact ⟨by simp [Indexer.path, hfile, hqq],(h.located p f hp).2⟩
    · rw [Record.get_delete] at hq
      split_ifs at hq with hqp
      obtain ⟨hg, hlt⟩ := h.located q' g hq
      have hgf : g ≠ f := by
        rintro rfl
        exact hqp (hg.symm.trans (h.located p g hp).1)
      exact ⟨(hpath g hgf).trans hg,hlt⟩
  · have hk := h.tasks t k ht
    refine ⟨hk.file,hk.built,fun g d b hs => ?_⟩
    have hgf : g ≠ f := by
      rintro rfl
      exact hnone t d b (hs ▸ ht)
    exact ⟨(hk.sent g d b hs).1,(hpath g hgf).trans (hk.sent g d b hs).2⟩

theorem runSound_sendNext (c : Config) (w : FullRun) (cancel : Bool)
    (h : ∀ d ∈ w.docs, Hashed c d.1) : RunSound c (w.sendNext cancel) := by
  unfold FullRun.sendNext
  split
  · exact ⟨h,by simp,by simp,by simp⟩
  · rename_i doc forgetFirst docs hdocs
    rw [hdocs] at h
    have hdoc : Hashed c doc := h (doc,forgetFirst) (by simp)
    have hrest : ∀ d ∈ docs, Hashed c d.1 := fun d hd => h d (List.mem_cons_of_mem _ hd)
    split
    · exact ⟨by simpa [hdocs] using h,by simp,by simp,by simp⟩
    · split
      · exact ⟨hrest,by simp,fun d b hd => by cases hd; exact hdoc,by simp⟩
      · exact ⟨hrest,by simp,by simp,fun d b hd => by cases hd; exact hdoc⟩

theorem runSound_readNext (c : Config) (w : FullRun) (cancel : Bool)
    (h : ∀ d ∈ w.docs, Hashed c d.1) (v : FullRun) (hv : w.readNext cancel = some v) :
    RunSound c v := by
  unfold FullRun.readNext at hv
  split at hv
  · cases hv
    exact ⟨h,by simp,by simp,by simp⟩
  · split_ifs at hv
    cases hv
    exact runSound_sendNext c w cancel h

theorem runSound_forgetNext (c : Config) (w : FullRun) (cancel : Bool)
    (h : ∀ d ∈ w.docs, Hashed c d.1) (ks : List String) (v : FullRun)
    (hv : w.forgetNext cancel ks = some v) : RunSound c v := by
  induction ks with
  | nil => exact runSound_readNext c w cancel h v hv
  | cons k ks ih =>
    rw [FullRun.forgetNext] at hv
    split_ifs at hv
    · exact ih hv
    · cases hv
      exact ⟨h,by simp,by simp,by simp⟩

/-- A task without a document is sound when its file is. -/
theorem taskSound_plain (c : Config) (s : Indexer) (k : Task) (hf : ∀ f ∈ k.file, f < s.nextFile)
    (hb : ∀ f d, k ≠ .built f (some d)) (hs : ∀ f d b, k ≠ .remembering f d b) : TaskSound c s k :=
  ⟨hf,fun f d hk => absurd hk (hb f d),fun f d b hk => absurd hk (hs f d b)⟩

theorem sound_resume (c : Config) (s : Indexer) (h : Sound c s) (t : ℕ) (k : Task)
    (hk : s.tasks t = some k) (ho : DecidesRight c s k) (s' : Indexer)
    (hst : s.resume c t k = some s') : Sound c s' := by
  have hsound := h.tasks t k hk
  have hnone : Sound c (s.setTask t none) := sound_setTask c s h t none (by simp)
  cases k with
  | reading f =>
    cases hst
    refine sound_setTask c s h t _ (fun κ hκ => ?_)
    obtain ⟨raw, -, rfl⟩ := Option.map_eq_some_iff.mp hκ
    exact taskSound_plain c s _ (fun g hg => hsound.file g hg) (by simp) (by simp)
  | read f raw =>
    cases hst
    refine sound_setTask c s h t _ (fun κ hκ => ?_)
    cases hκ
    refine ⟨fun g hg => hsound.file g hg,fun g d hd => ?_,by simp⟩
    simp only [Task.built.injEq] at hd
    exact (document_some c _ raw d hd.2).1
  | built f doc =>
    cases doc with
    | none =>
      cases hst
      exact hnone
    | some d =>
      cases hst
      split
      · exact hnone
      · rename_i hsame
        refine sound_setTask c s h t _ (fun κ hκ => ?_)
        cases hκ
        refine ⟨fun g hg => hsound.file g hg,by simp,fun g e b he => ?_⟩
        cases he
        simp only [DecidesRight, hsame, if_false, Bool.false_eq_true] at ho
        exact ⟨hsound.built f d rfl,ho⟩
  | remembering f d b => cases hst
  | forgetting p renamed applied =>
    simp only [Indexer.resume] at hst
    split_ifs at hst
    cases hst
    refine sound_setTask c _ (sound_memory c s h _ s.backend s.cancelRequested) t _ (fun κ hκ => ?_)
    cases hκ
    exact taskSound_plain c _ _ (fun g hg => hsound.file g hg) (by simp) (by simp)
  | saving renamed =>
    cases renamed with
    | none =>
      cases hst
      exact hnone
    | some f =>
      cases hst
      split
      · exact hnone
      · refine sound_setTask c s h t _ (fun κ hκ => ?_)
        cases hκ
        exact taskSound_plain c s _ (fun g hg => hsound.file g hg) (by simp) (by simp)

theorem sound_resumeFull (c : Config) (s : Indexer) (h : Sound c s) (w : FullRun)
    (hw : s.full = some w) (s' : Indexer) (hst : s.resumeFull c w w.phase = some s') :
    Sound c s' := by
  have hrun := h.full w hw
  have hdocs := hrun.docs
  cases hphase : w.phase with
  | forgetting k rest applied =>
    rw [hphase] at hst
    simp only [Indexer.resumeFull] at hst
    split_ifs at hst
    cases hst
    exact sound_setFull c _ (sound_memory c s h _ s.backend s.cancelRequested) _
      (fun v hv => runSound_forgetNext c w _ hdocs rest v hv)
  | reading f =>
    rw [hphase] at hst
    cases hst
    refine sound_setFull c s h _ (fun v hv => ?_)
    obtain ⟨raw, -, rfl⟩ := Option.map_eq_some_iff.mp hv
    exact ⟨hdocs,by simp,by simp,by simp⟩
  | read f raw =>
    rw [hphase] at hst
    cases hst
    refine sound_setFull c s h _ (fun v hv => ?_)
    cases hv
    refine ⟨hdocs,fun g d hd => ?_,by simp,by simp⟩
    simp only [Phase.built.injEq] at hd
    exact (document_some c _ raw d hd.2).1
  | built f doc =>
    rw [hphase] at hst
    cases doc with
    | none =>
      cases hst
      exact sound_setFull c s h _ (fun v hv => runSound_readNext c w _ hdocs v hv)
    | some d =>
      simp only [Indexer.resumeFull] at hst
      split_ifs at hst
      all_goals cases hst
      · exact sound_setFull c s h _ (fun v hv => runSound_readNext c w _ hdocs v hv)
      · refine sound_setFull c s h _ (fun v hv => runSound_readNext c _ _ (fun e he => ?_) v hv)
        rcases List.mem_append.mp he with he | he
        · exact hdocs e he
        · rw [List.mem_singleton.mp he]
          exact hrun.built f d hphase
  | dropping d applied =>
    rw [hphase] at hst
    simp only [Indexer.resumeFull] at hst
    split_ifs at hst
    cases hst
    refine sound_setFull c s h _ (fun v hv => ?_)
    cases hv
    exact ⟨hdocs,by simp,by simp,fun e b he => by cases he; exact hrun.dropping d applied hphase⟩
  | remembering d applied =>
    rw [hphase] at hst
    cases hst
  | saving =>
    rw [hphase] at hst
    cases hst
    refine sound_setFull c s h _ (fun v hv => ?_)
    cases hv
    exact runSound_sendNext c w _ hdocs
  | finishing =>
    rw [hphase] at hst
    cases hst
    exact sound_setFull c s h none (by simp)

theorem runSound_afterNote (c : Config) (w : FullRun) (cancel : Bool)
    (h : ∀ d ∈ w.docs, Hashed c d.1) : RunSound c (Indexer.afterNote w cancel) := by
  unfold Indexer.afterNote
  simp only
  split
  · exact ⟨h,by simp,by simp,by simp⟩
  · exact runSound_sendNext c _ cancel h

theorem taskSound_applied (c : Config) (s : Indexer) (k : Task) (h : TaskSound c s k) :
    TaskSound c s k.applied := by
  cases k with
  | remembering f d b =>
    exact ⟨h.file,by simp [Task.applied],fun g e b' he => by cases he; exact h.sent f d b rfl⟩
  | forgetting p renamed b =>
    exact taskSound_plain c s _ h.file (by simp [Task.applied]) (by simp [Task.applied])
  | reading f => exact h
  | read f raw => exact h
  | built f doc => exact h
  | saving renamed => exact h

theorem phase_applied (w : Phase) :
    (∀ f d, w.applied = .built f d → w = .built f d) ∧
    (∀ d b, w.applied = .dropping d b → ∃ b', w = .dropping d b') ∧
    ∀ d b, w.applied = .remembering d b → ∃ b', w = .remembering d b' := by
  cases w <;> simp [Phase.applied]

theorem runSound_applied (c : Config) (w : FullRun) (h : RunSound c w) :
    RunSound c { w with phase := w.phase.applied } := by
  obtain ⟨hbuilt, hdropping, hsent⟩ := phase_applied w.phase
  refine ⟨h.docs,fun f d hd => h.built f d (hbuilt f (some d) hd),fun d b hd => ?_,fun d b hd => ?_⟩
  · obtain ⟨b', hb⟩ := hdropping d b hd
    exact h.dropping d b' hb
  · obtain ⟨b', hb⟩ := hsent d b hd
    exact h.sent d b' hb

theorem asked_setTask (s : Indexer) (t : ℕ) (k : Option Task) :
    asked (s.setTask t k) = Function.update (asked s) (some t) (k.bind Task.request) := by
  funext x
  cases x with
  | none => rfl
  | some u =>
    by_cases hu : u = t
    · simp [asked, hu, setTask_self]
    · simp [asked, hu, setTask_other]

/-- A handler waits for the reply under the path that its file has. -/
theorem asked_remembering (c : Config) (s : Indexer) (h : Sound c s) (t f : ℕ) (d : BatchDocument)
    (b : Bool) (ht : s.tasks t = some (.remembering f d b)) :
    asked s (some t) = some (s.path f,.put d.content,b) := by
  rw [((h.tasks t _ ht).sent f d b rfl).2]
  simp [asked, ht, Task.request]

theorem sound_step (c : Config) (s : Indexer) (e : Event) (s' : Indexer) (h : Sound c s)
    (ho : Orderly c s e) (hst : step c s e = some s') : Sound c s' := by
  cases e with
  | create p basename mtime raw =>
    simp only [step] at hst
    split at hst <;> cases hst
    exact sound_onChange c _ (sound_create c s h p _ rfl) s.nextFile (Nat.lt_succ_self _)
  | modify p mtime raw =>
    simp only [step] at hst
    split at hst <;> cases hst
    rename_i f hp
    have hchanged := sound_modify c s h f { s.objects f with mtime := mtime, raw := .ok raw } rfl
    exact sound_onChange c _ hchanged f (h.located p f hp).2
  | delete p t =>
    simp only [step] at hst
    split at hst <;> cases hst
    refine sound_setTask c _ (sound_delete c s h p) t _ (fun κ hκ => ?_)
    cases hκ
    exact taskSound_plain c _ _ (by simp [Task.file]) (by simp) (by simp)
  | rename p q basename t =>
    have hsend := ho.1 s' (some t) p .drop hst
    simp only [step] at hst
    split at hst
    · rename_i f hp hq ht
      cases hst
      have hturn := hsend (by rw [asked_setTask, Function.update_self]; rfl) (by simp [asked, ht])
      have hnone : ∀ u d b, s.tasks u ≠ some (.remembering f d b) := by
        intro u d b hu
        have hask := asked_remembering c s h u f d b hu
        rw [(h.located p f hp).1] at hask
        have hut : (some u : Option ℕ) ≠ some t := by
          rintro ⟨⟩
          rw [ht] at hu
          cases hu
        cases hturn.1 (some u) _ b hut hask
      refine sound_setTask c _ (sound_rename c s h p q f _ hp rfl hnone) t _ (fun κ hκ => ?_)
      cases hκ
      refine taskSound_plain c _ _ (fun g hg => ?_) (by simp) (by simp)
      simp only [Task.file, Option.mem_def, Option.some.injEq] at hg
      exact hg ▸ (h.located p f hp).2
    · cases hst
  | fire n t =>
    simp only [step] at hst
    split at hst <;> cases hst
    rename_i f hn ht
    have hfired : Sound c { s with
        timers := Function.update s.timers n none
        pending := Function.update s.pending (s.path f) none } := by
      refine ⟨h.located,fun m g hm => ?_,fun p m hm => ?_,sound_tasks c s _ h rfl rfl rfl,h.full⟩
      · by_cases hmn : m = n
        · simp [hmn] at hm
        · simp only [Function.update_of_ne hmn] at hm
          exact h.timers m g hm
      · by_cases hpf : p = s.path f
        · simp [hpf] at hm
        · simp only [Function.update_of_ne hpf] at hm
          exact h.pending p m hm
    refine sound_setTask c _ hfired t _ (fun κ hκ => ?_)
    cases hκ
    refine taskSound_plain c _ _ (fun g hg => ?_) (by simp) (by simp)
    simp only [Task.file, Option.mem_def, Option.some.injEq] at hg
    exact hg ▸ (h.timers n f hn).2
  | resume t =>
    obtain ⟨k, hk, hst⟩ := Option.bind_eq_some_iff.mp hst
    exact sound_resume c s h t k hk (ho.2 t k rfl hk) s' hst
  | remembered t docId now =>
    simp only [step] at hst
    split at hst <;> cases hst
    refine sound_setTask c _ (sound_memory c s h _ s.backend s.cancelRequested) t _ (fun κ hκ => ?_)
    cases hκ
    exact taskSound_plain c _ _ (by simp [Task.file]) (by simp) (by simp)
  | apply t =>
    obtain ⟨k, hk, hst⟩ := Option.bind_eq_some_iff.mp hst
    split at hst <;> cases hst
    refine sound_setTask c _ (sound_memory c s h s.store _ s.cancelRequested) t _ (fun κ hκ => ?_)
    cases hκ
    exact taskSound_same c s _ _ (taskSound_applied c s k (h.tasks t k hk)) rfl rfl
  | fullIndex force =>
    simp only [step] at hst
    split at hst <;> cases hst
    · exact sound_setFull c _ (sound_memory c s h s.store s.backend false) _
        (fun v hv => runSound_forgetNext c _ false (by simp) _ v hv)
    · exact h
  | resumeFull =>
    obtain ⟨w, hw, hst⟩ := Option.bind_eq_some_iff.mp hst
    exact sound_resumeFull c s h w hw s' hst
  | rememberedFull docId now =>
    obtain ⟨w, hw, hst⟩ := Option.bind_eq_some_iff.mp hst
    split at hst <;> cases hst
    refine sound_setFull c _ (sound_memory c s h _ s.backend s.cancelRequested) _ (fun v hv => ?_)
    cases hv
    exact runSound_afterNote c w _ (h.full w hw).docs
  | applyFull =>
    obtain ⟨w, hw, hst⟩ := Option.bind_eq_some_iff.mp hst
    split at hst <;> cases hst
    refine ⟨h.located,h.timers,h.pending,sound_tasks c s _ h rfl rfl rfl,fun v hv => ?_⟩
    cases hv
    exact runSound_applied c w (h.full w hw)
  | stop =>
    cases hst
    exact sound_memory c s h s.store s.backend _

end Uru.Indexing.Interleaving
