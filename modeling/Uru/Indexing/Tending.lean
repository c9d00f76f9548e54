import Uru.Indexing.Upkeep

/-!
# Requests keep the copies tended

Each step of an orderly run, path by path: either no request for the path
takes part in it, and what the note calls for stays or a look at it becomes
due, or one request for the path is sent, applied or answered.
-/

set_option autoImplicit false

namespace Uru.Indexing.Interleaving
open Uru.Lib Uru.Lib.RemoteCopy

theorem kept_ignored (c : Config) (s s' : Indexer) (p : String)
    (h : isIgnored c.settings p = true) : Kept (copies c s) (copies c s') p := by
  refine Or.inr ⟨by simp [copies, wanted, h],fun hd => ?_⟩
  have := hd.1.1
  simp [h] at this

theorem kept_setTask (c : Config) (s : Indexer) (t : ℕ) (k : Option Task) (p : String)
    (h : Eligible c s p → Looking c s p (s.tasks t) → Looking c s p k) :
    Kept (copies c s) (copies c (s.setTask t k)) p := by
  refine Or.inr ⟨rfl,fun hd => ⟨hd.1,hd.2.imp id (Exists.imp (fun u hu => ?_))⟩⟩
  by_cases hut : u = t
  · rw [hut, setTask_self]
    exact h hd.1 (hut ▸ hu)
  · rw [setTask_other s t u k hut]
    exact hu

theorem untouched_setTask (c : Config) (s : Indexer) (t : ℕ) (k : Option Task) (p : String)
    (hold : ∀ r b, asked s (some t) ≠ some (p,r,b))
    (hnew : ∀ r b, k.bind Task.request ≠ some (p,r,b)) :
    Untouched (copies c s) (copies c (s.setTask t k)) p := by
  refine ⟨fun x r b => ?_,rfl,rfl⟩
  rw [show (copies c (s.setTask t k)).asked = _ from asked_setTask s t k]
  exact update_elsewhere _ _ _ p hold hnew x r b

/-- A handler that neither had nor has a request outstanding goes on. -/
theorem tended_setTask (c : Config) (s : Indexer) (t : ℕ) (k : Option Task)
    (hold : asked s (some t) = none) (hnew : k.bind Task.request = none) (p : String)
    (h : Tended c.hash (copies c s) p)
    (hlook : Eligible c s p → Looking c s p (s.tasks t) → Looking c s p k) :
    Tended c.hash (copies c (s.setTask t k)) p :=
  tended_kept _ _ _ p h (untouched_setTask c s t k p (by simp [hold]) (by simp [hnew]))
    (kept_setTask c s t k p hlook)

theorem looking_moved (c : Config) (s s' : Indexer) (hs : Sound c s) (q : String) (t : ℕ)
    (hnote : s'.noteAt q = s.noteAt q)
    (hpath : ∀ f, f < s.nextFile → s.path f = q → s'.path f = q)
    (h : Looking c s q (s.tasks t)) : Looking c s' q (s.tasks t) := by
  have hwanted : wanted c s' q = wanted c s q := by rw [wanted, wanted, hnote]
  cases hk : s.tasks t with
  | none => simp [hk, Looking] at h
  | some k =>
    have hfile := (hs.tasks t k hk).file
    rw [hk] at h
    cases k with
    | reading f => exact hpath f (hfile f rfl) h
    | read f raw => exact ⟨hpath f (hfile f rfl) h.1,hnote.trans h.2⟩
    | built f doc => exact ⟨hpath f (hfile f rfl) h.1,h.2.1.trans hwanted.symm,h.2.2⟩
    | remembering f d b => exact h.elim
    | forgetting p renamed b =>
      cases renamed with
      | none => exact h.elim
      | some f => exact hpath f (hfile f rfl) h
    | saving renamed =>
      cases renamed with
      | none => exact h.elim
      | some f => exact hpath f (hfile f rfl) h

/-- The vault changes at other paths. -/
theorem kept_moved (c : Config) (s s' : Indexer) (hs : Sound c s) (q : String)
    (hnote : s'.noteAt q = s.noteAt q)
    (hpath : ∀ f, f < s.nextFile → s.path f = q → s'.path f = q)
    (htasks : s'.tasks = s.tasks) (htimers : s'.timers = s.timers)
    (hpending : s'.pending = s.pending) : Kept (copies c s) (copies c s') q := by
  refine Or.inr ⟨by simp only [copies, wanted, hnote],fun ⟨he, hd⟩ => ⟨?_,?_⟩⟩
  · exact ⟨he.1,by rw [hnote]; exact he.2⟩
  · rcases hd with ⟨n, f, hn, hf, hq⟩ | ⟨t, ht⟩
    · refine Or.inl ⟨n,f,by rw [htimers]; exact hn,hpath f (hs.timers n f hn).2 hf,?_⟩
      rw [hpending]
      exact hq
    · refine Or.inr ⟨t,?_⟩
      rw [htasks]
      exact looking_moved c s s' hs q t hnote hpath ht

theorem armed_debounce (c : Config) (s : Indexer) (hs : Sound c s) (f : ℕ) :
    Armed (s.debounce f) (s.path f) := by
  refine ⟨s.nextTimer,f,by simp [Indexer.debounce],rfl,fun q hq => ?_⟩
  by_contra hne
  simp only [Indexer.debounce, Function.update_of_ne hne] at hq
  exact absurd (hs.pending q _ hq) (lt_irrefl _)

theorem armed_debounce_other (c : Config) (s : Indexer) (hs : Sound c s) (f : ℕ) (q : String)
    (hq : q ≠ s.path f) (h : Armed s q) : Armed (s.debounce f) q := by
  obtain ⟨n, g, hn, hg, hpend⟩ := h
  have hnew : n ≠ s.nextTimer := (hs.timers n g hn).1.ne
  refine ⟨n,g,?_,hg,fun p hp => ?_⟩
  · simp only [Indexer.debounce, Function.update_of_ne hnew]
    exact (cleared_some s f n g).mpr ⟨hn,fun hp => hq (hpend _ hp).symm⟩
  · by_cases hpf : p = s.path f
    · simp only [Indexer.debounce, hpf, Function.update_self, Option.some.injEq] at hp
      exact absurd hp.symm hnew
    · simp only [Indexer.debounce, Function.update_of_ne hpf] at hp
      exact hpend p hp

theorem kept_onChange (c : Config) (s : Indexer) (hs : Sound c s) (f : ℕ) (q : String)
    (hq : q ≠ s.path f) : Kept (copies c s) (copies c (s.onChange c f)) q := by
  unfold Indexer.onChange
  split
  · exact Or.inr ⟨rfl,id⟩
  · exact Or.inr ⟨rfl,fun hd => ⟨hd.1,hd.2.imp (armed_debounce_other c s hs f q hq) id⟩⟩

/-- A change to a note makes a look at it due. -/
theorem due_onChange (c : Config) (s : Indexer) (hs : Sound c s) (f : ℕ)
    (he : Eligible c s (s.path f)) : Due c (s.onChange c f) (s.path f) := by
  unfold Indexer.onChange
  rw [if_neg (by simp [he.1])]
  exact ⟨he,Or.inl (armed_debounce c s hs f)⟩

theorem untouched_onChange (c : Config) (s : Indexer) (f : ℕ) (p : String) :
    Untouched (copies c s) (copies c (s.onChange c f)) p := by
  unfold Indexer.onChange
  split
  · exact ⟨fun _ _ _ => Iff.rfl,rfl,rfl⟩
  · exact ⟨fun x _ _ => by cases x <;> exact Iff.rfl,rfl,rfl⟩

structure SameMemory (s s' : Indexer) : Prop where
  tasks : s'.tasks = s.tasks
  timers : s'.timers = s.timers
  pending : s'.pending = s.pending
  full : s'.full = s.full
  store : s'.store = s.store
  backend : s'.backend = s.backend

theorem asked_same (s s' : Indexer) (h : SameMemory s s') : asked s' = asked s := by
  funext x
  cases x <;> simp [asked, h.tasks, h.full]

theorem untouched_same (c : Config) (s s' : Indexer) (h : SameMemory s s') (p : String) :
    Untouched (copies c s) (copies c s') p := by
  refine ⟨fun x r b => ?_,by simp [copies, h.backend],by simp [copies, h.store]⟩
  simp [copies, asked_same s s' h]

/-- The note at `p` is written, and its file's event is handled. -/
theorem tended_changed (c : Config) (s s' : Indexer) (f : ℕ) (p : String) (hs : Sound c s)
    (hs' : Sound c s') (hsame : SameMemory s s') (hf : s'.path f = p)
    (hp : (s'.noteAt p).isSome) (hnote : ∀ q, q ≠ p → s'.noteAt q = s.noteAt q)
    (hpath : ∀ g, g < s.nextFile → s'.path g = s.path g) (q : String)
    (h : Tended c.hash (copies c s) q) : Tended c.hash (copies c (s'.onChange c f)) q := by
  have hmid := untouched_same c s s' hsame q
  have hlast := untouched_onChange c s' f q
  refine tended_kept _ _ _ q h ⟨fun x r b => (hlast.asked x r b).trans (hmid.asked x r b),
    hlast.remote.trans hmid.remote,hlast.record.trans hmid.record⟩ ?_
  by_cases hq : q = p
  · cases hi : isIgnored c.settings q with
    | true => exact kept_ignored c s _ q hi
    | false =>
      have hdue := due_onChange c s' hs' f (by rw [hf]; exact ⟨hq ▸ hi,hp⟩)
      rw [hf, ← hq] at hdue
      exact Or.inl hdue
  · have hmoved := kept_moved c s s' hs q (hnote q hq) (fun g hg hgq => (hpath g hg).trans hgq)
      hsame.tasks hsame.timers hsame.pending
    exact kept_trans _ _ _ q hmoved (kept_onChange c s' hs' f q (by rwa [hf]))

/-- The note at `p` goes, and the handler of the event asks to forget it. -/
theorem tended_gone (c : Config) (s s' : Indexer) (t : ℕ) (p : String) (renamed : Option ℕ)
    (hsame : SameMemory s s') (ht : s.tasks t = none)
    (hturn : ∀ y r b, y ≠ some t → asked s y = some (p,r,b) → r = .drop)
    (hgone : s'.noteAt p = none) (q : String) (hkept : q ≠ p →
      Kept (copies c s) (copies c (s'.setTask t (some (.forgetting p renamed false)))) q)
    (h : Tended c.hash (copies c s) q) :
    Tended c.hash (copies c (s'.setTask t (some (.forgetting p renamed false)))) q := by
  have hasked : asked (s'.setTask t (some (.forgetting p renamed false))) =
      Function.update (asked s) (some t) (some (p,.drop,false)) := by
    rw [asked_setTask, asked_same s s' hsame]
    rfl
  have hmid := untouched_same c s s' hsame q
  by_cases hq : q = p
  · subst hq
    refine tended_send _ _ _ q (some t) .drop h hasked hturn hmid.remote (Or.inl ?_)
    change none = wanted c s' q
    rw [wanted, hgone]
    split <;> rfl
  · refine tended_kept _ _ _ q h ⟨fun x r b => ?_,hmid.remote,hmid.record⟩ (hkept hq)
    rw [show (copies c _).asked = _ from hasked]
    exact update_elsewhere _ _ _ q (by simp [asked, ht]) (by simp [Ne.symm hq]) x r b

theorem tended_create (c : Config) (s : Indexer) (hs : Sound c s) (p basename : String) (mtime : ℕ)
    (raw : Text) (s' : Indexer) (hst : step c s (.create p basename mtime raw) = some s')
    (q : String) (h : Tended c.hash (copies c s) q) : Tended c.hash (copies c s') q := by
  simp only [step] at hst
  split at hst <;> cases hst
  have hs' := sound_create c s hs p ⟨p,basename,mtime,.ok raw⟩ rfl
  refine tended_changed c s _ s.nextFile p hs hs' ⟨rfl,rfl,rfl,rfl,rfl,rfl⟩
    (by simp [Indexer.path]) (by simp [Indexer.noteAt, Except.toOption]) (fun q' hq' => ?_)
    (fun g hg => by simp [Indexer.path, hg.ne]) q h
  simp only [Indexer.noteAt, Record.get_set, if_neg hq']
  refine Option.bind_congr (fun g hg => ?_)
  rw [Function.update_of_ne (hs.located q' g hg).2.ne]

theorem tended_modify (c : Config) (s : Indexer) (hs : Sound c s) (p : String) (mtime : ℕ)
    (raw : Text) (s' : Indexer) (hst : step c s (.modify p mtime raw) = some s')
    (q : String) (h : Tended c.hash (copies c s) q) : Tended c.hash (copies c s') q := by
  simp only [step] at hst
  split at hst <;> cases hst
  rename_i f hp
  have hf := (hs.located p f hp).1
  have hs' := sound_modify c s hs f { s.objects f with mtime := mtime, raw := .ok raw } rfl
  refine tended_changed c s _ f p hs hs' ⟨rfl,rfl,rfl,rfl,rfl,rfl⟩ (by simpa [Indexer.path] using hf)
    (by simp [Indexer.noteAt, hp, Except.toOption]) (fun q' hq' => ?_) (fun g _ => ?_) q h
  · simp only [Indexer.noteAt]
    refine Option.bind_congr (fun g hg => ?_)
    have hgf : g ≠ f := by
      rintro rfl
      exact hq' ((hs.located q' g hg).1.symm.trans hf)
    rw [Function.update_of_ne hgf]
  · by_cases hgf : g = f <;> simp [Indexer.path, hgf]

theorem tended_delete (c : Config) (s : Indexer) (hs : Sound c s) (p : String) (t : ℕ)
    (ho : SendsInTurn c s (.delete p t)) (s' : Indexer)
    (hst : step c s (.delete p t) = some s') (q : String)
    (h : Tended c.hash (copies c s) q) : Tended c.hash (copies c s') q := by
  have hsend := ho s' (some t) p .drop hst
  simp only [step] at hst
  split at hst <;> cases hst
  rename_i f hp ht
  have hturn := hsend (by rw [asked_setTask, Function.update_self]; rfl) (by simp [asked, ht])
  refine tended_gone c s { s with vault := s.vault.delete p } t p none ⟨rfl,rfl,rfl,rfl,rfl,rfl⟩ ht
    hturn.1 (by simp [Indexer.noteAt]) q (fun hq => ?_) h
  have hmoved := kept_moved c s { s with vault := s.vault.delete p } hs q
    (by simp [Indexer.noteAt, hq]) (fun _ _ hg => hg) rfl rfl rfl
  exact kept_trans _ _ _ q hmoved (kept_setTask c _ t _ q (by simp [ht, Looking]))

/-- Where a renamed file has come to, its handler has still to reindex it. -/
theorem kept_renamed (c : Config) (s s' : Indexer) (t : ℕ) (p : String) (f : ℕ) (q : String)
    (hnew : s.noteAt q = none) (hf : s'.path f = q) :
    Kept (copies c s) (copies c (s'.setTask t (some (.forgetting p (some f) false)))) q := by
  by_cases he : Eligible c s' q
  · refine Or.inl ⟨he,Or.inr ⟨t,?_⟩⟩
    rw [setTask_self]
    exact hf
  · refine Or.inr ⟨?_,fun hd => ?_⟩
    · change wanted c s' q = wanted c s q
      rw [wanted, wanted, hnew]
      split
      · rfl
      · rename_i hi
        cases hnote : s'.noteAt q with
        | none => rfl
        | some raw => exact absurd ⟨by simpa using hi,by simp [hnote]⟩ he
    · have := hd.1.2
      simp [hnew] at this

theorem tended_rename (c : Config) (s : Indexer) (hs : Sound c s) (p q basename : String) (t : ℕ)
    (ho : SendsInTurn c s (.rename p q basename t)) (s' : Indexer)
    (hst : step c s (.rename p q basename t) = some s') (q' : String)
    (h : Tended c.hash (copies c s) q') : Tended c.hash (copies c s') q' := by
  have hsend := ho s' (some t) p .drop hst
  simp only [step] at hst
  split at hst
  · rename_i f hp hq ht
    cases hst
    have hturn := hsend (by rw [asked_setTask, Function.update_self]; rfl) (by simp [asked, ht])
    have hpq : p ≠ q := by
      rintro rfl
      rw [hp] at hq
      cases hq
    have hf := (hs.located p f hp).1
    let s₁ : Indexer := { s with
      vault := (s.vault.delete p).set q f
      objects := Function.update s.objects f
        { s.objects f with path := q, basename := basename } }
    refine tended_gone c s s₁ t p (some f) ⟨rfl,rfl,rfl,rfl,rfl,rfl⟩ ht hturn.1
      (by simp [s₁, Indexer.noteAt, hpq]) q' (fun hq'p => ?_) h
    by_cases hq'q : q' = q
    · subst hq'q
      exact kept_renamed c s s₁ t p f q' (by simp [Indexer.noteAt, hq]) (by simp [s₁, Indexer.path])
    · have hnote : s₁.noteAt q' = s.noteAt q' := by
        simp only [s₁, Indexer.noteAt, Record.get_set, if_neg hq'q, Record.get_delete, if_neg hq'p]
        refine Option.bind_congr (fun g hg => ?_)
        have hgf : g ≠ f := by
          rintro rfl
          exact hq'p ((hs.located q' g hg).1.symm.trans hf)
        rw [Function.update_of_ne hgf]
      have hpath : ∀ g, g < s.nextFile → s.path g = q' → s₁.path g = q' := by
        intro g _ hg
        have hgf : g ≠ f := by
          rintro rfl
          exact hq'p (hg.symm.trans hf)
        simpa only [s₁, Indexer.path, Function.update_of_ne hgf] using hg
      have hmoved := kept_moved c s s₁ hs q' hnote hpath rfl rfl rfl
      exact kept_trans _ _ _ q' hmoved (kept_setTask c s₁ t _ q' (by simp [s₁, ht, Looking]))
  · cases hst

theorem tended_fire (c : Config) (s : Indexer) (n t : ℕ) (s' : Indexer)
    (hst : step c s (.fire n t) = some s') (q : String)
    (h : Tended c.hash (copies c s) q) : Tended c.hash (copies c s') q := by
  simp only [step] at hst
  split at hst <;> cases hst
  rename_i f hn ht
  let s₁ : Indexer := { s with
    timers := Function.update s.timers n none
    pending := Function.update s.pending (s.path f) none }
  have hasked : asked s₁ = asked s := by
    funext x
    cases x <;> rfl
  have hnone : asked s₁ (some t) = none := by
    rw [hasked]
    simp [asked, ht]
  have hset := untouched_setTask c s₁ t (some (.reading f)) q (by simp [hnone])
    (by simp [Task.request])
  refine tended_kept _ _ _ q h ⟨fun x r b => ?_,rfl,rfl⟩ ?_
  · rw [show (copies c s).asked = asked s₁ from hasked.symm]
    exact hset.asked x r b
  · by_cases he : Eligible c s q
    · by_cases hq : s.path f = q
      · refine Or.inl ⟨he,Or.inr ⟨t,?_⟩⟩
        rw [setTask_self]
        exact hq
      · refine Or.inr ⟨rfl,fun hd => ⟨he,?_⟩⟩
        rcases hd.2 with ⟨m, g, hm, hg, hpend⟩ | ⟨u, hu⟩
        · have hmn : m ≠ n := by
            rintro rfl
            rw [hn] at hm
            cases hm
            exact hq hg
          refine Or.inl ⟨m,g,(Function.update_of_ne hmn _ _).trans hm,hg,fun p hp => ?_⟩
          by_cases hpf : p = s.path f
          · simp [Indexer.setTask, hpf] at hp
          · exact hpend p (by simpa [Indexer.setTask, hpf] using hp)
        · have hut : u ≠ t := by
            rintro rfl
            simp [ht, Looking] at hu
          refine Or.inr ⟨u,?_⟩
          rw [setTask_other _ t u _ hut]
          exact hu
    · exact Or.inr ⟨rfl,fun hd => absurd hd.1 he⟩

/-- The handler ends on a note that needs nothing. -/
theorem tended_leftAlone (c : Config) (s : Indexer) (t f : ℕ) (doc : Option BatchDocument)
    (ht : s.tasks t = some (.built f doc))
    (hsame : ∀ d ∈ doc, s.store.isUnchanged (s.path f) d.hash = true) (hl : LeavesAlone c s f doc)
    (q : String) (h : Tended c.hash (copies c s) q) :
    Tended c.hash (copies c (s.setTask t none)) q := by
  have hnone : asked s (some t) = none := by simp [asked, ht, Task.request]
  by_cases hlook : Eligible c s q ∧ Looking c s q (s.tasks t)
  · obtain ⟨he, hlook⟩ := hlook
    rw [ht] at hlook
    have hq : s.path f = q := hlook.1
    subst hq
    obtain ⟨hasked, hidle⟩ := hl he hlook
    refine tended_looked _ _ _ _ h (untouched_setTask c s t none _ (by simp [hnone]) (by simp)) rfl
      hasked (fun hi => ?_)
    have hrecord : ∀ d ∈ doc, ∃ a, s.backend (s.path f) = some a ∧ c.hash a = d.hash := by
      intro d hd
      obtain ⟨e, he, heq⟩ := (HashStore.isUnchanged_iff _ _ _).mp (hsame d hd)
      exact (h.idle hi).2 d.hash (by simp [copies, he, heq])
    change s.backend (s.path f) = wanted c s (s.path f)
    rw [← hlook.2.1]
    cases hb : s.backend (s.path f) with
    | none =>
      cases doc with
      | none => rfl
      | some d =>
        obtain ⟨a, ha, -⟩ := hrecord d rfl
        rw [hb] at ha
        cases ha
    | some a =>
      obtain ⟨d, hd, heq⟩ := hidle hi a hb
      obtain ⟨a', ha', hhash⟩ := hrecord d hd
      rw [hb] at ha'
      cases ha'
      rw [heq hhash, Option.mem_def.mp hd]
      rfl
  · exact tended_setTask c s t none hnone rfl q h (fun he hk => absurd ⟨he,hk⟩ hlook)

/-- A look that read the note as it is builds the document that is wanted. -/
theorem looking_built (c : Config) (s : Indexer) (f : ℕ) (raw : Text) (p : String)
    (he : Eligible c s p) (h : Looking c s p (some (.read f raw))) :
    Looking c s p (some (.built f (document c (s.objects f) raw))) := by
  refine ⟨h.1,?_,fun d hd => ?_⟩
  · rw [document_content, wanted, he.1, h.2]
    simp
  · exact (document_some c _ raw d hd).2.trans h.1

/-- The handler of `doc` sends it. -/
theorem tended_sent (c : Config) (s : Indexer) (t f : ℕ) (d : BatchDocument)
    (ht : s.tasks t = some (.built f (some d))) (hpath : s.path f = d.externalId)
    (hturn : (∀ y r b, y ≠ some t → asked s y = some (d.externalId,r,b) → r = .put d.content) ∧
      (some d.content = wanted c (s.setTask t (some (.remembering f d false))) d.externalId ∨
        Due c (s.setTask t (some (.remembering f d false))) d.externalId))
    (q : String) (h : Tended c.hash (copies c s) q) :
    Tended c.hash (copies c (s.setTask t (some (.remembering f d false)))) q := by
  by_cases hq : q = d.externalId
  · subst hq
    exact tended_send _ _ _ _ (some t) (.put d.content) h (asked_setTask s t _) hturn.1 rfl hturn.2
  · refine tended_kept _ _ _ q h (untouched_setTask c s t _ q (by simp [asked, ht, Task.request])
      (by simp [Task.request, Ne.symm hq])) (kept_setTask c s t _ q (fun _ hk => ?_))
    rw [ht] at hk
    exact absurd (hk.1.symm.trans hpath) hq

/-- A handler sees the reply to its request and takes it down in the store. -/
theorem tended_answered (c : Config) (s : Indexer) (t : ℕ) (k k' : Task) (p : String)
    (r : Request Text) (store : HashStore) (ht : s.tasks t = some k)
    (hk : k.request = some (p,r,true)) (hr : r.outcome = r.result) (hk' : k'.request = none)
    (hget : ∀ q, q ≠ p → store.get q = s.store.get q)
    (hrecord : (store.get p).map IndexEntry.hash = r.result.map c.hash)
    (q : String) (hlook : Looking c s q (some k) → Looking c s q (some k'))
    (h : Tended c.hash (copies c s) q) :
    Tended c.hash (copies c ({ s with store := store }.setTask t (some k'))) q := by
  have hasked : asked ({ s with store := store }.setTask t (some k')) =
      Function.update (asked s) (some t) none := by
    rw [asked_setTask, show asked { s with store := store } = asked s by funext x; cases x <;> rfl,
      Option.bind_some, hk']
  have hself : asked s (some t) = some (p,r,true) := by simp [asked, ht, hk]
  have hkept : Kept (copies c s) (copies c ({ s with store := store }.setTask t (some k'))) q :=
    kept_setTask c { s with store := store } t (some k') q
      (fun _ hl => hlook (by rw [← ht]; exact hl))
  by_cases hq : q = p
  · subst hq
    exact tended_reply _ _ _ q (some t) r h hself hr hasked rfl hrecord hkept
  · refine tended_kept _ _ _ q h ⟨fun x r' b => ?_,rfl,?_⟩ hkept
    · rw [show (copies c _).asked = _ from hasked]
      exact update_elsewhere _ _ _ q (by simp [hself, Ne.symm hq]) (by simp) x r' b
    · exact congrArg (Option.map IndexEntry.hash) (hget q hq)

theorem tended_resume (c : Config) (s : Indexer) (t : ℕ) (k : Task)
    (hk : s.tasks t = some k) (ho : Orderly c s (.resume t)) (s' : Indexer)
    (hst : s.resume c t k = some s') (q : String) (h : Tended c.hash (copies c s) q) :
    Tended c.hash (copies c s') q := by
  have hdec := ho.2 t k rfl hk
  have hstep : step c s (.resume t) = some s' := by simp only [step, hk, Option.bind_some, hst]
  cases k with
  | reading f =>
    cases hst
    have hnone : asked s (some t) = none := by simp [asked, hk, Task.request]
    refine tended_setTask c s t _ hnone (by cases s.cachedRead f <;> rfl) q h (fun he hl => ?_)
    rw [hk] at hl
    obtain ⟨raw, hraw⟩ := Option.isSome_iff_exists.mp he.2
    rw [Indexer.cachedRead, show s.path f = q from hl, hraw]
    exact ⟨hl,hraw⟩
  | read f raw =>
    cases hst
    have hnone : asked s (some t) = none := by simp [asked, hk, Task.request]
    exact tended_setTask c s t _ hnone rfl q h
      (fun he hl => looking_built c s f raw q he (by rw [← hk]; exact hl))
  | built f doc =>
    cases doc with
    | none =>
      cases hst
      exact tended_leftAlone c s t f none hk (by simp) hdec q h
    | some d =>
      cases hst
      by_cases hsame : s.store.isUnchanged (s.path f) d.hash = true
      · rw [DecidesRight, if_pos hsame] at hdec
        rw [if_pos hsame]
        exact tended_leftAlone c s t f (some d) hk (by simpa using hsame) hdec q h
      · rw [DecidesRight, if_neg hsame] at hdec
        rw [if_neg hsame] at hstep ⊢
        have hturn := ho.1 _ (some t) d.externalId (.put d.content) hstep
          (by rw [asked_setTask, Function.update_self]; rfl) (by simp [asked, hk, Task.request])
        exact tended_sent c s t f d hk hdec hturn q h
  | remembering f d b => cases hst
  | forgetting p renamed applied =>
    simp only [Indexer.resume] at hst
    split_ifs at hst with happ
    cases hst
    subst happ
    exact tended_answered c s t _ _ p .drop _ hk rfl rfl rfl (fun q' hq' => by simp [hq'])
      (by simp [Request.result]) q (fun hl => by cases renamed <;> exact hl) h
  | saving renamed =>
    have hnone : asked s (some t) = none := by simp [asked, hk, Task.request]
    cases renamed with
    | none =>
      cases hst
      exact tended_setTask c s t none hnone rfl q h (fun _ hl => by rw [hk] at hl; exact hl)
    | some f =>
      cases hst
      refine tended_setTask c s t _ hnone (by split <;> rfl) q h (fun he hl => ?_)
      rw [hk] at hl
      have hf : s.path f = q := hl
      rw [hf, if_neg (by simp [he.1])]
      exact hf

theorem tended_remembered (c : Config) (s : Indexer) (hs : Sound c s) (t : ℕ) (docId : String)
    (now : ℕ) (s' : Indexer) (hst : step c s (.remembered t docId now) = some s') (q : String)
    (h : Tended c.hash (copies c s) q) : Tended c.hash (copies c s') q := by
  simp only [step] at hst
  split at hst <;> cases hst
  rename_i f d ht
  obtain ⟨hhash, hpath⟩ := (hs.tasks t _ ht).sent f d true rfl
  rw [hpath]
  exact tended_answered c s t _ (.saving none) d.externalId (.put d.content) _ ht rfl rfl rfl
    (fun q' hq' => by simp [hq']) (by simp [Request.result, hhash.symm]) q (fun hl => hl) h

/-- The backend takes in the request of one sender. -/
theorem tended_taken (c : Config) (s s' : Indexer) (x : Option ℕ) (p : String) (r : Request Text)
    (hx : asked s x = some (p,r,false))
    (hasked : asked s' = Function.update (asked s) x (some (p,r,true)))
    (hbackend : s'.backend = Function.update s.backend p r.result) (hstore : s'.store = s.store)
    (q : String) (hkept : Kept (copies c s) (copies c s') q) (h : Tended c.hash (copies c s) q) :
    Tended c.hash (copies c s') q := by
  by_cases hq : q = p
  · subst hq
    exact tended_apply _ _ _ q x r h hx hasked (by simp [copies, hbackend]) hkept
  · refine tended_kept _ _ _ q h ⟨fun y r' b => ?_,by simp [copies, hbackend, hq],
      by simp [copies, hstore]⟩ hkept
    rw [show (copies c _).asked = _ from hasked]
    exact update_elsewhere _ _ _ q (by simp [hx, Ne.symm hq]) (by simp [Ne.symm hq]) y r' b

theorem applied_request (k : Task) (p : String) (r : Request Text) (b : Bool)
    (h : k.request = some (p,r,b)) : k.applied.request = some (p,r,true) := by
  cases k <;> simp_all [Task.request, Task.applied]

theorem phase_applied_request (w : Phase) (p : String) (r : Request Text) (b : Bool)
    (h : w.request = some (p,r,b)) : w.applied.request = some (p,r,true) := by
  cases w <;> simp_all [Phase.request, Phase.applied]

theorem tended_applied (c : Config) (s : Indexer) (t : ℕ) (s' : Indexer)
    (hst : step c s (.apply t) = some s') (q : String) (h : Tended c.hash (copies c s) q) :
    Tended c.hash (copies c s') q := by
  obtain ⟨k, hk, hst⟩ := Option.bind_eq_some_iff.mp hst
  split at hst <;> cases hst
  rename_i p r hr
  refine tended_taken c s (Indexer.setTask { s with
    backend := Function.update s.backend p r.result } t (some k.applied)) (some t) p r
      (by simp [asked, hk, hr]) ?_ rfl rfl q ?_ h
  · rw [asked_setTask, Option.bind_some, applied_request k p r false hr]
    congr 1
  · refine kept_setTask c { s with backend := Function.update s.backend p r.result } t _ q
      (fun _ hl => ?_)
    rw [show _ = some k from hk] at hl
    cases k with
    | remembering f d b => exact hl
    | forgetting p' renamed b => cases renamed <;> exact hl
    | reading f => exact hl
    | read f raw => exact hl
    | built f doc => exact hl
    | saving renamed => exact hl

/-- The full index changes neither the vault nor what is due. -/
theorem kept_full (c : Config) (s : Indexer) (w : Option FullRun) (cancel : Bool)
    (store : HashStore) (backend : String → Option Text) (p : String) :
    Kept (copies c s) (copies c { s with
      full := w, cancelRequested := cancel, store := store, backend := backend }) p :=
  Or.inr ⟨rfl,id⟩

theorem asked_setFull (s : Indexer) (w : Option FullRun) :
    asked (s.setFull w) = Function.update (asked s) none (w.bind (fun v => v.phase.request)) := by
  funext x
  cases x <;> rfl

/-- With nothing outstanding the full index goes on, and sends a request that
is in turn or none. -/
theorem tended_setFull (c : Config) (s : Indexer) (w : Option FullRun) (p : String)
    (hnone : ∀ r b, asked s none ≠ some (p,r,b))
    (hsend : ∀ r b, w.bind (fun v => v.phase.request) = some (p,r,b) → b = false ∧
      (∀ y r' b', y ≠ none → asked s y = some (p,r',b') → r' = r) ∧
      (r.outcome = wanted c s p ∨ Due c s p)) (h : Tended c.hash (copies c s) p) :
    Tended c.hash (copies c (s.setFull w)) p := by
  by_cases hw : ∃ r b, w.bind (fun v => v.phase.request) = some (p,r,b)
  · obtain ⟨r, b, hr⟩ := hw
    obtain ⟨rfl, hsame, hright⟩ := hsend r b hr
    refine tended_send _ _ _ p none r h ?_ hsame rfl hright
    rw [← hr]
    exact asked_setFull s w
  · refine tended_kept _ _ _ p h ⟨fun x r b => ?_,rfl,rfl⟩ (Or.inr ⟨rfl,id⟩)
    rw [show (copies c (s.setFull w)).asked = _ from asked_setFull s w]
    exact update_elsewhere _ _ _ p hnone (fun r b hr => hw ⟨r,b,hr⟩) x r b

theorem sendNext_request (w : FullRun) (cancel : Bool) (p : String) (r : Request Text) (b : Bool)
    (h : (w.sendNext cancel).phase.request = some (p,r,b)) : b = false := by
  unfold FullRun.sendNext at h
  split at h
  · simp [Phase.request] at h
  · split_ifs at h <;> simp_all [Phase.request]

theorem readNext_request (w : FullRun) (cancel : Bool) (p : String) (r : Request Text) (b : Bool)
    (h : (w.readNext cancel).bind (fun v => v.phase.request) = some (p,r,b)) : b = false := by
  unfold FullRun.readNext at h
  split at h
  · simp [Phase.request] at h
  · split_ifs at h
    · simp at h
    · exact sendNext_request w cancel p r b h

theorem forgetNext_request (w : FullRun) (cancel : Bool) (ks : List String) (p : String)
    (r : Request Text) (b : Bool)
    (h : (w.forgetNext cancel ks).bind (fun v => v.phase.request) = some (p,r,b)) : b = false := by
  induction ks with
  | nil => exact readNext_request w cancel p r b h
  | cons k ks ih =>
    rw [FullRun.forgetNext] at h
    split_ifs at h
    · exact ih h
    · simp only [Option.bind_some, Phase.request, Option.some.injEq, Prod.mk.injEq] at h
      exact h.2.2.symm

def InTurn (c : Config) (s : Indexer) (w : Option FullRun) : Prop :=
  ∀ p r, w.bind (fun v => v.phase.request) = some (p,r,false) →
    (∀ y r' b, y ≠ none → asked s y = some (p,r',b) → r' = r) ∧
      (r.outcome = wanted c s p ∨ Due c s p)

/-- The full index sees the reply to its request and goes on. -/
theorem tended_answeredFull (c : Config) (s : Indexer) (p : String) (r : Request Text)
    (store : HashStore) (w : Option FullRun) (hself : asked s none = some (p,r,true))
    (hr : r.outcome = r.result) (hget : ∀ q, q ≠ p → store.get q = s.store.get q)
    (hrecord : (store.get p).map IndexEntry.hash = r.result.map c.hash)
    (hnew : ∀ q r b, w.bind (fun v => v.phase.request) = some (q,r,b) → b = false)
    (hturn : InTurn c s w) (q : String) (h : Tended c.hash (copies c s) q) :
    Tended c.hash (copies c ({ s with store := store }.setFull w)) q := by
  let mid : Indexer := { s with store := store, full := none }
  have hasked : asked mid = Function.update (asked s) none none := by
    funext x
    cases x <;> rfl
  have hmid : Tended c.hash (copies c mid) q := by
    have hkept := kept_full c s none s.cancelRequested store s.backend q
    by_cases hq : q = p
    · subst hq
      exact tended_reply _ _ _ q none r h hself hr hasked rfl hrecord hkept
    · refine tended_kept _ _ _ q h ⟨fun x r' b => ?_,rfl,?_⟩ hkept
      · rw [show (copies c mid).asked = _ from hasked]
        exact update_elsewhere _ _ _ q (by simp [hself, Ne.symm hq]) (by simp) x r' b
      · exact congrArg (Option.map IndexEntry.hash) (hget q hq)
  refine tended_setFull c mid w q (by simp [hasked]) (fun r' b hreq => ?_) hmid
  obtain rfl := hnew q r' b hreq
  obtain ⟨hsame, hright⟩ := hturn q r' hreq
  refine ⟨rfl,fun y r₂ b' hne hy => hsame y r₂ b' hne ?_,hright⟩
  rwa [hasked, Function.update_of_ne hne] at hy

/-- The full index goes on after an await without a request. -/
theorem tended_goesOn (c : Config) (s : Indexer) (w : Option FullRun) (hself : asked s none = none)
    (hnew : ∀ q r b, w.bind (fun v => v.phase.request) = some (q,r,b) → b = false)
    (hturn : InTurn c s w) (q : String) (h : Tended c.hash (copies c s) q) :
    Tended c.hash (copies c (s.setFull w)) q := by
  refine tended_setFull c s w q (by simp [hself]) (fun r b hreq => ?_) h
  obtain rfl := hnew q r b hreq
  exact ⟨rfl,hturn q r hreq⟩

theorem inTurn_of_step (c : Config) (s : Indexer) (e : Event) (ho : SendsInTurn c s e)
    (store : HashStore) (cancel : Bool) (w : Option FullRun)
    (hst : step c s e = some ({ s with store := store, cancelRequested := cancel }.setFull w))
    (hself : ∀ p r, asked s none ≠ some (p,r,false)) : InTurn c s w := by
  intro p r hr
  have hsends : asked (Indexer.setFull { s with store := store, cancelRequested := cancel } w) none =
      some (p,r,false) := by
    rw [asked_setFull, Function.update_self]
    exact hr
  have hturn := ho _ none p r hst hsends (hself p r)
  exact hturn

theorem tended_resumeFull (c : Config) (s : Indexer) (w : FullRun) (hw : s.full = some w)
    (ho : SendsInTurn c s .resumeFull) (s' : Indexer)
    (hst : s.resumeFull c w w.phase = some s') (q : String)
    (h : Tended c.hash (copies c s) q) : Tended c.hash (copies c s') q := by
  have hstep : step c s .resumeFull = some s' := by simp only [step, hw, Option.bind_some, hst]
  have hself : asked s none = w.phase.request := by simp [asked, hw]
  have hgoes : ∀ v : Option FullRun, w.phase.request = none → s' = s.setFull v →
      (∀ q r b, v.bind (fun v => v.phase.request) = some (q,r,b) → b = false) →
      Tended c.hash (copies c s') q := by
    intro v hnone hs' hnew
    rw [hnone] at hself
    subst hs'
    exact tended_goesOn c s v hself hnew (inTurn_of_step c s _ ho s.store s.cancelRequested v hstep
      (by simp [hself])) q h
  cases hphase : w.phase with
  | forgetting k rest applied =>
    rw [hphase] at hst hself
    simp only [Indexer.resumeFull] at hst
    split_ifs at hst with happ
    cases hst
    subst happ
    have hnew := forgetNext_request w s.cancelRequested rest
    exact tended_answeredFull c s k .drop (s.store.delete k) _ hself rfl
      (fun q' hq' => by simp [hq']) (by simp [Request.result]) hnew (inTurn_of_step c s _ ho _
        s.cancelRequested _ hstep (by simp [hself, Phase.request])) q h
  | reading f =>
    rw [hphase] at hst
    cases hst
    exact hgoes _ (by rw [hphase]; rfl) rfl (by cases s.cachedRead f <;> simp [Phase.request])
  | read f raw =>
    rw [hphase] at hst
    cases hst
    exact hgoes _ (by rw [hphase]; rfl) rfl (by simp [Phase.request])
  | built f doc =>
    rw [hphase] at hst
    cases doc with
    | none =>
      cases hst
      exact hgoes _ (by rw [hphase]; rfl) rfl (readNext_request w s.cancelRequested)
    | some d =>
      simp only [Indexer.resumeFull] at hst
      split_ifs at hst
      all_goals
        cases hst
        exact hgoes _ (by rw [hphase]; rfl) rfl (readNext_request _ s.cancelRequested)
  | dropping d applied =>
    rw [hphase] at hst hself
    simp only [Indexer.resumeFull] at hst
    split_ifs at hst with happ
    cases hst
    subst happ
    have hkept : Kept (copies c s) (copies c (s.setFull (some { w with
        phase := .remembering d false }))) q := Or.inr ⟨rfl,id⟩
    by_cases hq : q = d.externalId
    · subst hq
      refine tended_replaced _ _ _ _ none d.content h hself (fun y k a b hy => ?_)
        (asked_setFull s _) rfl hkept
      cases y with
      | none => rfl
      | some t =>
        obtain ⟨k', -, hk'⟩ := Option.bind_eq_some_iff.mp hy
        cases k' <;> simp [Task.request] at hk'
    · refine tended_kept _ _ _ q h ⟨fun x r' b => ?_,rfl,rfl⟩ hkept
      rw [show (copies c (s.setFull _)).asked = _ from asked_setFull s _]
      exact update_elsewhere _ _ _ q (by simp [hself, Phase.request, Ne.symm hq])
        (by simp [Phase.request, Ne.symm hq]) x r' b
  | remembering d applied =>
    rw [hphase] at hst
    cases hst
  | saving =>
    rw [hphase] at hst
    cases hst
    exact hgoes _ (by rw [hphase]; rfl) rfl (sendNext_request w s.cancelRequested)
  | finishing =>
    rw [hphase] at hst
    cases hst
    exact hgoes none (by rw [hphase]; rfl) rfl (by simp)

theorem afterNote_request (w : FullRun) (cancel : Bool) (p : String) (r : Request Text) (b : Bool)
    (h : (Indexer.afterNote w cancel).phase.request = some (p,r,b)) : b = false := by
  unfold Indexer.afterNote at h
  simp only at h
  split_ifs at h
  · simp [Phase.request] at h
  · exact sendNext_request _ cancel p r b h

theorem tended_rememberedFull (c : Config) (s : Indexer) (hs : Sound c s) (docId : String) (now : ℕ)
    (ho : SendsInTurn c s (.rememberedFull docId now)) (s' : Indexer)
    (hst : step c s (.rememberedFull docId now) = some s') (q : String)
    (h : Tended c.hash (copies c s) q) : Tended c.hash (copies c s') q := by
  have hstep := hst
  obtain ⟨w, hw, hst⟩ := Option.bind_eq_some_iff.mp hst
  split at hst <;> cases hst
  rename_i d hphase
  have hself : asked s none = some (d.externalId,.put d.content,true) := by
    simp [asked, hw, hphase, Phase.request]
  have hhash : Hashed c d := (hs.full w hw).sent d true hphase
  exact tended_answeredFull c s d.externalId (.put d.content)
    (s.store.set d.externalId ⟨d.hash,docId,now⟩) (some (Indexer.afterNote w s.cancelRequested))
    hself rfl (fun q' hq' => by simp [hq']) (by simp [Request.result, hhash.symm])
    (afterNote_request w s.cancelRequested)
    (inTurn_of_step c s _ ho _ s.cancelRequested _ hstep (by simp [hself])) q h

end Uru.Indexing.Interleaving
