import Uru.Indexing.Resume

/-!
# Resume against the uninterrupted run

An interrupted run followed by Resume is compared with the uninterrupted run
path by path. A removed note and a changed note come out the same wherever
the cut fell. An unchanged note of a forced run does not: Resume is not
forced and skips it, so it must have been sent before the cut.
-/

set_option autoImplicit false

namespace Uru.Indexing
open Uru.Lib Uru.Lib.AtomicFile

def Delivered (es : List Effect) (doc : BatchDocument) : Prop :=
  Effect.remember doc.externalId doc.content true ∈ es

instance (es : List Effect) (doc : BatchDocument) : Decidable (Delivered es doc) :=
  inferInstanceAs (Decidable (_ ∈ _))

theorem delivered_onPath (es : List Effect) (doc : BatchDocument) :
    Delivered (onPath doc.externalId es) doc ↔ Delivered es doc := by
  simp [Delivered, onPath, Effect.path]

theorem delivered_initial (es fs : List Effect) (doc : BatchDocument) (h : es <+: fs)
    (hd : Delivered es doc) : Delivered fs doc := h.subset hd

theorem onPath_absent (c : Codec Entries) (hash : Text → String) (inv : Invocation) (w : World)
    (p : String) (hp : p ∉ present inv) :
    onPath p (fullIndex c hash inv w).1 =
      if inv.client = true ∧ (w.store.get p).isSome then [.forget p (inv.forget p),.delete p]
      else [] := by
  by_cases hc : inv.client = true
  · have hf : onPath p (fullIndex c hash inv w).1 = onPath p (forgetAbsent inv w.store) := by
      cases hd : toSend hash inv w.store with
      | error m =>
        rw [fullIndex_eq, hc, hd]
        rfl
      | ok docs =>
        have hno : p ∉ docs.map (fun d => d.1.externalId) := fun hm => by
          obtain ⟨d, hdm, rfl⟩ := List.mem_map.mp hm
          exact hp (toSend_present hash inv _ docs hd d hdm)
        rw [onPath_fullIndex c hash inv w docs hc hd, onPath_sendLoop_other _ _ _ _ _ hno,
          List.append_nil]
    rw [hf, onPath_forgetAbsent]
    simp [hp, hc]
  · rw [fullIndex_eq]
    simp [hc, onPath]

theorem onPath_skipped (c : Codec Entries) (hash : Text → String) (inv : Invocation) (w : World)
    (p : String) (hp : p ∈ present inv)
    (h : ∀ docs, toSend hash inv w.store = .ok docs → p ∉ docs.map (fun d => d.1.externalId)) :
    onPath p (fullIndex c hash inv w).1 = [] := by
  by_cases hc : inv.client = true
  · cases hd : toSend hash inv w.store with
    | error m =>
      rw [fullIndex_eq, hc, hd]
      simp [onPath_forgetAbsent, hp]
    | ok docs =>
      rw [onPath_fullIndex c hash inv w docs hc hd, onPath_sendLoop_other _ _ _ _ _ (h docs hd),
        onPath_forgetAbsent]
      simp [hp]
  · rw [fullIndex_eq]
    simp [hc, onPath]

theorem onPath_unchanged (c : Codec Entries) (hash : Text → String) (inv : Invocation) (w : World)
    (file : TFile) (hfile : file ∈ eligible inv.settings inv.vault) (doc : BatchDocument)
    (hdoc : toDocument hash inv.settings file = .ok (some doc)) (hf : inv.force = false)
    (hu : w.store.isUnchanged file.path doc.hash = true) :
    onPath file.path (fullIndex c hash inv w).1 = [] := by
  refine onPath_skipped c hash inv w _ (List.mem_map_of_mem hfile) (fun docs hd hm => ?_)
  obtain ⟨⟨doc', forgetFirst⟩, hmem, hp⟩ := List.mem_map.mp hm
  have := toSend_unique hash inv w.store docs hd file hfile doc doc' hdoc forgetFirst hmem hp
  subst this
  obtain ⟨_, hff, himp⟩ := (mem_documents hash inv _ _ docs hd doc' _).mp hmem
  simp only at hp
  rw [hp, hu] at hff
  simp [himp hff] at hf

theorem toSend_mem (hash : Text → String) (inv : Invocation) (s : HashStore)
    (docs : List (BatchDocument × Bool)) (hd : toSend hash inv s = .ok docs) (file : TFile)
    (hfile : file ∈ eligible inv.settings inv.vault) (doc : BatchDocument)
    (hdoc : toDocument hash inv.settings file = .ok (some doc))
    (h : s.isUnchanged file.path doc.hash = true → inv.force = true) :
    (doc,s.isUnchanged file.path doc.hash) ∈ docs := by
  rw [mem_documents hash inv s _ docs hd]
  exact ⟨⟨file,hfile,hdoc⟩,by rw [(toDocument_some hash _ file doc hdoc).1],h⟩

/-- Whatever a run does to a note is a prefix of the attempts at it. -/
theorem onPath_attempts (c : Codec Entries) (hash : Text → String) (inv : Invocation) (w : World)
    (docs : List (BatchDocument × Bool)) (hd : toSend hash inv w.store = .ok docs)
    (doc : BatchDocument) (forgetFirst : Bool) (hmem : (doc,forgetFirst) ∈ docs) :
    ∃ i, onPath doc.externalId (fullIndex c hash inv w).1 <+: noteEffects inv i doc forgetFirst := by
  obtain ⟨i, hi⟩ := List.mem_iff_getElem?.mp hmem
  refine ⟨i,?_⟩
  by_cases hc : inv.client = true
  · rw [onPath_note c hash inv w docs hc hd i doc forgetFirst hi]
    split_ifs
    · exact List.nil_prefix
    · exact List.prefix_refl _
  · rw [fullIndex_eq]
    simp [hc, onPath]

def Refused (doc : BatchDocument) (e : Effect) : Prop :=
  (∃ ok, e = .forget doc.externalId ok) ∨ e = .remember doc.externalId doc.content false

theorem rememberFrom_shape (inv : Invocation) (i : ℕ) (doc : BatchDocument) (forgetFirst : Bool)
    (as : List ℕ) : ∃ refused, (∀ e ∈ refused, Refused doc e) ∧
      (rememberFrom inv i doc forgetFirst as).1 = refused++
        if (rememberFrom inv i doc forgetFirst as).2 = none then []
        else [.remember doc.externalId doc.content true] := by
  induction as generalizing forgetFirst with
  | nil => exact ⟨[],by simp,by simp [rememberFrom]⟩
  | cons a as ih =>
    rw [rememberFrom]
    split
    · exact ⟨[],by simp,by simp⟩
    · have hforget : ∀ e ∈ (if forgetFirst then
          [Effect.forget doc.externalId (inv.forget doc.externalId)] else []), Refused doc e := by
        cases forgetFirst <;> simp [Refused]
      cases hr : inv.remember doc.externalId a with
      | some id => exact ⟨_,hforget,by simp⟩
      | none =>
        obtain ⟨refused, href, heq⟩ := ih false
        refine ⟨(if forgetFirst then [Effect.forget doc.externalId (inv.forget doc.externalId)]
          else [])++.remember doc.externalId doc.content false::refused,?_,?_⟩
        · intro e he
          rcases List.mem_append.mp he with he | he
          · exact hforget e he
          · rcases List.mem_cons.mp he with rfl | he
            · exact Or.inr rfl
            · exact href e he
        · simp only [heq, List.append_assoc, List.cons_append]

theorem runCell_refused (doc : BatchDocument) (es : List Effect) (h : ∀ e ∈ es, Refused doc e)
    (x : Cell) : (runCell es x).entry = x.entry := by
  induction es generalizing x with
  | nil => rfl
  | cons e es ih =>
    rw [runCell_cons, ih (fun f hf => h f (by simp [hf]))]
    rcases h e (by simp) with ⟨ok, rfl⟩ | rfl
    · cases ok <;> rfl
    · rfl

theorem refused_not_delivered (doc : BatchDocument) (es : List Effect)
    (h : ∀ e ∈ es, Refused doc e) : ¬ Delivered es doc := by
  intro hd
  rcases h _ hd with ⟨ok, he⟩ | he
  · cases he
  · cases he

/-- Cut anywhere, the attempts at a note have not touched its entry and not
delivered it, or have delivered it, and then the entry is the old one or has
the hash of the note. -/
theorem note_initial (inv : Invocation) (i : ℕ) (doc : BatchDocument) (forgetFirst : Bool)
    (es : List Effect) (h : es <+: noteEffects inv i doc forgetFirst) (x : Cell) :
    ((runCell es x).entry = x.entry ∧ ¬ Delivered es doc) ∨
    (Delivered es doc ∧ (runCell es x).doc = some doc.content ∧
      ((runCell es x).entry = x.entry ∨ ∃ e, (runCell es x).entry = some e ∧ e.hash = doc.hash)) := by
  obtain ⟨refused, href, heq⟩ := rememberFrom_shape inv i doc forgetFirst [0,1,2]
  rw [List.prefix_iff_eq_take, noteEffects, rememberWithRetry, heq, List.append_assoc,
    List.take_append] at h
  have hcut : ∀ e ∈ refused.take es.length, Refused doc e := fun e he =>
    href e (List.mem_of_mem_take he)
  cases hs : (rememberFrom inv i doc forgetFirst [0,1,2]).2 with
  | none =>
    simp only [hs, if_true, List.append_nil, List.take_nil] at h
    rw [h]
    exact Or.inl ⟨runCell_refused doc _ hcut x,refused_not_delivered doc _ hcut⟩
  | some id =>
    simp only [hs, reduceCtorEq, if_false, List.singleton_append] at h
    rcases hk : es.length - refused.length with _ | _ | k
    · rw [hk, List.take_zero, List.append_nil] at h
      rw [h]
      exact Or.inl ⟨runCell_refused doc _ hcut x,refused_not_delivered doc _ hcut⟩
    · rw [hk] at h
      rw [h, runCell_append]
      exact Or.inr ⟨by simp [Delivered],rfl,Or.inl (runCell_refused doc _ hcut x)⟩
    · rw [hk] at h
      rw [h, runCell_append]
      refine Or.inr ⟨by simp [Delivered],by simp [Effect.onCell],Or.inr ⟨⟨doc.hash,id,inv.now i⟩,?_,rfl⟩⟩
      simp [Effect.onCell]

theorem answered_sent (c : Codec Entries) (hash : Text → String) (inv : Invocation) (force : Bool)
    (docId : String → ℕ → String) (now : ℕ → ℕ) (w : World) (docs : List (BatchDocument × Bool))
    (hd : toSend hash (answered inv force docId now) w.store = .ok docs) (doc : BatchDocument)
    (forgetFirst : Bool) (hmem : (doc,forgetFirst) ∈ docs) :
    Delivered (fullIndex c hash (answered inv force docId now) w).1 doc ∧
    ∃ e, e.hash = doc.hash ∧
      (afterFullIndex c hash (answered inv force docId now) w).cell doc.externalId =
        ⟨some e,some doc.content⟩ := by
  obtain ⟨i, hi⟩ := List.mem_iff_getElem?.mp hmem
  have hpath := onPath_note c hash (answered inv force docId now) w docs rfl hd i doc forgetFirst hi
  have hgo : (answered inv force docId now).cancelled i 0 = false := rfl
  rw [hgo, if_neg (by simp)] at hpath
  constructor
  · rw [← delivered_onPath, hpath]
    cases forgetFirst <;>
      simp [Delivered, noteEffects, rememberWithRetry, rememberFrom, answered, Invocation.cancelled]
  · refine ⟨⟨doc.hash,docId doc.externalId 0,now i⟩,rfl,?_⟩
    rw [cell_afterFullIndex, hpath, runCell_noteEffects]
    cases forgetFirst <;>
      simp [rememberWithRetry, rememberFrom, answered, Invocation.cancelled]

theorem toSend_answered (hash : Text → String) (inv : Invocation) (docId : String → ℕ → String)
    (now : ℕ → ℕ) (s : HashStore) :
    toSend hash (answered inv inv.force docId now) s = toSend hash inv s :=
  documents_congr hash _ _ s s _ rfl rfl (fun _ _ => rfl)

section
variable (c : Codec Entries) (hash : Text → String) (inv : Invocation) (w : World)
  (crash : Option Crash) (docId docId' : String → ℕ → String) (now now' : ℕ → ℕ)

def cutRun : List Effect := cutEffects (fullIndex c hash inv w).1 crash

def resumeWorld : World := reopened c (fullIndex c hash inv w).1 crash w

def uninterrupted : World := afterFullIndex c hash (answered inv inv.force docId now) w

def resumed : World :=
  afterFullIndex c hash (answered inv false docId' now') (resumeWorld c hash inv w crash)

/-- The interrupted run and its resume end as the uninterrupted run, and what
that run sends was sent by one of the two. -/
structure ResumeEquivalent : Prop where
  hashes : ∀ p, ((resumed c hash inv w crash docId' now').store.get p).map IndexEntry.hash =
    ((uninterrupted c hash inv w docId now).store.get p).map IndexEntry.hash
  documents : ∀ p, (resumed c hash inv w crash docId' now').backend p =
    (uninterrupted c hash inv w docId now).backend p
  sent : ∀ docs, toSend hash inv w.store = .ok docs → ∀ doc forgetFirst, (doc,forgetFirst) ∈ docs →
    Delivered (cutRun c hash inv w crash) doc ∨
    Delivered (fullIndex c hash (answered inv false docId' now')
      (resumeWorld c hash inv w crash)).1 doc

/-- Every unchanged note of a forced run was sent before the cut, and no
refused removal had been saved. -/
structure CutHarmless : Prop where
  unchanged : ∀ docs, toSend hash inv w.store = .ok docs → ∀ doc, (doc,true) ∈ docs →
    Delivered (cutRun c hash inv w crash) doc
  removals : ∀ p, (w.store.get p).isSome → p ∉ present inv →
    inv.forget p = true ∨ ((resumeWorld c hash inv w crash).store.get p).isSome

/-- Where a path stands when the resume starts: its entry after an earlier
prefix of the cut run than its document. -/
theorem resumeWorld_cell (hd : Loaded c w.store w.disk) : ∃ done, done <+: cutRun c hash inv w crash ∧
    ∀ p, (resumeWorld c hash inv w crash).cell p =
      ⟨(runCell (onPath p done) (w.cell p)).entry,
        (runCell (onPath p (cutRun c hash inv w crash)) (w.cell p)).doc⟩ := by
  obtain ⟨done, hp, hs⟩ := reopened_store c (fullIndex c hash inv w).1 w crash hd
  refine ⟨done,hp,fun p => ?_⟩
  rw [← cell_applyEffects c done w p, ← cell_applyEffects c _ w p]
  exact Cell.ext (congrArg (fun s => s.get p) hs) rfl

theorem cutRun_initial : cutRun c hash inv w crash <+: (fullIndex c hash inv w).1 := by
  cases crash with
  | none => exact List.prefix_refl _
  | some crash => exact List.take_prefix _ _

theorem cell_unchanged (w : World) (p h : String) :
    w.store.isUnchanged p h = true ↔ ∃ e, (w.cell p).entry = some e ∧ e.hash = h :=
  HashStore.isUnchanged_iff w.store p h

theorem resumed_untouched (hd : Loaded c w.store w.disk) (p : String)
    (hes : onPath p (fullIndex c hash inv w).1 = [])
    (hfull : onPath p (fullIndex c hash (answered inv inv.force docId now) w).1 = [])
    (hres : (resumeWorld c hash inv w crash).cell p = w.cell p →
      onPath p (fullIndex c hash (answered inv false docId' now')
        (resumeWorld c hash inv w crash)).1 = []) :
    (resumed c hash inv w crash docId' now').cell p = (uninterrupted c hash inv w docId now).cell p := by
  obtain ⟨done, hp, hcell⟩ := resumeWorld_cell c hash inv w crash hd
  have hcut : onPath p (cutRun c hash inv w crash) = [] :=
    List.prefix_nil.mp (hes ▸ onPath_initial p _ _ (cutRun_initial c hash inv w crash))
  have hdone : onPath p done = [] := List.prefix_nil.mp (hcut ▸ onPath_initial p _ _ hp)
  have hy : (resumeWorld c hash inv w crash).cell p = w.cell p := by
    rw [hcell, hcut, hdone]
    rfl
  rw [resumed, uninterrupted, cell_afterFullIndex, cell_afterFullIndex, hfull, hres hy, hy]

/-- The entry of an absent path is gone in both; its document is gone in both
unless the cut run's removal was refused and saved. -/
theorem resumed_absent (hw : GateSound hash w) (hd : Loaded c w.store w.disk) (p : String)
    (hp : p ∉ present inv) (ht : (w.store.get p).isSome) :
    ((resumed c hash inv w crash docId' now').cell p).entry = none ∧
    (uninterrupted c hash inv w docId now).cell p = ⟨none,none⟩ ∧
    (((resumed c hash inv w crash docId' now').cell p).doc = none ↔
      inv.forget p = true ∨ ((resumeWorld c hash inv w crash).store.get p).isSome) := by
  have hu : (uninterrupted c hash inv w docId now).cell p = ⟨none,none⟩ := by
    rw [uninterrupted, cell_afterFullIndex,
      onPath_absent c hash (answered inv inv.force docId now) w p hp, if_pos ⟨rfl,ht⟩]
    simp [answered, Effect.onCell]
  obtain ⟨done, hpre, hcell⟩ := resumeWorld_cell c hash inv w crash hd
  have hres : (resumed c hash inv w crash docId' now').cell p =
      if ((resumeWorld c hash inv w crash).store.get p).isSome then ⟨none,none⟩
      else (resumeWorld c hash inv w crash).cell p := by
    rw [resumed, cell_afterFullIndex, onPath_absent c hash (answered inv false docId' now') _ p hp]
    by_cases hy : ((resumeWorld c hash inv w crash).store.get p).isSome
    · rw [if_pos ⟨rfl,hy⟩, if_pos hy]
      simp [answered, Effect.onCell]
    · rw [if_neg (fun h => hy h.2), if_neg hy]
      rfl
  obtain ⟨e, he⟩ := Option.isSome_iff_exists.mp ht
  obtain ⟨t, hb, _⟩ := hw p e he
  by_cases hy : ((resumeWorld c hash inv w crash).store.get p).isSome
  · simp [hres, hy, hu]
  · have hentry : ((resumeWorld c hash inv w crash).cell p).entry = none := by
      simpa [World.cell] using hy
    have hdone : onPath p done <+: onPath p (cutRun c hash inv w crash) := onPath_initial p _ _ hpre
    have hcut := onPath_initial p _ _ (cutRun_initial c hash inv w crash)
    rw [onPath_absent c hash inv w p hp] at hcut
    have hwhole : onPath p done = [.forget p (inv.forget p),.delete p] := by
      have hone := hcell p
      rw [hone] at hentry
      have hbound := hdone.trans hcut
      split_ifs at hbound
      · rcases List.prefix_cons_iff.mp hbound with h0 | ⟨l, hl, hbound⟩
        · rw [h0] at hentry
          exact absurd (hentry.symm.trans he) (by simp)
        · rcases List.prefix_cons_iff.mp hbound with h1 | ⟨l', hl', hbound⟩
          · rw [hl, h1] at hentry
            cases hf : inv.forget p <;> simp [Effect.onCell, World.cell, he, hf] at hentry
          · rw [hl, hl', List.prefix_nil.mp hbound]
      · rw [List.prefix_nil.mp hbound] at hentry
        exact absurd (hentry.symm.trans he) (by simp)
    have hfull : onPath p (cutRun c hash inv w crash) = [.forget p (inv.forget p),.delete p] := by
      rw [hwhole] at hdone
      split_ifs at hcut
      · exact (hdone.eq_of_length_le (by simpa using hcut.length_le)).symm
      · exact absurd (hdone.trans hcut) (by simp)
    rw [hres, if_neg hy, hcell, hfull, hwhole]
    refine ⟨rfl,hu,?_⟩
    cases hf : inv.forget p <;> simp [Effect.onCell, hb, hy]

/-- Where a note to send stands when the resume starts: under its old entry,
or under a new one and delivered; and once delivered, with its content. -/
theorem reopened_note (hd : Loaded c w.store w.disk) (docs : List (BatchDocument × Bool))
    (hdocs : toSend hash inv w.store = .ok docs) (doc : BatchDocument) (forgetFirst : Bool)
    (hmem : (doc,forgetFirst) ∈ docs) :
    (((resumeWorld c hash inv w crash).cell doc.externalId).entry =
        (w.cell doc.externalId).entry ∨
      (∃ e, ((resumeWorld c hash inv w crash).cell doc.externalId).entry = some e ∧
        e.hash = doc.hash) ∧ Delivered (cutRun c hash inv w crash) doc) ∧
    (Delivered (cutRun c hash inv w crash) doc →
      ((resumeWorld c hash inv w crash).cell doc.externalId).doc = some doc.content) := by
  obtain ⟨done, hpre, hcell⟩ := resumeWorld_cell c hash inv w crash hd
  obtain ⟨i, hattempts⟩ := onPath_attempts c hash inv w docs hdocs doc forgetFirst hmem
  have hcut := (onPath_initial doc.externalId _ _ (cutRun_initial c hash inv w crash)).trans hattempts
  have hdone : onPath doc.externalId done <+: onPath doc.externalId (cutRun c hash inv w crash) :=
    onPath_initial doc.externalId _ _ hpre
  rw [hcell doc.externalId]
  constructor
  · rcases note_initial inv i doc forgetFirst _ (hdone.trans hcut) (w.cell doc.externalId) with
      ⟨hold, _⟩ | ⟨hdel, _, hold | hnew⟩
    · exact Or.inl hold
    · exact Or.inl hold
    · exact Or.inr ⟨hnew,(delivered_onPath _ doc).mp (delivered_initial _ _ doc hdone hdel)⟩
  · intro hdel
    rcases note_initial inv i doc forgetFirst _ hcut (w.cell doc.externalId) with ⟨_, hn⟩ | ⟨_, hc, _⟩
    · exact absurd ((delivered_onPath _ doc).mpr hdel) hn
    · exact hc

theorem resumed_skipped (file : TFile) (hfile : file ∈ eligible inv.settings inv.vault)
    (doc : BatchDocument) (hdoc : toDocument hash inv.settings file = .ok (some doc))
    (hset : ∃ e, ((resumeWorld c hash inv w crash).cell doc.externalId).entry = some e ∧
      e.hash = doc.hash) :
    (resumed c hash inv w crash docId' now').cell doc.externalId =
      (resumeWorld c hash inv w crash).cell doc.externalId ∧
    ¬ Delivered (fullIndex c hash (answered inv false docId' now')
      (resumeWorld c hash inv w crash)).1 doc := by
  have hp := (toDocument_some hash _ file doc hdoc).1
  have hskip := onPath_unchanged c hash (answered inv false docId' now')
    (resumeWorld c hash inv w crash) file hfile doc hdoc rfl
    (hp ▸ (cell_unchanged _ _ _).mpr hset)
  rw [← hp] at hskip
  constructor
  · rw [resumed, cell_afterFullIndex, hskip, runCell_nil]
  · rw [← delivered_onPath, hskip]
    simp [Delivered]

/-- A changed note is sent by the resume unless the cut run got as far as its
entry, and then it had been delivered. -/
theorem resumed_changed (hd : Loaded c w.store w.disk) (docs : List (BatchDocument × Bool))
    (hdocs : toSend hash inv w.store = .ok docs) (doc : BatchDocument) (hmem : (doc,false) ∈ docs) :
    (∃ e, ((resumed c hash inv w crash docId' now').cell doc.externalId).entry = some e ∧
      e.hash = doc.hash) ∧
    ((resumed c hash inv w crash docId' now').cell doc.externalId).doc = some doc.content ∧
    (Delivered (cutRun c hash inv w crash) doc ∨
      Delivered (fullIndex c hash (answered inv false docId' now')
        (resumeWorld c hash inv w crash)).1 doc) := by
  obtain ⟨⟨file, hfile, hdoc⟩, hu, _⟩ := (mem_documents hash inv _ _ docs hdocs doc false).mp hmem
  have hp := (toDocument_some hash _ file doc hdoc).1
  obtain ⟨hentry, hcontent⟩ := reopened_note c hash inv w crash hd docs hdocs doc false hmem
  by_cases hset : ∃ e, ((resumeWorld c hash inv w crash).cell doc.externalId).entry = some e ∧
      e.hash = doc.hash
  · have hdel : Delivered (cutRun c hash inv w crash) doc := by
      rcases hentry with hold | ⟨_, hdel⟩
      · rw [hold] at hset
        rw [(cell_unchanged w _ _).mpr hset] at hu
        cases hu
      · exact hdel
    rw [(resumed_skipped c hash inv w crash docId' now' file hfile doc hdoc hset).1]
    exact ⟨hset,hcontent hdel,Or.inl hdel⟩
  · have hchanged : (resumeWorld c hash inv w crash).store.isUnchanged file.path doc.hash = false := by
      rw [← hp, ← Bool.not_eq_true, cell_unchanged]
      exact hset
    cases hdocs' : toSend hash (answered inv false docId' now')
        (resumeWorld c hash inv w crash).store with
    | error m =>
      obtain ⟨m', hm'⟩ := (documents_error hash inv w.store _).mpr
        ((documents_error hash (answered inv false docId' now') _ _).mp ⟨m,hdocs'⟩)
      exact absurd (hm'.symm.trans hdocs) (by simp)
    | ok docs' =>
      have hmem' := toSend_mem hash (answered inv false docId' now') _ docs' hdocs' file hfile doc hdoc
        (by simp [hchanged])
      rw [hchanged] at hmem'
      obtain ⟨hdel, e, he, hcell'⟩ := answered_sent c hash inv false docId' now' _ docs' hdocs' doc
        false hmem'
      rw [resumed, hcell']
      exact ⟨⟨e,rfl,he⟩,rfl,Or.inr hdel⟩

/-- An unchanged note of a forced run is skipped by the resume. -/
theorem resumed_unchanged (hd : Loaded c w.store w.disk) (docs : List (BatchDocument × Bool))
    (hdocs : toSend hash inv w.store = .ok docs) (doc : BatchDocument) (hmem : (doc,true) ∈ docs) :
    (∃ e, ((resumed c hash inv w crash docId' now').cell doc.externalId).entry = some e ∧
      e.hash = doc.hash) ∧
    (Delivered (cutRun c hash inv w crash) doc →
      ((resumed c hash inv w crash docId' now').cell doc.externalId).doc = some doc.content) ∧
    ¬ Delivered (fullIndex c hash (answered inv false docId' now')
      (resumeWorld c hash inv w crash)).1 doc := by
  obtain ⟨⟨file, hfile, hdoc⟩, hu, _⟩ := (mem_documents hash inv _ _ docs hdocs doc true).mp hmem
  obtain ⟨hentry, hcontent⟩ := reopened_note c hash inv w crash hd docs hdocs doc true hmem
  have hset : ∃ e, ((resumeWorld c hash inv w crash).cell doc.externalId).entry = some e ∧
      e.hash = doc.hash := by
    rcases hentry with hold | ⟨hnew, _⟩
    · rw [hold]
      exact (cell_unchanged w _ _).mp hu.symm
    · exact hnew
  obtain ⟨hcell, hno⟩ := resumed_skipped c hash inv w crash docId' now' file hfile doc hdoc hset
  rw [hcell]
  exact ⟨hset,hcontent,hno⟩

/-- A path that no note to send has and that is not a tracked absent one comes
out the same. -/
theorem resumed_other (hd : Loaded c w.store w.disk) (p : String)
    (hp : p ∉ present inv → w.store.get p = none)
    (hn : ∀ docs, toSend hash inv w.store = .ok docs → p ∉ docs.map (fun d => d.1.externalId)) :
    (resumed c hash inv w crash docId' now').cell p = (uninterrupted c hash inv w docId now).cell p := by
  by_cases hpres : p ∈ present inv
  · refine resumed_untouched c hash inv w crash docId docId' now now' hd p
      (onPath_skipped c hash inv w p hpres hn)
      (onPath_skipped c hash _ w p hpres (fun docs h => hn docs (by rwa [toSend_answered] at h)))
      (fun hy => onPath_skipped c hash _ _ p hpres (fun docs' hdocs' hm => ?_))
    obtain ⟨⟨doc, forgetFirst⟩, hmem, rfl⟩ := List.mem_map.mp hm
    obtain ⟨⟨file, hfile, hdoc⟩, hff, himp⟩ :=
      (mem_documents hash (answered inv false docId' now') _ _ docs' hdocs' doc _).mp hmem
    cases hdocs : toSend hash inv w.store with
    | error m =>
      obtain ⟨m', hm'⟩ := (documents_error hash (answered inv false docId' now')
        (resumeWorld c hash inv w crash).store _).mpr ((documents_error hash inv _ _).mp ⟨m,hdocs⟩)
      exact absurd (hm'.symm.trans hdocs') (by simp)
    | ok docs =>
      have hpath := (toDocument_some hash _ file doc hdoc).1
      have hget : (resumeWorld c hash inv w crash).store.get doc.externalId =
          w.store.get doc.externalId := congrArg Cell.entry hy
      have hsame : w.store.isUnchanged file.path doc.hash = forgetFirst := by
        rw [hff, HashStore.isUnchanged, HashStore.isUnchanged, hget, hpath]
      have hmem' := toSend_mem hash inv w.store docs hdocs file hfile doc hdoc (fun h => by
        rw [hsame] at h
        exact absurd (himp h) (by simp [answered]))
      exact hn docs hdocs (List.mem_map.mpr ⟨_,hmem',rfl⟩)
  · have hnone := hp hpres
    refine resumed_untouched c hash inv w crash docId docId' now now' hd p ?_ ?_ (fun hy => ?_)
    · rw [onPath_absent c hash inv w p hpres, if_neg (by simp [hnone])]
    · rw [onPath_absent c hash (answered inv inv.force docId now) w p hpres, if_neg (by simp [hnone])]
    · have hget : (resumeWorld c hash inv w crash).store.get p = w.store.get p :=
        congrArg Cell.entry hy
      rw [onPath_absent c hash (answered inv false docId' now') _ p hpres,
        if_neg (by simp [hget, hnone])]

end

end Uru.Indexing
