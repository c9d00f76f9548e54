import Uru.Indexing.HashGate

/-!
# A full index that ran to completion

A completed run should leave the store, the backend and the state file
reconcilable: removed notes are gone or will be removed later, sent notes
agree in all copies, and the file holds what is in memory. Three inputs break
this: a refused removal, a lost forget, and deletions with nothing to send.
-/

set_option autoImplicit false

namespace Uru.Indexing
open Uru.Lib Uru.Lib.AtomicFile

def HasDocument (hash : Text → String) (inv : Invocation) (p : String) : Prop :=
  ∃ file ∈ eligible inv.settings inv.vault, file.path = p ∧
    ∃ doc, toDocument hash inv.settings file = .ok (some doc)

/-- The note was up for sending and no attempt at it succeeded. -/
def SendFailed (hash : Text → String) (inv : Invocation) (w : World) (p : String) : Prop :=
  ∃ docs i doc forgetFirst, toSend hash inv w.store = .ok docs ∧
    docs[i]? = some (doc,forgetFirst) ∧ doc.externalId = p ∧ AllRefused inv i p

def fileEntries (c : Codec Entries) (d : Disk) : Entries := (HashStore.readIfValid c d.file).getD ∅

structure Reconciled (c : Codec Entries) (hash : Text → String) (inv : Invocation)
    (w w' : World) : Prop where
  removed : ∀ p, (w.store.get p).isSome → ¬ HasDocument hash inv p →
    w'.backend p = none ∨ (w'.store.get p).isSome
  sent : ∀ file ∈ eligible inv.settings inv.vault, ∀ doc,
    toDocument hash inv.settings file = .ok (some doc) →
    (w'.store.isUnchanged file.path doc.hash = true ∧
      ∃ t, w'.backend file.path = some t ∧ hash t = doc.hash) ∨
    (SendFailed hash inv w file.path ∧ w'.store.isUnchanged file.path doc.hash = false)
  saved : fileEntries c w'.disk = w'.store.entries

/-- Every removal is granted, no forget is lost, and a run with nothing to
send has nothing to save either. -/
structure Reconcilable (c : Codec Entries) (hash : Text → String) (inv : Invocation)
    (w : World) : Prop where
  forgets : ∀ p, (w.store.get p).isSome → p ∉ present inv → inv.forget p = true
  kept : ¬ LostForget hash w inv
  saves : toSend hash inv w.store = .ok [] →
    (fileEntries c w.disk).entries = w.store.entries.entries.filter (fun e => e.1 ∈ present inv)

theorem applyEffects_loaded (c : Codec Entries) (es : List Effect) (w : World) :
    (applyEffects c es w).store.loaded = w.store.loaded := by
  induction es generalizing w with
  | nil => rfl
  | cons e es ih =>
    rw [applyEffects_cons, ih]
    cases e with
    | forget p ok => cases ok <;> rfl
    | remember p t ok => cases ok <;> rfl
    | set p en => rfl
    | delete p => rfl
    | save => rfl
    | status d t => rfl

theorem applyEffects_disk (c : Codec Entries) (es : List Effect) (w : World)
    (h : Effect.save ∉ es) : (applyEffects c es w).disk = w.disk := by
  induction es generalizing w with
  | nil => rfl
  | cons e es ih =>
    simp only [List.mem_cons, not_or] at h
    rw [applyEffects_cons, ih _ h.2]
    cases e with
    | forget p ok => cases ok <;> rfl
    | remember p t ok => cases ok <;> rfl
    | set p en => rfl
    | delete p => rfl
    | save => exact absurd rfl h.1
    | status d t => rfl

theorem save_notin_forgetAbsent (inv : Invocation) (s : HashStore) :
    Effect.save ∉ forgetAbsent inv s := by
  simp [forgetAbsent]

theorem entries_removals (c : Codec Entries) (reply : String → Bool) (known : List String)
    (w : World) :
    (applyEffects c (known.flatMap (fun q => [.forget q (reply q),.delete q])) w).store.entries.entries =
      w.store.entries.entries.filter (fun e => e.1 ∉ known) := by
  induction known generalizing w with
  | nil => simp
  | cons q known ih =>
    rw [List.flatMap_cons, applyEffects_append, ih]
    have hq : (applyEffects c [.forget q (reply q),.delete q] w).store = w.store.delete q := by
      cases hr : reply q <;> simp [Effect.apply]
    rw [hq, HashStore.delete, Record.delete, List.filter_filter]
    refine List.filter_congr (fun e _ => ?_)
    simp [not_or, Bool.and_comm]

theorem entries_forgetAbsent (c : Codec Entries) (inv : Invocation) (w : World) :
    (applyEffects c (forgetAbsent inv w.store) w).store.entries.entries =
      w.store.entries.entries.filter (fun e => e.1 ∈ present inv) := by
  rw [forgetAbsent, entries_removals]
  refine List.filter_congr (fun e he => ?_)
  have hk : e.1 ∈ w.store.knownPaths := List.mem_map_of_mem he
  simp [hk, present]

theorem sendLoop_completed (inv : Invocation) (total done : ℕ)
    (docs : List (BatchDocument × Bool)) (h : (sendLoop inv total done docs).2 = false) (i : ℕ)
    (hi : i < docs.length) : inv.cancelled (done+i) 0 = false := by
  induction docs generalizing done i with
  | nil => simp at hi
  | cons d docs ih =>
    obtain ⟨doc, forgetFirst⟩ := d
    rw [sendLoop] at h
    by_cases hc : inv.cancelled done 0 = true
    · simp [hc] at h
    · rw [if_neg hc] at h
      cases i with
      | zero => simpa using hc
      | succ i =>
        rw [Nat.add_comm i, ← Nat.add_assoc]
        exact ih (done+1) h i (by simpa using hi)

theorem completed_cases (c : Codec Entries) (hash : Text → String) (inv : Invocation) (w : World)
    (h : (fullIndex c hash inv w).2 = true) : inv.client = true ∧
    ∃ docs, toSend hash inv w.store = .ok docs ∧
      ∀ i < docs.length, inv.cancelled i 0 = false := by
  rw [fullIndex_eq] at h
  cases hc : inv.client with
  | false => simp [hc] at h
  | true =>
    cases hd : toSend hash inv w.store with
    | error m => simp [hc, hd] at h
    | ok docs =>
      refine ⟨rfl,docs,rfl,fun i hi => ?_⟩
      cases docs with
      | nil => simp at hi
      | cons d docs =>
        simp only [hc, hd, Bool.not_true, Bool.false_eq_true, if_false, Bool.not_eq_true'] at h
        simpa using sendLoop_completed inv _ 0 (d::docs) h i hi

theorem disk_nothing_to_send (c : Codec Entries) (hash : Text → String) (inv : Invocation)
    (w : World) (hc : inv.client = true) (hd : toSend hash inv w.store = .ok []) :
    (afterFullIndex c hash inv w).disk = w.disk ∧
      (afterFullIndex c hash inv w).store.entries.entries =
        w.store.entries.entries.filter (fun e => e.1 ∈ present inv) := by
  have he : (fullIndex c hash inv w).1 = forgetAbsent inv w.store := by
    rw [fullIndex_eq, hc, hd]
    rfl
  rw [afterFullIndex, he]
  exact ⟨applyEffects_disk c _ w (save_notin_forgetAbsent inv _),entries_forgetAbsent c inv w⟩

theorem disk_sent (c : Codec Entries) (hash : Text → String) (inv : Invocation) (w : World)
    (docs : List (BatchDocument × Bool)) (hc : inv.client = true)
    (hd : toSend hash inv w.store = .ok docs) (hne : docs ≠ []) (hl : w.store.loaded = true) :
    fileEntries c (afterFullIndex c hash inv w).disk =
      (afterFullIndex c hash inv w).store.entries := by
  obtain ⟨es, he⟩ : ∃ es, (fullIndex c hash inv w).1 = es++[.save] := by
    rw [fullIndex_eq, hc, hd]
    cases docs with
    | nil => exact absurd rfl hne
    | cons d docs => exact ⟨_,rfl⟩
  rw [afterFullIndex, he, applyEffects_append]
  simp only [applyEffects_cons, applyEffects_nil, Effect.apply]
  rw [HashStore.save_loaded c _ _ ((applyEffects_loaded c es w).trans hl)]
  simp [fileEntries, HashStore.readIfValid]

theorem removed_iff (c : Codec Entries) (hash : Text → String) (inv : Invocation) (w : World)
    (docs : List (BatchDocument × Bool)) (hw : GateSound hash w) (hc : inv.client = true)
    (hd : toSend hash inv w.store = .ok docs) :
    (∀ p, (w.store.get p).isSome → ¬ HasDocument hash inv p →
      (afterFullIndex c hash inv w).backend p = none ∨
        ((afterFullIndex c hash inv w).store.get p).isSome) ↔
    (∀ p, (w.store.get p).isSome → p ∉ present inv → inv.forget p = true) := by
  have hcell := cell_afterFullIndex c hash inv w
  constructor
  · intro h p ht hp
    have hnd : ¬ HasDocument hash inv p := by
      rintro ⟨file, hfile, rfl, _⟩
      exact hp (List.mem_map_of_mem hfile)
    obtain ⟨e, he⟩ := Option.isSome_iff_exists.mp ht
    obtain ⟨t, hb, _⟩ := hw p e he
    have hpath : onPath p (fullIndex c hash inv w).1 = [.forget p (inv.forget p),.delete p] := by
      rcases onPath_cases c hash inv w docs hc hd p with
        ⟨_, _, hpath⟩ | ⟨i, doc, forgetFirst, hi, rfl, _⟩ | ⟨hpres, _⟩
      · exact hpath
      · exact absurd (toSend_present hash inv w.store docs hd _ (List.mem_of_getElem? hi)) hp
      · exact absurd (hpres ht) hp
    have hx := hcell p
    rw [hpath] at hx
    have hdel : (afterFullIndex c hash inv w).store.get p = none := congrArg Cell.entry hx
    have hdoc := congrArg Cell.doc hx
    rcases h p ht hnd with h | h
    · by_contra hf
      rw [Bool.not_eq_true] at hf
      have hkept : (afterFullIndex c hash inv w).backend p = some t := by
        rw [← hb]
        simpa [World.cell, Effect.onCell, hf] using hdoc
      simp [h] at hkept
    · simp [hdel] at h
  · intro h p ht hnd
    have hx := hcell p
    rcases onPath_cases c hash inv w docs hc hd p with
      ⟨_, hp, hpath⟩ | ⟨i, doc, forgetFirst, hi, rfl, _⟩ | ⟨_, _, hpath⟩
    · rw [hpath] at hx
      left
      simpa [World.cell, Effect.onCell, h p ht hp] using congrArg Cell.doc hx
    · obtain ⟨⟨file, hfile, hdoc⟩, _⟩ := (mem_documents hash inv w.store _ docs hd doc _).mp
        (List.mem_of_getElem? hi)
      exact absurd ⟨file,hfile,(toDocument_some hash _ file doc hdoc).1.symm,doc,hdoc⟩ hnd
    · rw [hpath] at hx
      right
      rw [show (afterFullIndex c hash inv w).store.get p = w.store.get p from congrArg Cell.entry hx]
      exact ht

theorem toSend_unique (hash : Text → String) (inv : Invocation) (s : HashStore)
    (docs : List (BatchDocument × Bool)) (hd : toSend hash inv s = .ok docs) (file : TFile)
    (hfile : file ∈ eligible inv.settings inv.vault) (doc doc' : BatchDocument)
    (hdoc : toDocument hash inv.settings file = .ok (some doc)) (forgetFirst : Bool)
    (hmem : (doc',forgetFirst) ∈ docs) (hp : doc'.externalId = file.path) : doc' = doc := by
  obtain ⟨⟨file', hfile', hdoc'⟩, _⟩ := (mem_documents hash inv s _ docs hd doc' _).mp hmem
  have hpath : file'.path = file.path := (toDocument_some hash _ file' doc' hdoc').1.symm.trans hp
  have : file' = file := List.inj_on_of_nodup_map (eligible_nodup _ _) hfile' hfile hpath
  subst this
  simpa [hdoc'] using hdoc

theorem sendFailed_of_changed (c : Codec Entries) (hash : Text → String) (inv : Invocation)
    (w : World) (docs : List (BatchDocument × Bool)) (hc : inv.client = true)
    (hd : toSend hash inv w.store = .ok docs)
    (hgo : ∀ i < docs.length, inv.cancelled i 0 = false) (file : TFile)
    (hfile : file ∈ eligible inv.settings inv.vault) (doc : BatchDocument)
    (hdoc : toDocument hash inv.settings file = .ok (some doc))
    (hu : (afterFullIndex c hash inv w).store.isUnchanged file.path doc.hash = false) :
    SendFailed hash inv w file.path := by
  have hp := (toDocument_some hash _ file doc hdoc).1
  have hx := cell_afterFullIndex c hash inv w file.path
  rcases onPath_cases c hash inv w docs hc hd file.path with
    ⟨_, hpres, _⟩ | ⟨i, doc', forgetFirst, hi, hp', hpath⟩ | ⟨_, hother, hpath⟩
  · exact absurd (List.mem_map_of_mem hfile) hpres
  · have hmem := List.mem_of_getElem? hi
    have := toSend_unique hash inv w.store docs hd file hfile doc doc' hdoc forgetFirst hmem hp'
    subst this
    refine ⟨docs,i,doc',forgetFirst,hd,hi,hp',?_⟩
    rw [← hp', ← rememberWithRetry_none inv i doc' forgetFirst]
    by_contra hne
    obtain ⟨id, hid⟩ := Option.ne_none_iff_exists'.mp hne
    rw [hpath, hgo i (List.getElem?_eq_some_iff.mp hi).1, if_neg (by simp), runCell_noteEffects,
      hid] at hx
    have hentry : (afterFullIndex c hash inv w).store.get file.path = some ⟨doc'.hash,id,inv.now i⟩ :=
      congrArg Cell.entry hx
    simp [HashStore.isUnchanged, hentry] at hu
  · have hsame : (afterFullIndex c hash inv w).store.get file.path = w.store.get file.path := by
      rw [hpath] at hx
      exact congrArg Cell.entry hx
    have hchanged : w.store.isUnchanged doc.externalId doc.hash = false := by
      rw [← hu, hp, HashStore.isUnchanged, HashStore.isUnchanged, hsame]
    have hmem : (doc,false) ∈ docs := (mem_documents hash inv w.store _ docs hd doc false).mpr
      ⟨⟨file,hfile,hdoc⟩,hchanged.symm,by simp⟩
    exact absurd (List.mem_map.mpr ⟨_,hmem,hp⟩) hother

theorem sent_of_kept (c : Codec Entries) (hash : Text → String) (inv : Invocation) (w : World)
    (docs : List (BatchDocument × Bool)) (hw : GateSound hash w) (hc : inv.client = true)
    (hd : toSend hash inv w.store = .ok docs)
    (hgo : ∀ i < docs.length, inv.cancelled i 0 = false) (hl : ¬ LostForget hash w inv)
    (file : TFile) (hfile : file ∈ eligible inv.settings inv.vault) (doc : BatchDocument)
    (hdoc : toDocument hash inv.settings file = .ok (some doc)) :
    ((afterFullIndex c hash inv w).store.isUnchanged file.path doc.hash = true ∧
      ∃ t, (afterFullIndex c hash inv w).backend file.path = some t ∧ hash t = doc.hash) ∨
    (SendFailed hash inv w file.path ∧
      (afterFullIndex c hash inv w).store.isUnchanged file.path doc.hash = false) := by
  cases hu : (afterFullIndex c hash inv w).store.isUnchanged file.path doc.hash with
  | true =>
    obtain ⟨e, he, heh⟩ := (HashStore.isUnchanged_iff _ _ _).mp hu
    obtain ⟨t, ht, hth⟩ := gate_step c hash w inv hw hl file.path e he
    exact Or.inl ⟨rfl,t,ht,hth.trans heh⟩
  | false => exact Or.inr ⟨sendFailed_of_changed c hash inv w docs hc hd hgo file hfile doc hdoc hu,rfl⟩

/-- From a state where every entry is backed, a run that returns true leaves
the three copies reconciled if and only if no removal was refused, no forget
was lost, and the state file already held the result when nothing was sent. -/
theorem completed_run_reconciled (c : Codec Entries) (hash : Text → String) (inv : Invocation)
    (w : World) (hw : GateSound hash w) (hl : w.store.loaded = true)
    (ht : (fullIndex c hash inv w).2 = true) :
    Reconciled c hash inv w (afterFullIndex c hash inv w) ↔ Reconcilable c hash inv w := by
  obtain ⟨hc, docs, hd, hgo⟩ := completed_cases c hash inv w ht
  have hrem := removed_iff c hash inv w docs hw hc hd
  constructor
  · intro h
    refine ⟨hrem.mp h.removed,fun hlost => ?_,fun hnil => ?_⟩
    · obtain ⟨file, doc, e, hfile, hdoc, hcell, he⟩ := cell_lost c hash w inv hlost
      have hp := (toDocument_some hash _ file doc hdoc).1
      have hget : (afterFullIndex c hash inv w).store.get file.path = some e :=
        hp ▸ congrArg Cell.entry hcell
      have hgone : (afterFullIndex c hash inv w).backend file.path = none :=
        hp ▸ congrArg Cell.doc hcell
      rcases h.sent file hfile doc hdoc with ⟨_, t, hb, _⟩ | ⟨_, hu⟩
      · simp [hgone] at hb
      · simp [HashStore.isUnchanged, hget, he] at hu
    · obtain ⟨hdisk, hent⟩ := disk_nothing_to_send c hash inv w hc hnil
      rw [← hent, ← h.saved, hdisk]
  · intro h
    refine ⟨hrem.mpr h.forgets,sent_of_kept c hash inv w docs hw hc hd hgo h.kept,?_⟩
    cases docs with
    | nil =>
      obtain ⟨hdisk, hent⟩ := disk_nothing_to_send c hash inv w hc hd
      rw [hdisk]
      exact Record.ext ((h.saves hd).trans hent.symm)
    | cons d docs => exact disk_sent c hash inv w (d::docs) hc hd (by simp) hl

def indexedWorld : World :=
  afterFullIndex stateFile String.ofList (oneNoteRun false true) emptyWorld

theorem indexedWorld_sound : GateSound String.ofList indexedWorld := by
  refine gate_step stateFile String.ofList emptyWorld _ (fun p e he => by cases he) ?_
  rintro ⟨_, docs, i, doc, _, _, _, _, hr⟩
  exact absurd (hr 0 (by simp) rfl) (by simp [oneNoteRun])

def removalRun (files : List TFile) (h : (files.map TFile.path).Nodup) (granted : Bool) :
    Invocation :=
  { oneNoteRun false true with vault := ⟨files,h⟩, forget := fun _ => granted }

theorem completed_run_reconciled_removal :
    Reconciled stateFile String.ofList
      (removalRun [⟨"b.md","b",0,.ok "beta".toList⟩] (by decide) true) indexedWorld
      (afterFullIndex stateFile String.ofList
        (removalRun [⟨"b.md","b",0,.ok "beta".toList⟩] (by decide) true) indexedWorld) := by
  refine (completed_run_reconciled stateFile String.ofList _ indexedWorld indexedWorld_sound
    (by decide) (by decide)).mpr ⟨fun _ _ _ => rfl,?_,fun h => absurd h (by decide)⟩
  rintro ⟨_, docs, i, doc, _, _, _, _, hr⟩
  exact absurd (hr 0 (by simp) rfl) (by simp [removalRun, oneNoteRun])

/-- The removal of the only note is refused: the run completes, its entry is
dropped and its document stays. -/
theorem refused_removal_orphans :
    (fullIndex stateFile String.ofList (removalRun [] (by decide) false) indexedWorld).2 = true ∧
    GateSound String.ofList indexedWorld ∧
    ¬ Reconciled stateFile String.ofList (removalRun [] (by decide) false) indexedWorld
      (afterFullIndex stateFile String.ofList (removalRun [] (by decide) false) indexedWorld) := by
  refine ⟨by decide,indexedWorld_sound,fun h => ?_⟩
  have hgone := h.removed "a.md" (by decide) (by
    rintro ⟨file, hfile, _⟩
    exact absurd hfile (by simp [removalRun, eligible]))
  exact absurd hgone (by decide)

end Uru.Indexing
