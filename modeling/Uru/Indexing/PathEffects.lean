import Uru.Indexing.FullIndex

/-!
# What a full index does to one path

The store's entry and the backend's document of a path form its cell. Effects
that name another path leave the cell alone, so a call acts on it through the
few effects that name it: the removal of an absent note, the attempts to send
a changed one, or none.
-/

set_option autoImplicit false

namespace Uru.Indexing
open Uru.Lib Uru.Lib.AtomicFile

@[ext] structure Cell where
  entry : Option IndexEntry
  doc : Option Text

def World.cell (w : World) (p : String) : Cell := ⟨w.store.get p,w.backend p⟩

def Effect.path : Effect → Option String
  | .forget p _ | .remember p _ _ | .set p _ | .delete p => some p
  | .save | .status _ _ => none

def Effect.onCell : Effect → Cell → Cell
  | .forget _ ok, x => if ok then ⟨x.entry,none⟩ else x
  | .remember _ t ok, x => if ok then ⟨x.entry,some t⟩ else x
  | .set _ e, x => ⟨some e,x.doc⟩
  | .delete _, x => ⟨none,x.doc⟩
  | .save, x => x
  | .status _ _, x => x

def runCell (es : List Effect) (x : Cell) : Cell := es.foldl (fun x e => e.onCell x) x

def onPath (p : String) (es : List Effect) : List Effect := es.filter (fun e => e.path = some p)

theorem cell_apply (c : Codec Entries) (e : Effect) (w : World) (p : String) :
    (e.apply c w).cell p = if e.path = some p then e.onCell (w.cell p) else w.cell p := by
  cases e with
  | forget q ok =>
    cases ok <;> by_cases hq : p = q <;>
      simp [Effect.apply, Effect.path, Effect.onCell, World.cell, hq, eq_comm (a := q)]
  | remember q t ok =>
    cases ok <;> by_cases hq : p = q <;>
      simp [Effect.apply, Effect.path, Effect.onCell, World.cell, hq, eq_comm (a := q)]
  | set q en =>
    by_cases hq : p = q <;>
      simp [Effect.apply, Effect.path, Effect.onCell, World.cell, hq, eq_comm (a := q)]
  | delete q =>
    by_cases hq : p = q <;>
      simp [Effect.apply, Effect.path, Effect.onCell, World.cell, hq, eq_comm (a := q)]
  | save => simp [Effect.apply, Effect.path, World.cell]
  | status d t => simp [Effect.apply, Effect.path]

theorem cell_applyEffects (c : Codec Entries) (es : List Effect) (w : World) (p : String) :
    (applyEffects c es w).cell p = runCell (onPath p es) (w.cell p) := by
  induction es generalizing w with
  | nil => rfl
  | cons e es ih =>
    rw [applyEffects_cons, ih, cell_apply, onPath, onPath]
    by_cases h : e.path = some p
    · rw [if_pos h, List.filter_cons_of_pos (by simpa using h)]
      rfl
    · rw [if_neg h, List.filter_cons_of_neg (by simpa using h)]

theorem onPath_append (p : String) (es fs : List Effect) :
    onPath p (es++fs) = onPath p es++onPath p fs := List.filter_append _ _

theorem onPath_all (p q : String) (es : List Effect) (h : ∀ e ∈ es, e.path = some q) :
    onPath p es = if q = p then es else [] := by
  split_ifs with hq
  · exact List.filter_eq_self.mpr (fun e he => by simp [h e he, hq])
  · exact List.filter_eq_nil_iff.mpr (fun e he => by simp [h e he, hq])

theorem onPath_initial (p : String) (es fs : List Effect) (h : es <+: fs) :
    onPath p es <+: onPath p fs := h.filter _

/-- Loop and attempt checkpoints are passed in order, and a stop once seen
stays seen. -/
theorem cancelled_mono (inv : Invocation) (i k j l : ℕ) (h : i < j ∨ i = j ∧ k ≤ l)
    (hc : inv.cancelled i k = true) : inv.cancelled j l = true := by
  unfold Invocation.cancelled at hc ⊢
  split at hc
  · exact absurd hc (by simp)
  · simp only [Bool.or_eq_true, decide_eq_true_eq, Bool.and_eq_true] at hc ⊢
    omega

theorem onPath_removals (reply : String → Bool) (p : String) (known : List String)
    (hn : known.Nodup) :
    onPath p (known.flatMap (fun q => [.forget q (reply q),.delete q])) =
      if p ∈ known then [.forget p (reply p),.delete p] else [] := by
  induction known with
  | nil => rfl
  | cons q known ih =>
    obtain ⟨hq, hn⟩ := List.nodup_cons.mp hn
    rw [List.flatMap_cons, onPath_append, ih hn,
      onPath_all p q _ (by simp [Effect.path])]
    by_cases h : q = p
    · subst h
      simp [hq]
    · simp [h, Ne.symm h]

def present (inv : Invocation) : List String :=
  (eligible inv.settings inv.vault).map TFile.path

theorem onPath_forgetAbsent (inv : Invocation) (s : HashStore) (p : String) :
    onPath p (forgetAbsent inv s) =
      if (s.get p).isSome ∧ p ∉ present inv then [.forget p (inv.forget p),.delete p] else [] := by
  have hn : s.knownPaths.Nodup := s.entries.nodup
  rw [forgetAbsent, onPath_removals _ _ _ (hn.filter _)]
  simp [HashStore.mem_knownPaths, present]

theorem rememberFrom_path (inv : Invocation) (i : ℕ) (doc : BatchDocument) (forgetFirst : Bool)
    (as : List ℕ) :
    ∀ e ∈ (rememberFrom inv i doc forgetFirst as).1, e.path = some doc.externalId := by
  induction as generalizing forgetFirst with
  | nil => simp [rememberFrom]
  | cons a as ih =>
    intro e he
    have hl := ih false e
    rw [rememberFrom] at he
    split at he
    · simp at he
    · cases hr : inv.remember doc.externalId a with
      | some id =>
        cases forgetFirst <;> simp [hr] at he
        · subst he; rfl
        · rcases he with rfl | rfl <;> rfl
      | none =>
        cases forgetFirst <;> simp [hr] at he
        · rcases he with rfl | he
          · rfl
          · exact hl he
        · rcases he with rfl | rfl | he
          · rfl
          · rfl
          · exact hl he

theorem noteEffects_path (inv : Invocation) (i : ℕ) (doc : BatchDocument) (forgetFirst : Bool) :
    ∀ e ∈ noteEffects inv i doc forgetFirst, e.path = some doc.externalId := by
  intro e he
  rw [noteEffects, List.mem_append] at he
  rcases he with he | he
  · exact rememberFrom_path inv i doc forgetFirst _ e he
  · split at he
    · rw [List.mem_singleton] at he
      subst he
      rfl
    · simp at he

def AllRefused (inv : Invocation) (i : ℕ) (p : String) : Prop :=
  ∀ a ∈ [0,1,2], inv.cancelled i (a+1) = false → inv.remember p a = none

theorem rememberFrom_none (inv : Invocation) (i : ℕ) (doc : BatchDocument) (forgetFirst : Bool)
    (as : List ℕ) (hs : as.Pairwise (· ≤ ·)) :
    (rememberFrom inv i doc forgetFirst as).2 = none ↔
      ∀ a ∈ as, inv.cancelled i (a+1) = false → inv.remember doc.externalId a = none := by
  induction as generalizing forgetFirst with
  | nil => simp [rememberFrom]
  | cons a as ih =>
    obtain ⟨ha, hs⟩ := List.pairwise_cons.mp hs
    rw [rememberFrom]
    by_cases hc : inv.cancelled i (a+1) = true
    · simp only [hc, if_true, true_iff, List.mem_cons]
      rintro b (rfl | hb) hb'
      · simp [hc] at hb'
      · have := cancelled_mono inv i (a+1) i (b+1) (Or.inr ⟨rfl,by have := ha b hb; omega⟩) hc
        simp [this] at hb'
    · rw [if_neg hc]
      have hc : inv.cancelled i (a+1) = false := by simpa using hc
      cases hr : inv.remember doc.externalId a with
      | some id => simp [hr, hc]
      | none => simp [hr, ih false hs]

theorem rememberWithRetry_none (inv : Invocation) (i : ℕ) (doc : BatchDocument)
    (forgetFirst : Bool) :
    (rememberWithRetry inv i doc forgetFirst).2 = none ↔ AllRefused inv i doc.externalId :=
  rememberFrom_none inv i doc forgetFirst [0,1,2] (by decide)

@[simp] theorem runCell_nil (x : Cell) : runCell [] x = x := rfl

@[simp] theorem runCell_cons (e : Effect) (es : List Effect) (x : Cell) :
    runCell (e::es) x = runCell es (e.onCell x) := rfl

theorem runCell_append (es fs : List Effect) (x : Cell) :
    runCell (es++fs) x = runCell fs (runCell es x) := List.foldl_append

theorem runCell_retries (inv : Invocation) (i : ℕ) (doc : BatchDocument) (as : List ℕ) (x : Cell) :
    runCell (rememberFrom inv i doc false as).1 x =
      if (rememberFrom inv i doc false as).2 = none then x else ⟨x.entry,some doc.content⟩ := by
  induction as with
  | nil => simp [rememberFrom]
  | cons a as ih =>
    rw [rememberFrom]
    split
    · simp
    · cases hr : inv.remember doc.externalId a with
      | some id => simp [Effect.onCell]
      | none => simpa [Effect.onCell] using ih

/-- Whether the old document was dropped at the first attempt. -/
def dropped (inv : Invocation) (i : ℕ) (p : String) (forgetFirst : Bool) : Bool :=
  forgetFirst && !inv.cancelled i 1 && inv.forget p

/-- A note that was sent has its entry and its document; one that was not
keeps its entry, and its document unless that was dropped. -/
theorem runCell_noteEffects (inv : Invocation) (i : ℕ) (doc : BatchDocument) (forgetFirst : Bool)
    (x : Cell) :
    runCell (noteEffects inv i doc forgetFirst) x =
      match (rememberWithRetry inv i doc forgetFirst).2 with
      | some id => ⟨some ⟨doc.hash,id,inv.now i⟩,some doc.content⟩
      | none => ⟨x.entry,if dropped inv i doc.externalId forgetFirst then none else x.doc⟩ := by
  have hsent : runCell (rememberWithRetry inv i doc forgetFirst).1 x =
      if (rememberWithRetry inv i doc forgetFirst).2 = none then
        ⟨x.entry,if dropped inv i doc.externalId forgetFirst then none else x.doc⟩
      else ⟨x.entry,some doc.content⟩ := by
    cases forgetFirst with
    | false => simpa [dropped, rememberWithRetry] using runCell_retries inv i doc [0,1,2] x
    | true =>
      have hlater := runCell_retries inv i doc [1,2]
        ⟨x.entry,if inv.forget doc.externalId then none else x.doc⟩
      rw [rememberWithRetry, rememberFrom]
      by_cases hc : inv.cancelled i 1 = true
      · simp [hc, dropped]
      · cases hr : inv.remember doc.externalId 0 with
        | some id => cases hf : inv.forget doc.externalId <;> simp [hc, Effect.onCell]
        | none =>
          cases hf : inv.forget doc.externalId <;>
            simpa [hc, dropped, Effect.onCell, hf] using hlater
  rw [noteEffects, runCell_append, hsent]
  cases (rememberWithRetry inv i doc forgetFirst).2 with
  | some id => simp [Effect.onCell]
  | none => simp

theorem documents_sublist (hash : Text → String) (inv : Invocation) (s : HashStore)
    (files : List TFile) (docs : List (BatchDocument × Bool))
    (h : documents hash inv s files = .ok docs) :
    (docs.map (fun d => d.1.externalId)).Sublist (files.map TFile.path) := by
  induction files generalizing docs with
  | nil => cases h; exact List.Sublist.refl _
  | cons file files ih =>
    rw [documents] at h
    split at h
    · cases h
    · exact (ih docs h).cons _
    · rename_i doc hdoc
      simp only at h
      split at h
      · exact (ih docs h).cons _
      · cases hd : documents hash inv s files with
        | error m => simp [hd, Except.map] at h
        | ok rest =>
          simp only [hd, Except.map, Except.ok.injEq] at h
          subst h
          rw [List.map_cons, List.map_cons, (toDocument_some hash _ file doc hdoc).1]
          exact (ih rest hd).cons_cons _

/-- The notes to send: those with a document, less the unchanged ones unless
the run is forced. -/
theorem mem_documents (hash : Text → String) (inv : Invocation) (s : HashStore)
    (files : List TFile) (docs : List (BatchDocument × Bool))
    (h : documents hash inv s files = .ok docs) (doc : BatchDocument) (forgetFirst : Bool) :
    (doc,forgetFirst) ∈ docs ↔
      (∃ file ∈ files, toDocument hash inv.settings file = .ok (some doc)) ∧
      forgetFirst = s.isUnchanged doc.externalId doc.hash ∧ (forgetFirst = true → inv.force = true) := by
  induction files generalizing docs with
  | nil => cases h; simp
  | cons file files ih =>
    rw [documents] at h
    split at h
    · cases h
    · rename_i hdoc
      rw [ih docs h]
      simp [hdoc]
    · rename_i d hdoc
      have hp := (toDocument_some hash _ file d hdoc).1
      simp only at h
      split at h
      · rename_i hskip
        simp only [Bool.and_eq_true, Bool.not_eq_true', ← hp] at hskip
        rw [ih docs h]
        refine and_congr_left (fun hf => ?_)
        simp only [List.exists_mem_cons_iff, hdoc, Except.ok.injEq, Option.some.injEq]
        refine (or_iff_right ?_).symm
        rintro rfl
        rw [hskip.2] at hf
        simpa [hskip.1] using hf.2 hf.1
      · rename_i hskip
        cases hd : documents hash inv s files with
        | error m => simp [hd, Except.map] at h
        | ok rest =>
          simp only [hd, Except.map, Except.ok.injEq] at h
          subst h
          rw [List.mem_cons, ih rest hd]
          simp only [List.exists_mem_cons_iff, hdoc, Except.ok.injEq, Option.some.injEq,
            Prod.mk.injEq]
          rw [← hp] at hskip ⊢
          constructor
          · rintro (⟨rfl, rfl⟩ | ⟨hf, hr⟩)
            · cases hu : s.isUnchanged doc.externalId doc.hash <;> simp [hu] at hskip ⊢
              exact hskip
            · exact ⟨Or.inr hf,hr⟩
          · rintro ⟨rfl | hf, hr⟩
            · left
              refine ⟨rfl,?_⟩
              cases hu : s.isUnchanged d.externalId d.hash <;> simp [hu] at hskip hr ⊢
              · exact hr.1
              · simp [hr]
            · exact Or.inr ⟨hf,hr⟩

theorem documents_congr (hash : Text → String) (inv inv' : Invocation) (s t : HashStore)
    (files : List TFile) (hs : inv.settings = inv'.settings) (hf : inv.force = inv'.force)
    (h : ∀ file ∈ files, s.get file.path = t.get file.path) :
    documents hash inv s files = documents hash inv' t files := by
  induction files with
  | nil => rfl
  | cons file files ih =>
    have hu : ∀ d, s.isUnchanged file.path d = t.isUnchanged file.path d := fun d => by
      rw [HashStore.isUnchanged, HashStore.isUnchanged, h file (by simp)]
    simp only [documents, hs, hf, hu, ih (fun f hf => h f (by simp [hf]))]

/-- Reading fails or not whatever is tracked and whatever is forced. -/
theorem documents_error (hash : Text → String) (inv : Invocation) (s : HashStore)
    (files : List TFile) :
    (∃ m, documents hash inv s files = .error m) ↔
      ∃ file ∈ files, ∃ m, toDocument hash inv.settings file = .error m := by
  induction files with
  | nil => simp [documents]
  | cons file files ih =>
    rw [documents, List.exists_mem_cons_iff, ← ih]
    rcases toDocument hash inv.settings file with m | _ | doc
    · simp
    · simp
    · cases documents hash inv s files <;>
        cases hskip : (!inv.force && s.isUnchanged file.path doc.hash) <;> simp [hskip, Except.map]

theorem onPath_sendLoop_cons (inv : Invocation) (total done : ℕ) (doc : BatchDocument)
    (forgetFirst : Bool) (docs : List (BatchDocument × Bool)) (p : String) :
    onPath p (sendLoop inv total done ((doc,forgetFirst)::docs)).1 =
      if inv.cancelled done 0 then [] else
      (if doc.externalId = p then noteEffects inv done doc forgetFirst else [])++
        onPath p (sendLoop inv total (done+1) docs).1 := by
  have hs : onPath p (if (done+1)%10 = 0 then [Effect.save] else []) = [] := by
    split_ifs <;> rfl
  have hn : onPath p (Effect.status done total::noteEffects inv done doc forgetFirst) =
      if doc.externalId = p then noteEffects inv done doc forgetFirst else [] := by
    rw [onPath, List.filter_cons_of_neg (by simp [Effect.path]), ← onPath,
      onPath_all p _ _ (noteEffects_path inv done doc forgetFirst)]
  rw [sendLoop]
  by_cases hc : inv.cancelled done 0 = true
  · rw [if_pos hc, if_pos hc]
    rfl
  · rw [if_neg hc, if_neg hc, onPath_append, onPath_append, hs, hn, List.append_nil]

theorem onPath_sendLoop_other (inv : Invocation) (total done : ℕ)
    (docs : List (BatchDocument × Bool)) (p : String)
    (hp : p ∉ docs.map (fun d => d.1.externalId)) :
    onPath p (sendLoop inv total done docs).1 = [] := by
  induction docs generalizing done with
  | nil => rfl
  | cons d docs ih =>
    obtain ⟨doc, forgetFirst⟩ := d
    simp only [List.map_cons, List.mem_cons, not_or] at hp
    rw [onPath_sendLoop_cons, if_neg (Ne.symm hp.1), ih _ hp.2]
    split_ifs <;> rfl

theorem onPath_sendLoop_note (inv : Invocation) (total done i : ℕ)
    (docs : List (BatchDocument × Bool)) (hn : (docs.map (fun d => d.1.externalId)).Nodup)
    (doc : BatchDocument) (forgetFirst : Bool) (hi : docs[i]? = some (doc,forgetFirst)) :
    onPath doc.externalId (sendLoop inv total done docs).1 =
      if inv.cancelled (done+i) 0 then [] else noteEffects inv (done+i) doc forgetFirst := by
  induction docs generalizing done i with
  | nil => simp at hi
  | cons d docs ih =>
    obtain ⟨d, ff⟩ := d
    obtain ⟨hd, hn⟩ := List.nodup_cons.mp hn
    rw [onPath_sendLoop_cons]
    cases i with
    | zero =>
      cases hi
      rw [if_pos rfl, onPath_sendLoop_other _ _ _ _ _ hd, List.append_nil, Nat.add_zero]
    | succ i =>
      have hmem : doc.externalId ∈ docs.map (fun d => d.1.externalId) :=
        List.mem_map.mpr ⟨_,List.mem_of_getElem? hi,rfl⟩
      have hne : d.externalId ≠ doc.externalId := fun h => hd (by simpa [h] using hmem)
      rw [if_neg hne, List.nil_append, ih (done+1) i hn hi, Nat.add_right_comm, Nat.add_assoc]
      split_ifs with hc hc' <;> try rfl
      exact absurd (cancelled_mono inv done 0 (done+(i+1)) 0 (Or.inl (by omega)) hc) hc'

theorem get_forgetAbsent (c : Codec Entries) (inv : Invocation) (w : World) (file : TFile)
    (hf : file ∈ eligible inv.settings inv.vault) :
    (applyEffects c (forgetAbsent inv w.store) w).store.get file.path = w.store.get file.path := by
  have hp : file.path ∈ present inv := List.mem_map_of_mem hf
  have hcell := cell_applyEffects c (forgetAbsent inv w.store) w file.path
  rw [onPath_forgetAbsent, if_neg (by simp [hp])] at hcell
  exact congrArg Cell.entry hcell

def toSend (hash : Text → String) (inv : Invocation) (s : HashStore) :
    Except String (List (BatchDocument × Bool)) :=
  documents hash inv s (eligible inv.settings inv.vault)

theorem fullIndex_eq (c : Codec Entries) (hash : Text → String) (inv : Invocation) (w : World) :
    fullIndex c hash inv w =
      if !inv.client then ([],false) else
      match toSend hash inv w.store with
      | .error _ => (forgetAbsent inv w.store,false)
      | .ok [] => (forgetAbsent inv w.store,true)
      | .ok docs => (forgetAbsent inv w.store++(sendLoop inv docs.length 0 docs).1++[.save],
          !(sendLoop inv docs.length 0 docs).2) := by
  have hd : documents hash inv (applyEffects c (forgetAbsent inv w.store) w).store
      (eligible inv.settings inv.vault) = toSend hash inv w.store :=
    documents_congr hash inv inv _ _ _ rfl rfl (get_forgetAbsent c inv w)
  rcases h : toSend hash inv w.store with m | _ | ⟨d, docs⟩ <;> simp only [fullIndex, hd, h]

theorem toSend_nodup (hash : Text → String) (inv : Invocation) (s : HashStore)
    (docs : List (BatchDocument × Bool)) (h : toSend hash inv s = .ok docs) :
    (docs.map (fun d => d.1.externalId)).Nodup :=
  (eligible_nodup inv.settings inv.vault).sublist (documents_sublist hash inv s _ docs h)

theorem toSend_present (hash : Text → String) (inv : Invocation) (s : HashStore)
    (docs : List (BatchDocument × Bool)) (h : toSend hash inv s = .ok docs)
    (d : BatchDocument × Bool) (hd : d ∈ docs) : d.1.externalId ∈ present inv :=
  (documents_sublist hash inv s _ docs h).subset (List.mem_map_of_mem hd)

theorem onPath_fullIndex (c : Codec Entries) (hash : Text → String) (inv : Invocation) (w : World)
    (docs : List (BatchDocument × Bool)) (hc : inv.client = true)
    (hd : toSend hash inv w.store = .ok docs) (p : String) :
    onPath p (fullIndex c hash inv w).1 =
      onPath p (forgetAbsent inv w.store)++onPath p (sendLoop inv docs.length 0 docs).1 := by
  rw [fullIndex_eq, hc, hd]
  cases docs with
  | nil => simp [sendLoop, onPath]
  | cons d docs =>
    simp only [Bool.not_true, Bool.false_eq_true, if_false]
    rw [onPath_append, onPath_append]
    simp [onPath, Effect.path]

theorem onPath_note (c : Codec Entries) (hash : Text → String) (inv : Invocation) (w : World)
    (docs : List (BatchDocument × Bool)) (hc : inv.client = true)
    (hd : toSend hash inv w.store = .ok docs) (i : ℕ) (doc : BatchDocument) (forgetFirst : Bool)
    (hi : docs[i]? = some (doc,forgetFirst)) :
    onPath doc.externalId (fullIndex c hash inv w).1 =
      if inv.cancelled i 0 then [] else noteEffects inv i doc forgetFirst := by
  have hpres := toSend_present hash inv w.store docs hd _ (List.mem_of_getElem? hi)
  rw [onPath_fullIndex c hash inv w docs hc hd, onPath_forgetAbsent, if_neg (by simp [hpres]),
    List.nil_append, onPath_sendLoop_note _ _ _ i docs (toSend_nodup hash inv w.store docs hd) doc
      forgetFirst hi, Nat.zero_add]

/-- A call that got past reading the notes treats every path in one of three
ways: an absent tracked path is forgotten, a note to send is sent unless the
stop comes first, and any other path is left alone. -/
theorem onPath_cases (c : Codec Entries) (hash : Text → String) (inv : Invocation) (w : World)
    (docs : List (BatchDocument × Bool)) (hc : inv.client = true)
    (hd : toSend hash inv w.store = .ok docs) (p : String) :
    ((w.store.get p).isSome ∧ p ∉ present inv ∧
      onPath p (fullIndex c hash inv w).1 = [.forget p (inv.forget p),.delete p]) ∨
    (∃ i doc forgetFirst, docs[i]? = some (doc,forgetFirst) ∧ doc.externalId = p ∧
      onPath p (fullIndex c hash inv w).1 =
        if inv.cancelled i 0 then [] else noteEffects inv i doc forgetFirst) ∨
    (((w.store.get p).isSome → p ∈ present inv) ∧ p ∉ docs.map (fun d => d.1.externalId) ∧
      onPath p (fullIndex c hash inv w).1 = []) := by
  by_cases hp : p ∈ docs.map (fun d => d.1.externalId)
  · obtain ⟨⟨doc, forgetFirst⟩, hmem, rfl⟩ := List.mem_map.mp hp
    obtain ⟨i, hi⟩ := List.mem_iff_getElem?.mp hmem
    exact Or.inr (Or.inl ⟨i,doc,forgetFirst,hi,rfl,
      onPath_note c hash inv w docs hc hd i doc forgetFirst hi⟩)
  · rw [onPath_fullIndex c hash inv w docs hc hd, onPath_forgetAbsent,
      onPath_sendLoop_other _ _ _ _ _ hp, List.append_nil]
    by_cases ht : (w.store.get p).isSome ∧ p ∉ present inv
    · exact Or.inl ⟨ht.1,ht.2,if_pos ht⟩
    · exact Or.inr (Or.inr ⟨fun h => by_contra fun hn => ht ⟨h,hn⟩,hp,if_neg ht⟩)

theorem cell_afterFullIndex (c : Codec Entries) (hash : Text → String) (inv : Invocation)
    (w : World) (p : String) :
    (afterFullIndex c hash inv w).cell p =
      runCell (onPath p (fullIndex c hash inv w).1) (w.cell p) :=
  cell_applyEffects c _ w p

end Uru.Indexing
