import Uru.Lib.Machine
import Uru.Indexing.PathEffects

/-!
# The hash gate

An entry of the store lets later runs skip its note, so it must stand for a
document the backend holds. A forced run may break this: it drops the old
document of an unchanged note before sending it again, and leaves the entry
in place when no attempt succeeds.
-/

set_option autoImplicit false

namespace Uru.Indexing
open Uru.Lib Uru.Lib.Machine

def GateAt (hash : Text → String) (x : Cell) : Prop :=
  ∀ e, x.entry = some e → ∃ t, x.doc = some t ∧ hash t = e.hash

def GateSound (hash : Text → String) (w : World) : Prop := ∀ p, GateAt hash (w.cell p)

/-- A forced run drops the document of an unchanged note, and then no attempt
to send it succeeds before the retries run out or the user stops. -/
def LostForget (hash : Text → String) (w : World) (inv : Invocation) : Prop :=
  inv.client = true ∧ ∃ docs i doc, toSend hash inv w.store = .ok docs ∧
    docs[i]? = some (doc,true) ∧ inv.cancelled i 1 = false ∧
    inv.forget doc.externalId = true ∧ AllRefused inv i doc.externalId

def nextRun (c : Codec Entries) (hash : Text → String) (w : World) (inv : Invocation) :
    Option World :=
  some (afterFullIndex c hash inv w)

theorem gate_removed (hash : Text → String) (doc : Option Text) : GateAt hash ⟨none,doc⟩ := by
  intro e he
  cases he

theorem gate_forgetAbsent (hash : Text → String) (inv : Invocation) (s : HashStore) (p : String)
    (x : Cell) (hx : GateAt hash x) : GateAt hash (runCell (onPath p (forgetAbsent inv s)) x) := by
  rw [onPath_forgetAbsent]
  split_ifs
  · exact gate_removed hash _
  · exact hx

theorem gate_noteEffects (hash : Text → String) (inv : Invocation) (i : ℕ) (doc : BatchDocument)
    (forgetFirst : Bool) (x : Cell) (hx : GateAt hash x) (hh : doc.hash = hash doc.content)
    (hl : dropped inv i doc.externalId forgetFirst = true → ¬ AllRefused inv i doc.externalId) :
    GateAt hash (runCell (noteEffects inv i doc forgetFirst) x) := by
  rw [runCell_noteEffects]
  cases hs : (rememberWithRetry inv i doc forgetFirst).2 with
  | some id =>
    intro e he
    cases he
    exact ⟨doc.content,rfl,hh.symm⟩
  | none =>
    have hr := (rememberWithRetry_none inv i doc forgetFirst).mp hs
    rw [if_neg (fun hd => hl hd hr)]
    exact hx

theorem toSend_hash (hash : Text → String) (inv : Invocation) (s : HashStore)
    (docs : List (BatchDocument × Bool)) (hd : toSend hash inv s = .ok docs) (doc : BatchDocument)
    (forgetFirst : Bool) (hmem : (doc,forgetFirst) ∈ docs) : doc.hash = hash doc.content := by
  obtain ⟨⟨file, _, hfile⟩, _⟩ := (mem_documents hash inv s _ docs hd doc forgetFirst).mp hmem
  exact (toDocument_some hash _ file doc hfile).2.1

theorem gate_step (c : Codec Entries) (hash : Text → String) (w : World) (inv : Invocation)
    (hw : GateSound hash w) (hl : ¬ LostForget hash w inv) :
    GateSound hash (afterFullIndex c hash inv w) := by
  intro p
  rw [cell_afterFullIndex]
  by_cases hc : inv.client = true
  · cases hd : toSend hash inv w.store with
    | error m =>
      rw [fullIndex_eq, hc, hd]
      exact gate_forgetAbsent hash inv _ p _ (hw p)
    | ok docs =>
      rcases onPath_cases c hash inv w docs hc hd p with
        ⟨_, _, he⟩ | ⟨i, doc, forgetFirst, hi, rfl, he⟩ | ⟨_, _, he⟩ <;> rw [he]
      · exact gate_removed hash _
      · split_ifs
        · exact hw _
        · have hmem := List.mem_of_getElem? hi
          refine gate_noteEffects hash inv i doc forgetFirst _ (hw _)
            (toSend_hash hash inv _ docs hd doc forgetFirst hmem) (fun hdrop hr => ?_)
          simp only [dropped, Bool.and_eq_true, Bool.not_eq_true'] at hdrop
          obtain ⟨⟨rfl, h1⟩, hf⟩ := hdrop
          exact hl ⟨hc,docs,i,doc,hd,hi,h1,hf,hr⟩
      · exact hw p
  · rw [fullIndex_eq]
    simpa [hc, onPath] using hw p

/-- After a lost forget the entry stays and the document is gone. -/
theorem cell_lost (c : Codec Entries) (hash : Text → String) (w : World) (inv : Invocation)
    (hl : LostForget hash w inv) : ∃ file doc e, file ∈ eligible inv.settings inv.vault ∧
      toDocument hash inv.settings file = .ok (some doc) ∧
      (afterFullIndex c hash inv w).cell doc.externalId = ⟨some e,none⟩ ∧ e.hash = doc.hash := by
  obtain ⟨hc, docs, i, doc, hd, hi, h1, hf, hr⟩ := hl
  obtain ⟨⟨file, hfile, hdoc⟩, hsame, _⟩ :=
    (mem_documents hash inv w.store _ docs hd doc true).mp (List.mem_of_getElem? hi)
  obtain ⟨e, he, heh⟩ := (HashStore.isUnchanged_iff w.store _ _).mp hsame.symm
  have h0 : inv.cancelled i 0 = false := by
    by_contra hn
    have := cancelled_mono inv i 0 i 1 (Or.inr ⟨rfl,by omega⟩) (by simpa using hn)
    simp [h1] at this
  refine ⟨file,doc,e,hfile,hdoc,?_,heh⟩
  rw [cell_afterFullIndex, onPath_note c hash inv w docs hc hd i doc true hi, h0,
    if_neg (by simp), runCell_noteEffects, (rememberWithRetry_none _ _ _ _).mpr hr]
  simp [World.cell, he, dropped, h1, hf]

theorem gate_lost (c : Codec Entries) (hash : Text → String) (w : World) (inv : Invocation)
    (hl : LostForget hash w inv) : ¬ GateSound hash (afterFullIndex c hash inv w) := by
  obtain ⟨_, doc, e, _, _, hcell, _⟩ := cell_lost c hash w inv hl
  intro hg
  have hdoc := hg doc.externalId
  rw [hcell] at hdoc
  obtain ⟨t, ht, _⟩ := hdoc e rfl
  cases ht

/-- Between non-overlapping runs every entry is backed by the backend if and
only if no run lost a forget on the way. -/
theorem hash_gate_sound (c : Codec Entries) (hash : Text → String) (w : World)
    (hw : GateSound hash w) (runs : List Invocation) :
    Always (nextRun c hash) (GateSound hash) w runs ↔
      Meets (nextRun c hash) (fun w inv => ¬ LostForget hash w inv) w runs := by
  refine @always_iff_meets _ _ _ _ (GateSound hash) _ ?_ (fun _ h => h) ?_ runs w hw
  · intro s inv t hs hok ht
    cases ht
    exact gate_step c hash s inv hs hok
  · intro s inv hs hbad
    exact ⟨_,rfl,gate_lost c hash s inv (not_not.mp hbad)⟩

def emptyWorld : World := ⟨⟨∅,true⟩,fun _ => none,⟨none,none,true⟩⟩

def oneNote : Vault := ⟨[⟨"a.md","a",0,.ok "alpha".toList⟩],by decide⟩

def oneNoteRun (force answered : Bool) : Invocation where
  client := true
  vault := oneNote
  settings := ⟨false,[]⟩
  force := force
  forget := fun _ => true
  remember := fun _ _ => if answered then some "d1" else none
  now := fun _ => 0
  stop := none

theorem hash_gate_sound_answered :
    Always (nextRun stateFile String.ofList) (GateSound String.ofList) emptyWorld
      [oneNoteRun false true,oneNoteRun true true] := by
  refine (hash_gate_sound stateFile String.ofList emptyWorld ?_ _).mpr ?_
  · intro p e he
    cases he
  · have hok : ∀ w force, ¬ LostForget String.ofList w (oneNoteRun force true) := by
      rintro w force ⟨_, docs, i, doc, _, _, _, _, hr⟩
      have := hr 0 (by simp) rfl
      simp [oneNoteRun] at this
    exact ⟨hok _ _,fun t _ => ⟨hok _ _,fun u _ => trivial⟩⟩

/-- The note is indexed, then a forced run drops its document and every
attempt to send it again is refused. -/
theorem forced_run_loses_note :
    ¬ Always (nextRun stateFile String.ofList) (GateSound String.ofList) emptyWorld
      [oneNoteRun false true,oneNoteRun true false] := by
  intro h
  have hlast : GateSound String.ofList _ := (h.2 _ rfl).2 _ rfl
  obtain ⟨t, ht, _⟩ := hlast "a.md" ⟨"alpha","d1",0⟩ (by decide)
  have hnone : (afterFullIndex stateFile String.ofList (oneNoteRun true false)
      (afterFullIndex stateFile String.ofList (oneNoteRun false true) emptyWorld)).backend "a.md" =
        none := by decide
  exact absurd (hnone.symm.trans ht) (by simp)

end Uru.Indexing
