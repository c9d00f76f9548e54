import Uru.Indexing.CompletedRun

/-!
# Interruption and resume

A run is interrupted by the user's stop, by a crash after any of its effects,
or by a crash inside a save. Resume loads the state file and runs without
force. The cut run has done a prefix of the effects on each path, the loaded
store an earlier prefix, and the resumed run starts from the two.
-/

set_option autoImplicit false

namespace Uru.Indexing
open Uru.Lib Uru.Lib.AtomicFile

/-- The crash falls after `effects` effects of the run. If the next one is a
save, `calls` of its file-system calls were made and `kept` characters of an
unsynced write survive. -/
structure Crash where
  effects : ℕ
  calls : ℕ
  kept : ℕ

def cutEffects (es : List Effect) : Option Crash → List Effect
  | none => es
  | some crash => es.take crash.effects

def cutDisk (c : Codec Entries) (es : List Effect) (w : World) : Option Crash → Disk
  | none => (applyEffects c es w).disk
  | some crash =>
    let w' := applyEffects c (es.take crash.effects) w
    if es[crash.effects]? = some .save ∧ w'.store.loaded = true then
      cutReplace (c.stringify w'.store.entries) crash.calls crash.kept w'.disk
    else w'.disk

/-- The world in which the resumed run starts: the state file is loaded and
the backend is as the cut run left it. -/
def reopened (c : Codec Entries) (es : List Effect) (crash : Option Crash) (w : World) : World :=
  let loaded := HashStore.load c (cutDisk c es w crash)
  ⟨loaded.1,(applyEffects c (cutEffects es crash) w).backend,loaded.2⟩

def answered (inv : Invocation) (force : Bool) (docId : String → ℕ → String) (now : ℕ → ℕ) :
    Invocation :=
  { inv with client := true, force := force, forget := fun _ => true,
             remember := fun p a => some (docId p a), now := now, stop := none }

def Loaded (c : Codec Entries) (s : HashStore) (d : Disk) : Prop := HashStore.load c d = (s,d)

theorem loaded_saved (c : Codec Entries) (s : HashStore) (d : Disk) (hl : s.loaded = true) :
    Loaded c s (s.save c d) := by
  rw [Loaded, HashStore.save_loaded c s d hl]
  cases s
  cases hl
  simp [HashStore.load, HashStore.readIfValid, FsCall.apply]

theorem loaded_clean (c : Codec Entries) (s : HashStore) (d : Disk) (h : Loaded c s d) :
    d.tmp = none ∧ d.synced = true ∧ s = ⟨(read c d.file).getD ∅,true⟩ := by
  have hd : FsCall.unlink.apply d = d := congrArg Prod.snd h
  have htmp : d.tmp = none := by rw [← hd]; rfl
  refine ⟨htmp,by rw [← hd]; rfl,?_⟩
  rw [← show (HashStore.load c d).1 = s from congrArg Prod.fst h]
  simp [HashStore.load, HashStore.readIfValid, htmp]

/-- At every point of a run the state file holds the store of an earlier
point, the initial one if nothing was saved. -/
theorem loaded_earlier (c : Codec Entries) (es : List Effect) (w : World) (s : HashStore)
    (hl : w.store.loaded = true) (h : Loaded c s w.disk) :
    ∃ s', Loaded c s' (applyEffects c es w).disk ∧
      (s' = s ∨ ∃ m, s' = (applyEffects c (es.take m) w).store) := by
  induction es generalizing w s with
  | nil => exact ⟨s,h,Or.inl rfl⟩
  | cons e es ih =>
    have hl' : (e.apply c w).store.loaded = true := (applyEffects_loaded c [e] w).trans hl
    rw [applyEffects_cons]
    by_cases he : e = .save
    · subst he
      obtain ⟨s', hs', rfl | ⟨m, rfl⟩⟩ := ih (Effect.save.apply c w) w.store hl'
        (loaded_saved c w.store w.disk hl)
      · exact ⟨_,hs',Or.inr ⟨0,rfl⟩⟩
      · exact ⟨_,hs',Or.inr ⟨m+1,rfl⟩⟩
    · have hd : (e.apply c w).disk = w.disk :=
        applyEffects_disk c [e] w (by simpa using Ne.symm he)
      obtain ⟨s', hs', rfl | ⟨m, rfl⟩⟩ := ih (e.apply c w) s hl' (hd ▸ h)
      · exact ⟨_,hs',Or.inl rfl⟩
      · exact ⟨_,hs',Or.inr ⟨m+1,rfl⟩⟩

/-- Whatever the cut, the next load gives the store of a point of the run
that the cut run had reached. -/
theorem reopened_store (c : Codec Entries) (es : List Effect) (w : World) (crash : Option Crash)
    (h : Loaded c w.store w.disk) :
    ∃ done, done <+: cutEffects es crash ∧
      (reopened c es crash w).store = (applyEffects c done w).store := by
  have hl : w.store.loaded = true := by
    rw [(loaded_clean c _ _ h).2.2]
  obtain ⟨s, hs, hcase⟩ := loaded_earlier c (cutEffects es crash) w w.store hl h
  have hearlier : ∃ done, done <+: cutEffects es crash ∧ s = (applyEffects c done w).store := by
    rcases hcase with rfl | ⟨m, rfl⟩
    · exact ⟨[],List.nil_prefix,rfl⟩
    · exact ⟨_,List.take_prefix m _,rfl⟩
  cases crash with
  | none =>
    obtain ⟨done, hp, rfl⟩ := hearlier
    exact ⟨done,hp,congrArg Prod.fst hs⟩
  | some crash =>
    by_cases hsave : es[crash.effects]? = some .save ∧
        (applyEffects c (es.take crash.effects) w).store.loaded = true
    · obtain ⟨htmp, hsync, hstore⟩ := loaded_clean c s _ hs
      have hre : (reopened c es (some crash) w).store =
          ⟨(recover c (cutReplace (c.stringify (applyEffects c (es.take crash.effects) w).store.entries)
            crash.calls crash.kept (applyEffects c (es.take crash.effects) w).disk)).getD ∅,true⟩ := by
        simp only [reopened, cutDisk, if_pos hsave]
        rfl
      rcases recover_cut c (applyEffects c (es.take crash.effects) w).store.entries crash.calls
          crash.kept (applyEffects c (es.take crash.effects) w).disk
          (by rw [show (applyEffects c (es.take crash.effects) w).disk.tmp = none from htmp]; rfl)
          hsync with hr | hr
      · obtain ⟨done, hp, hd⟩ := hearlier
        refine ⟨done,hp,?_⟩
        rw [hre, hr, ← hd, hstore]
        rfl
      · refine ⟨es.take crash.effects,List.prefix_refl _,?_⟩
        rw [hre, hr]
        have := hsave.2
        cases hst : (applyEffects c (es.take crash.effects) w).store with
        | mk entries loaded =>
          rw [hst] at this
          cases this
          rfl
    · obtain ⟨done, hp, rfl⟩ := hearlier
      refine ⟨done,hp,?_⟩
      simp only [reopened, cutDisk, if_neg hsave]
      exact congrArg Prod.fst hs

end Uru.Indexing
