import Uru.Lib.Machine
import Uru.Indexing.HashStore

/-!
# The state file across crashes

A crash may fall between any two file-system calls of a save or of a load and
loses the map in memory. The history records the last map that a completed
save wrote or a load read back, and the map of a save that a crash cut once
its bytes were durable. The next load must produce one of the two.
-/

set_option autoImplicit false

namespace Uru.Indexing.HashStoreCrash
open Uru.Lib Uru.Lib.AtomicFile Uru.Lib.Machine

structure History where
  current : Option Entries
  fsynced : Option Entries

structure State where
  disk : Disk
  store : HashStore
  hist : History

def init : State := ⟨⟨none,none,true⟩,HashStore.fresh,⟨none,none⟩⟩

inductive Event where
  | set (externalId : String) (entry : IndexEntry)
  | delete (externalId : String)
  | save
  | load
  | crash
  /-- The crash cuts the save after `calls` of its five file-system calls; of
  a write that was not yet durable the first `kept` characters survive. -/
  | crashInSave (calls kept : ℕ)
  | crashInLoad (unlinked : Bool)

/-- What a cut save leaves to be found: nothing new before it opened the
temporary file, its whole map once the bytes are durable, and the committed
map after the rename. -/
def cutHistory (text : Text) (m : Entries) (calls kept : ℕ) (h : History) : History :=
  if calls = 0 then h
  else if calls = 1 then ⟨h.current,none⟩
  else if calls = 2 then ⟨h.current,if kept < text.length then none else some m⟩
  else if calls < 5 then ⟨h.current,some m⟩
  else ⟨some m,none⟩

def step (c : Codec Entries) (s : State) : Event → Option State
  | .set p e => some { s with store := s.store.set p e }
  | .delete p => some { s with store := s.store.delete p }
  | .save => some (if s.store.loaded then
      { s with disk := s.store.save c s.disk, hist := ⟨some s.store.entries,none⟩ } else s)
  | .load =>
    let (store,disk) := HashStore.load c s.disk
    some ⟨disk,store,⟨(recover c s.disk).or s.hist.current,none⟩⟩
  | .crash => some { s with store := HashStore.fresh }
  | .crashInSave calls kept => some (if s.store.loaded then
      let text := c.stringify s.store.entries
      ⟨cutReplace text calls kept s.disk,HashStore.fresh,
        cutHistory text s.store.entries calls kept s.hist⟩
    else { s with store := HashStore.fresh })
  | .crashInLoad unlinked => some { s with
      disk := if unlinked then FsCall.unlink.apply s.disk else s.disk, store := HashStore.fresh }

def nextLoad (c : Codec Entries) (s : State) : Entries := (HashStore.load c s.disk).1.entries

/-- The next load gives the last map made available or the durable map of a
cut save, and never loses a non-empty map that was available. -/
def NextLoadOk (c : Codec Entries) (s : State) : Prop :=
  (some (nextLoad c s) = s.hist.current ∨ some (nextLoad c s) = s.hist.fsynced ∨
    (s.hist.current = none ∧ s.hist.fsynced = none ∧ nextLoad c s = ∅)) ∧
  (∀ m, s.hist.current = some m → m ≠ ∅ → nextLoad c s = ∅ → s.hist.fsynced = some ∅)

def OnlyInTmp (c : Codec Entries) (d : Disk) : Prop :=
  read c d.file = none ∧ ∃ m, m ≠ ∅ ∧ read c d.tmp = some m

def Unlinks : Event → Prop
  | .load => True
  | .crashInLoad unlinked => unlinked = true
  | _ => False

def KeepsMap (c : Codec Entries) (s : State) (e : Event) : Prop :=
  Unlinks e → ¬ OnlyInTmp c s.disk

theorem nextLoad_eq (c : Codec Entries) (s : State) :
    nextLoad c s = (recover c s.disk).getD ∅ := rfl

/-- Either the state file holds the last map made available, or there never
was one but the empty map and a readable temporary file is a cut save's. -/
structure Inv (c : Codec Entries) (s : State) : Prop where
  synced : s.disk.synced = true
  cases : (∃ m, read c s.disk.file = some m ∧ s.hist.current = some m) ∨
    (s.disk.file = none ∧ (s.hist.current = none ∨ s.hist.current = some ∅) ∧
      (∀ m, read c s.disk.tmp = some m → s.hist.fsynced = some m) ∧
      (read c s.disk.tmp = none → s.hist.fsynced = none ∨ s.hist.fsynced = some ∅))

theorem inv_init (c : Codec Entries) : Inv c init :=
  ⟨rfl,Or.inr ⟨rfl,Or.inl rfl,by simp [init],fun _ => Or.inl rfl⟩⟩

theorem inv_nextLoad (c : Codec Entries) (s : State) (h : Inv c s) : NextLoadOk c s := by
  obtain ⟨_, ⟨m, hf, hc⟩ | ⟨hf, hc, hs, hn⟩⟩ := h
  · have hl : nextLoad c s = m := by rw [nextLoad_eq, recover, hf]; rfl
    refine ⟨Or.inl (by rw [hl, hc]), ?_⟩
    intro m' hm' hne he
    rw [hc, Option.some.injEq] at hm'
    exact absurd (hm' ▸ hl ▸ he) hne
  · have hl : nextLoad c s = (read c s.disk.tmp).getD ∅ := by
      rw [nextLoad_eq, recover, hf, read_none, Option.none_or]
    refine ⟨?_, ?_⟩
    · cases ht : read c s.disk.tmp with
      | some m =>
        rw [hl, ht, hs m ht]
        exact Or.inr (Or.inl rfl)
      | none =>
        rw [hl, ht]
        rcases hc with hc | hc <;> rcases hn ht with hn | hn <;> simp [hc, hn]
    · intro m hm hne
      rcases hc with hc | hc
      · rw [hc] at hm
        cases hm
      · rw [hc, Option.some.injEq] at hm
        exact absurd hm.symm hne

theorem inv_committed (c : Codec Entries) (m : Entries) (store : HashStore) :
    Inv c ⟨⟨some (c.stringify m),none,true⟩,store,⟨some m,none⟩⟩ :=
  ⟨rfl,Or.inl ⟨m,by simp,rfl⟩⟩

/-- A new temporary file is harmless when its readable content is the cut
save's and an unreadable one leaves nothing behind. -/
theorem inv_tmp (c : Codec Entries) (s : State) (h : Inv c s) (tmp : Option Text)
    (fsynced : Option Entries) (store : HashStore)
    (hs : ∀ m, read c tmp = some m → fsynced = some m)
    (hn : read c tmp = none → fsynced = none ∨ fsynced = some ∅) :
    Inv c ⟨⟨s.disk.file,tmp,true⟩,store,⟨s.hist.current,fsynced⟩⟩ := by
  obtain ⟨_, ⟨m, hf, hc⟩ | ⟨hf, hc, _, _⟩⟩ := h
  · exact ⟨rfl,Or.inl ⟨m,hf,hc⟩⟩
  · exact ⟨rfl,Or.inr ⟨hf,hc,hs,hn⟩⟩

theorem inv_store (c : Codec Entries) (s : State) (h : Inv c s) (store : HashStore) :
    Inv c { s with store := store } := ⟨h.synced,h.cases⟩

theorem inv_crashInSave (c : Codec Entries) (s : State) (h : Inv c s) (calls kept : ℕ) :
    Inv c ⟨cutReplace (c.stringify s.store.entries) calls kept s.disk,HashStore.fresh,
      cutHistory (c.stringify s.store.entries) s.store.entries calls kept s.hist⟩ := by
  rcases Nat.lt_or_ge calls 5 with hk | hk
  · interval_cases calls
    · rw [cut_none, crash, if_pos h.synced]
      exact inv_store c s h _
    · rw [cut_opened]
      exact inv_tmp c s h _ _ _ (by simp) (fun _ => Or.inl rfl)
    · rw [cut_written]
      refine inv_tmp c s h _ _ _ ?_ ?_ <;> rw [read_torn] <;> split_ifs <;> simp
    · rw [cut_synced _ _ _ _ (Or.inl rfl)]
      exact inv_tmp c s h _ _ _ (by simp) (by simp)
    · rw [cut_synced _ _ _ _ (Or.inr rfl)]
      exact inv_tmp c s h _ _ _ (by simp) (by simp)
  · rw [cut_renamed _ _ _ _ hk]
    have hh : cutHistory (c.stringify s.store.entries) s.store.entries calls kept s.hist =
        ⟨some s.store.entries,none⟩ := by
      simp only [cutHistory]
      rw [if_neg (by omega), if_neg (by omega), if_neg (by omega), if_neg (by omega)]
    rw [hh]
    exact inv_committed c _ _

/-- Outside the bad case, removing the temporary file loses nothing. -/
theorem unlink_cases (c : Codec Entries) (s : State) (h : Inv c s) (hk : ¬ OnlyInTmp c s.disk) :
    (∃ m, read c s.disk.file = some m ∧ s.hist.current = some m) ∨
    (s.disk.file = none ∧ (s.hist.current = none ∨ s.hist.current = some ∅) ∧
      (recover c s.disk = none ∨ recover c s.disk = some ∅) ∧
      (s.hist.fsynced = none ∨ s.hist.fsynced = some ∅)) := by
  obtain ⟨_, hcom | ⟨hf, hc, hs, hn⟩⟩ := h
  · exact Or.inl hcom
  · have hr : recover c s.disk = read c s.disk.tmp := by
      rw [recover, hf, read_none, Option.none_or]
    refine Or.inr ⟨hf,hc,?_⟩
    cases ht : read c s.disk.tmp with
    | none => exact ⟨Or.inl (hr.trans ht),hn ht⟩
    | some m =>
      have hm : m = ∅ := by
        by_contra hne
        exact hk ⟨by rw [hf, read_none],m,hne,ht⟩
      subst hm
      exact ⟨Or.inr (hr.trans ht),Or.inr (hs ∅ ht)⟩

theorem inv_load (c : Codec Entries) (s : State) (h : Inv c s) (hk : ¬ OnlyInTmp c s.disk)
    (store : HashStore) :
    Inv c ⟨FsCall.unlink.apply s.disk,store,⟨(recover c s.disk).or s.hist.current,none⟩⟩ := by
  rcases unlink_cases c s h hk with ⟨m, hf, hc⟩ | ⟨hf, hc, hr, _⟩
  · refine ⟨rfl,Or.inl ⟨m,hf,?_⟩⟩
    rw [recover, hf]
    rfl
  · refine ⟨rfl,Or.inr ⟨hf,?_,by simp [FsCall.apply],fun _ => Or.inl rfl⟩⟩
    rcases hr with hr | hr <;> rw [hr]
    · exact hc
    · exact Or.inr rfl

theorem inv_unlink (c : Codec Entries) (s : State) (h : Inv c s) (hk : ¬ OnlyInTmp c s.disk)
    (store : HashStore) : Inv c ⟨FsCall.unlink.apply s.disk,store,s.hist⟩ := by
  rcases unlink_cases c s h hk with ⟨m, hf, hc⟩ | ⟨hf, hc, _, hfs⟩
  · exact ⟨rfl,Or.inl ⟨m,hf,hc⟩⟩
  · exact ⟨rfl,Or.inr ⟨hf,hc,by simp [FsCall.apply],fun _ => hfs⟩⟩

theorem inv_step (c : Codec Entries) (s : State) (e : Event) (t : State) (h : Inv c s)
    (hk : KeepsMap c s e) (hst : step c s e = some t) : Inv c t := by
  cases e with
  | set p en => cases hst; exact inv_store c s h _
  | delete p => cases hst; exact inv_store c s h _
  | save =>
    simp only [step, Option.some.injEq] at hst
    subst hst
    split
    · rename_i hl
      rw [HashStore.save_loaded c _ _ hl]
      exact inv_committed c _ _
    · exact h
  | load => cases hst; exact inv_load c s h (hk trivial) _
  | crash => cases hst; exact inv_store c s h _
  | crashInSave calls kept =>
    simp only [step, Option.some.injEq] at hst
    subst hst
    split
    · exact inv_crashInSave c s h calls kept
    · exact inv_store c s h _
  | crashInLoad unlinked =>
    cases hst
    cases unlinked with
    | false => exact inv_store c s h _
    | true => exact inv_unlink c s h (hk rfl) _

/-- A load that takes a non-empty map from the temporary file alone has
removed its only durable copy. -/
theorem load_loses (c : Codec Entries) (s t : State) (h : OnlyInTmp c s.disk)
    (hst : step c s .load = some t) : ¬ NextLoadOk c t := by
  obtain ⟨hf, m, hne, ht⟩ := h
  cases hst
  have hr : recover c s.disk = some m := by rw [recover, hf, ht]; rfl
  have he : nextLoad c ⟨FsCall.unlink.apply s.disk,(HashStore.load c s.disk).1,
      ⟨(recover c s.disk).or s.hist.current,none⟩⟩ = ∅ := by
    rw [nextLoad_eq, recover]
    simp [FsCall.apply, hf]
  intro hok
  have := hok.2 m (by simp [hr]) hne he
  simp at this

/-- Across every sequence of operations and crashes the next load gives the
latest map, as long as no load removes the temporary file while it alone holds
a non-empty map; and every completed load that does so loses that map. -/
theorem latest_map_survives (c : Codec Entries) (es : List Event) :
    (Meets (step c) (KeepsMap c) init es → Always (step c) (NextLoadOk c) init es) ∧
    (∀ s t, run (step c) init es = some s → OnlyInTmp c s.disk →
      step c s .load = some t → ¬ NextLoadOk c t) :=
  ⟨always_of_invariant (inv_step c) (inv_nextLoad c) es init (inv_init c),
    fun s t _ h hst => load_loses c s t h hst⟩

theorem latest_map_survives_torn_save :
    Always (step stateFile) (NextLoadOk stateFile) init
      [.load,.set "a.md" ⟨"9f","d1",7⟩,.save,.delete "a.md",.crashInSave 2 1,.load] := by
  refine (latest_map_survives stateFile _).1 ?_
  simp [Meets, step, KeepsMap, Unlinks, OnlyInTmp, init, HashStore.fresh, HashStore.load,
    HashStore.readIfValid, HashStore.set, HashStore.delete, HashStore.save_loaded, recover,
    cut_written]

/-- The first save is cut between its `fsync` and its rename, the next load
reads the map back and unlinks the temporary file, and after one more crash
nothing is left of it. -/
theorem recovered_map_lost :
    (∃ s, run (step stateFile) init
        [.load,.set "a.md" ⟨"9f","d1",7⟩,.crashInSave 4 0,.load] = some s ∧
      s.store.entries = (∅ : Entries).set "a.md" ⟨"9f","d1",7⟩ ∧
      ∃ t, run (step stateFile) s [.crash,.load] = some t ∧ t.store.entries = ∅) ∧
    ¬ Always (step stateFile) (NextLoadOk stateFile) init
      [.load,.set "a.md" ⟨"9f","d1",7⟩,.crashInSave 4 0,.load] := by
  refine ⟨⟨_,rfl,by decide,_,rfl,by decide⟩,fun h => ?_⟩
  have hcut := ((h.2 _ rfl).2 _ rfl).2 _ rfl
  have hload : NextLoadOk stateFile _ := hcut.2 _ rfl
  refine load_loses stateFile _ _ ⟨rfl,(∅ : Entries).set "a.md" ⟨"9f","d1",7⟩,by decide,?_⟩ rfl hload
  exact stateFile.parse_stringify _

end Uru.Indexing.HashStoreCrash
