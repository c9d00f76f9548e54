import Uru.Dream.PendingMirror

/-!
# What the rows of the runs hold

Every access of the run store is read through one question: whether the row of
a run holds an entry. Entries are told apart by run and position; a position
is queued at most once, and never behind the checkpoint of its run.
-/

set_option autoImplicit false

namespace Uru.Dream.Pending

open Uru.Storage Uru.Lib

variable {runs : List RunRow} {runId runId' : UUID} {opSeq : ℕ} {n : ℤ} {P : ℤ → Prop}
variable {entry : GraphMirrorPending} {q : UUID × GraphMirrorPending}

section Holds

def Holds (runs : List RunRow) (q : UUID × GraphMirrorPending) : Prop :=
  ∃ r ∈ runs, r.runId = q.1 ∧ q.2 ∈ r.graphMirrorPending

theorem holds_update {f : RunRow → RunRow} (hf : ∀ r, (f r).runId = r.runId) :
    Holds (updateRun runId f runs) q ↔
      ∃ r ∈ runs, r.runId = q.1 ∧
        q.2 ∈ if r.runId = runId then (f r).graphMirrorPending
          else r.graphMirrorPending := by
  simp only [Holds, updateRun, List.mem_map]
  constructor
  · rintro ⟨_, ⟨r, hr, rfl⟩, hid, hp⟩
    refine ⟨r, hr, ?_, ?_⟩
    · by_cases h : r.runId = runId
      · rw [if_pos h, hf] at hid
        exact hid
      · rw [if_neg h] at hid
        exact hid
    · split_ifs at hp ⊢ with h
      · exact hp
      · exact hp
  · rintro ⟨r, hr, hid, hp⟩
    refine ⟨_, ⟨r, hr, rfl⟩, ?_, ?_⟩
    · split_ifs with h
      · rw [hf, hid]
      · exact hid
    · split_ifs at hp ⊢ with h
      · exact hp
      · exact hp

theorem mem_mergePending {existing : List GraphMirrorPending} {p : GraphMirrorPending} :
    p ∈ mergePending existing entry ↔ (p ∈ existing ∧ p.opSeq ≠ entry.opSeq) ∨ p = entry := by
  rw [mergePending, (List.perm_insertionSort _ _).mem_iff]
  simp

theorem holds_recordRun : Holds (recordRun runId runs) q ↔ Holds runs q := by
  simp [Holds, recordRun, or_and_right, exists_or]

theorem holds_advance : Holds (advanceCheckpoint runId opSeq runs) q ↔ Holds runs q := by
  rw [advanceCheckpoint, holds_update (f := setCheckpoint opSeq) (fun _ => rfl)]
  simp [Holds, setCheckpoint]

theorem holds_clear : Holds (clearGraphMirrorPending runId opSeq runs) q ↔
    Holds runs q ∧ ¬ (q.1 = runId ∧ q.2.opSeq = opSeq) := by
  rw [clearGraphMirrorPending, holds_update (f := dropPending opSeq) (fun _ => rfl)]
  constructor
  · rintro ⟨r, hr, hid, hp⟩
    split_ifs at hp with h
    · obtain ⟨hmem, hne⟩ := List.mem_filter.mp hp
      exact ⟨⟨r, hr, hid, hmem⟩, fun hq => of_decide_eq_true hne hq.2⟩
    · exact ⟨⟨r, hr, hid, hp⟩, fun hq => h (hid.trans hq.1)⟩
  · rintro ⟨⟨r, hr, hid, hp⟩, hne⟩
    refine ⟨r, hr, hid, ?_⟩
    split_ifs with h
    · exact List.mem_filter.mpr ⟨hp, decide_eq_true (fun hs => hne ⟨hid.symm.trans h, hs⟩)⟩
    · exact hp

theorem holds_mark : Holds (markGraphMirrorPending runId entry runs) q ↔
    (Holds runs q ∧ ¬ (q.1 = runId ∧ q.2.opSeq = entry.opSeq)) ∨
      (hasRow runId runs = true ∧ q = (runId, entry)) := by
  rw [markGraphMirrorPending, holds_update (f := addPending entry) (fun _ => rfl)]
  constructor
  · rintro ⟨r, hr, hid, hp⟩
    split_ifs at hp with h
    · rcases mem_mergePending.mp hp with ⟨hmem, hne⟩ | hnew
      · exact Or.inl ⟨⟨r, hr, hid, hmem⟩, fun hq => hne hq.2⟩
      · refine Or.inr ⟨List.any_eq_true.mpr ⟨r, hr, decide_eq_true h⟩, ?_⟩
        exact Prod.ext (hid.symm.trans h) hnew
    · exact Or.inl ⟨⟨r, hr, hid, hp⟩, fun hq => h (hid.trans hq.1)⟩
  · rintro (⟨⟨r, hr, hid, hp⟩, hne⟩ | ⟨hrow, rfl⟩)
    · refine ⟨r, hr, hid, ?_⟩
      split_ifs with h
      · exact mem_mergePending.mpr (Or.inl ⟨hp, fun hs => hne ⟨hid.symm.trans h, hs⟩⟩)
      · exact hp
    · obtain ⟨r, hr, hid⟩ := List.any_eq_true.mp hrow
      have hid := of_decide_eq_true hid
      exact ⟨r, hr, hid, by rw [if_pos hid]; exact mem_mergePending.mpr (Or.inr rfl)⟩

theorem hasRow_update {f : RunRow → RunRow} (hf : ∀ r, (f r).runId = r.runId) :
    hasRow runId' (updateRun runId f runs) = hasRow runId' runs := by
  rw [hasRow, hasRow, updateRun, List.any_map]
  congr 1
  funext r
  rw [Function.comp_apply]
  split_ifs
  · rw [hf]
  · rfl

theorem mem_open_pending : q ∈ getOpenGraphMirrorPending runs ↔ Holds runs q := by
  simp only [getOpenGraphMirrorPending, List.mem_flatMap, List.mem_map, Holds]
  constructor
  · rintro ⟨r, hr, p, hp, rfl⟩
    exact ⟨r, hr, rfl, hp⟩
  · rintro ⟨r, hr, hid, hp⟩
    exact ⟨r, hr, q.2, hp, Prod.ext hid rfl⟩

end Holds

section Positions

def Checkpoint (runs : List RunRow) (runId : UUID) (P : ℤ → Prop) : Prop :=
  ∀ r ∈ runs, r.runId = runId → P r.lastCommittedOpSeq

/-- Runs have one row each, entries lie within the checkpoint of their run, and
no position is queued for two operations. -/
structure RowsOk (runs : List RunRow) : Prop where
  keys : (runs.map RunRow.runId).Nodup
  within : ∀ r ∈ runs, ∀ p ∈ r.graphMirrorPending, (p.opSeq:ℤ) ≤ r.lastCommittedOpSeq
  distinct : ∀ q q', Holds runs q → Holds runs q' → q.1 = q'.1 → q.2.opSeq = q'.2.opSeq →
    q = q'

theorem RowsOk.entry_within (h : RowsOk runs) (hq : Holds runs q) (hn : Checkpoint runs q.1 (· ≤ n)) :
    (q.2.opSeq:ℤ) ≤ n := by
  obtain ⟨r, hr, hid, hp⟩ := hq
  exact (h.within r hr _ hp).trans (hn r hr hid)

theorem update_keys {f : RunRow → RunRow} (hf : ∀ r, (f r).runId = r.runId) :
    (updateRun runId f runs).map RunRow.runId = runs.map RunRow.runId := by
  rw [updateRun, List.map_map]
  refine List.map_congr_left (fun r _ => ?_)
  rw [Function.comp_apply]
  split_ifs
  · exact hf r
  · rfl

theorem read_checkpoint (h : RowsOk runs) :
    Checkpoint runs runId (· ≤ readLastCommitted runId runs) := by
  intro r hr hid
  cases hf : runs.find? (fun r => r.runId = runId) with
  | none => exact absurd hid (by simpa using List.find?_eq_none.mp hf r hr)
  | some x =>
    have hx : x.runId = runId := by simpa using List.find?_some hf
    have hrx : r = x :=
      List.inj_on_of_nodup_map h.keys hr (List.mem_of_find?_eq_some hf) (hid.trans hx.symm)
    simp [readLastCommitted, hf, hrx]

theorem rows_ok_record (h : RowsOk runs) (hnew : hasRow runId runs = false) :
    RowsOk (recordRun runId runs) where
  keys := by
    rw [recordRun, List.map_append, List.nodup_append]
    refine ⟨h.keys, List.nodup_singleton _, ?_⟩
    rintro x hx y hy rfl
    obtain ⟨r, hr, hid⟩ := List.mem_map.mp hx
    have hrun : r.runId = runId := hid.trans (by simpa using hy)
    exact absurd (decide_eq_true hrun) (List.any_eq_false.mp hnew r hr)
  within := by
    intro r hr p hp
    rcases List.mem_append.mp hr with hold | hlast
    · exact h.within r hold p hp
    · rw [List.mem_singleton.mp hlast] at hp
      cases hp
  distinct := fun q q' hq hq' =>
    h.distinct q q' (holds_recordRun.mp hq) (holds_recordRun.mp hq')

theorem rows_ok_advance (h : RowsOk runs) (hn : Checkpoint runs runId (· ≤ n)) (hlt : n < opSeq) :
    RowsOk (advanceCheckpoint runId opSeq runs) where
  keys := by
    rw [advanceCheckpoint, update_keys (f := setCheckpoint opSeq) (fun _ => rfl)]
    exact h.keys
  within := by
    intro r hr p hp
    obtain ⟨x, hx, rfl⟩ := List.mem_map.mp hr
    split_ifs at hp ⊢ with hid
    · exact (h.within x hx p hp).trans ((hn x hx hid).trans hlt.le)
    · exact h.within x hx p hp
  distinct := fun q q' hq hq' => h.distinct q q' (holds_advance.mp hq) (holds_advance.mp hq')

theorem checkpoint_advance :
    Checkpoint (advanceCheckpoint runId opSeq runs) runId (· = opSeq) := by
  intro r hr hid
  obtain ⟨x, hx, rfl⟩ := List.mem_map.mp hr
  split_ifs at hid ⊢ with h
  · rfl
  · exact absurd hid h

/-- Queueing and clearing leave the checkpoints alone. -/
theorem checkpoint_update {f : RunRow → RunRow} (hid : ∀ r, (f r).runId = r.runId)
    (hlast : ∀ r, (f r).lastCommittedOpSeq = r.lastCommittedOpSeq)
    (h : Checkpoint runs runId' P) : Checkpoint (updateRun runId f runs) runId' P := by
  intro r hr hr'
  obtain ⟨x, hx, rfl⟩ := List.mem_map.mp hr
  split_ifs at hr' ⊢
  · rw [hlast]
    exact h x hx ((hid x).symm.trans hr')
  · exact h x hx hr'

theorem checkpoint_mark (h : Checkpoint runs runId' P) :
    Checkpoint (markGraphMirrorPending runId entry runs) runId' P :=
  checkpoint_update (fun _ => rfl) (fun _ => rfl) h

theorem checkpoint_clear (h : Checkpoint runs runId' P) :
    Checkpoint (clearGraphMirrorPending runId opSeq runs) runId' P :=
  checkpoint_update (fun _ => rfl) (fun _ => rfl) h

theorem rows_ok_clear (h : RowsOk runs) : RowsOk (clearGraphMirrorPending runId opSeq runs) where
  keys := by
    rw [clearGraphMirrorPending, update_keys (f := dropPending opSeq) (fun _ => rfl)]
    exact h.keys
  within := by
    intro r hr p hp
    obtain ⟨x, hx, rfl⟩ := List.mem_map.mp hr
    split_ifs at hp ⊢ with hid
    · exact h.within x hx p (List.mem_filter.mp hp).1
    · exact h.within x hx p hp
  distinct := fun q q' hq hq' => h.distinct q q' (holds_clear.mp hq).1 (holds_clear.mp hq').1

theorem rows_ok_mark (h : RowsOk runs)
    (hat : Checkpoint runs runId (· = entry.opSeq)) :
    RowsOk (markGraphMirrorPending runId entry runs) where
  keys := by
    rw [markGraphMirrorPending, update_keys (f := addPending entry) (fun _ => rfl)]
    exact h.keys
  within := by
    intro r hr p hp
    obtain ⟨x, hx, rfl⟩ := List.mem_map.mp hr
    split_ifs at hp ⊢ with hid
    · rcases mem_mergePending.mp hp with ⟨hmem, -⟩ | rfl
      · exact h.within x hx p hmem
      · exact (hat x hx hid).ge
    · exact h.within x hx p hp
  distinct := by
    intro q q' hq hq' hrun hseq
    rcases holds_mark.mp hq with ⟨hold, hne⟩ | ⟨-, rfl⟩
    · rcases holds_mark.mp hq' with ⟨hold', -⟩ | ⟨-, rfl⟩
      · exact h.distinct q q' hold hold' hrun hseq
      · exact absurd ⟨hrun, hseq⟩ hne
    · rcases holds_mark.mp hq' with ⟨-, hne'⟩ | ⟨-, rfl⟩
      · exact absurd ⟨hrun.symm, hseq.symm⟩ hne'
      · rfl

end Positions

end Uru.Dream.Pending
