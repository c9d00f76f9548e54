import Uru.Dream.PendingRows

/-!
# Committed operations and their mirrors

An entry that the transaction queues stays until the graph has taken the whole
of it, and it rebuilds exactly what the undo record asked for. What is queued
depends on the kind of the operation: for a community the transaction queues
nothing, so between its commit and the graph write nothing remembers it.
-/

set_option autoImplicit false

namespace Uru.Dream.Pending

open Uru.Storage Uru.Lib

variable {sanitizeCypherLabel : String → String} {b : GraphBackend} {s t : Stores}
variable {c : CommittedOp} {opType : OpKind} {before : UndoBefore}

section RoundTrip

theorem depthOrOne_idem (depth : ℕ) : depthOrOne (depthOrOne depth) = depthOrOne depth := by
  unfold depthOrOne
  split <;> simp_all

/-- The pending entry rebuilds exactly the mirror of the operation. -/
theorem mirror_from_mirrorPayload (opType : OpKind) (undo : UndoRecord) :
    mirrorFromPayload (mirrorPayload opType undo) = mirrorOf opType undo.before := by
  have hdepth : (extractCommunityTargets opType undo.before).map
      (fun c => { c with summaryDepth := depthOrOne c.summaryDepth }) =
        extractCommunityTargets opType undo.before := by
    unfold extractCommunityTargets
    split
    · simp [depthOrOne_idem]
    · rfl
  simp only [mirrorFromPayload, communitiesFromPayload, mirrorPayload, hdepth, mirrorOf,
    targetsFromPayload]

theorem community_targets_empty (h : opType ≠ .communitySummary) :
    extractCommunityTargets opType before = [] := by
  unfold extractCommunityTargets
  split
  · exact absurd rfl h
  · rfl

/-- An operation that moves an edge also retires an entity. -/
theorem rewrites_need_retired (h : (undoTargets opType before).retireEntityIds = []) :
    (undoTargets opType before).rewriteRelationships = [] := by
  unfold undoTargets at h ⊢
  split at h
  · rfl
  · rfl
  · simp only [extractMirrorTargets, List.map_eq_nil_iff] at h ⊢
    simp [h]
  · rfl

theorem community_needs_no_rows (before : UndoBefore) (h : opType = .communitySummary) :
    (undoTargets opType before).retireEntityIds = [] ∧
      (undoTargets opType before).invalidateRelationshipIds = [] := by
  subst h
  exact ⟨rfl, rfl⟩

/-- The transaction queues the operations that have a mirror, communities
apart. -/
theorem preMarks_iff (h : NeedsMirror b c.opType c.undo.before) :
    preMarks b c = true ↔ c.opType ≠ .communitySummary := by
  obtain ⟨hm, hne⟩ := h
  constructor
  · intro hp hk
    obtain ⟨h1, h2⟩ := community_needs_no_rows c.undo.before hk
    simp [preMarks, h1, h2] at hp
  · intro hk
    by_contra hp
    simp only [preMarks, hm, Bool.true_and, Bool.not_eq_true', Bool.not_eq_false,
      Bool.and_eq_true, List.isEmpty_iff] at hp
    exact hne ⟨hp.1, hp.2, rewrites_need_retired hp.1, community_targets_empty hk⟩

/-- The backend that mirrors inside the transaction advertises operations that
only invalidate edges. -/
theorem age_invalidates_only (before : UndoBefore) (h : mirrors .age opType = true) :
    (mirrorOf opType before).targets.retireEntityIds = [] ∧
      (mirrorOf opType before).targets.rewriteRelationships = [] ∧
      (mirrorOf opType before).communities = [] := by
  have hk : opType = .pruneEdges ∨ opType = .contradictionReconcile := by
    cases opType <;> simp_all [mirrors, supportsDreamMirror]
  rcases hk with rfl | rfl
  · cases before with
    | rows r => cases r <;> exact ⟨rfl, rfl, rfl⟩
    | community _ => exact ⟨rfl, rfl, rfl⟩
    | renames => exact ⟨rfl, rfl, rfl⟩
  · cases before with
    | rows r => cases r <;> exact ⟨rfl, rfl, rfl⟩
    | community _ => exact ⟨rfl, rfl, rfl⟩
    | renames => exact ⟨rfl, rfl, rfl⟩

end RoundTrip

section Property

/-- The graph took the mirror that the entry rebuilds. -/
def Taken (s : Stores) (q : UUID × GraphMirrorPending) : Prop :=
  (q.2.opId, mirrorFromPayload q.2.payload) ∈ s.written

/-- Every committed operation that has a mirror is either mirrored or queued
with exactly that mirror, and an entry once queued is there until the graph has
taken it. -/
structure DoneOrQueued (b : GraphBackend) (s : Stores) : Prop where
  effects : ∀ c ∈ s.committed, NeedsMirror b c.opType c.undo.before →
    (c.undo.opId, mirrorOf c.opType c.undo.before) ∈ s.written ∨
      ∃ p, Holds s.runs (c.runId, p) ∧ p.opId = c.undo.opId ∧
        mirrorFromPayload p.payload = mirrorOf c.opType c.undo.before
  removed : ∀ q ∈ s.marked, Holds s.runs q ∨ Taken s q

/-- An operation that has a mirror is committed only if it is no community and
its run has a row, or into a backend that mirrors in the transaction. -/
def Queues (b : GraphBackend) (s : Stores) : Event → Prop
  | .commit opSeq opType undo => ∀ runId last, s.stage = some (.looping runId last) →
      last < opSeq → undo.opId ∉ s.committed.map (fun c => c.undo.opId) →
      NeedsMirror b opType undo.before → mirrorInTransaction b = false →
      opType ≠ .communitySummary ∧ hasRow runId s.runs = true
  | _ => True

/-- Entries may go once the graph took them, and everything else stays. -/
theorem DoneOrQueued.carry (h : DoneOrQueued b s)
    (hcommitted : ∀ c ∈ t.committed, c ∈ s.committed ∨
      (NeedsMirror b c.opType c.undo.before →
        (c.undo.opId, mirrorOf c.opType c.undo.before) ∈ t.written ∨
          ∃ p, Holds t.runs (c.runId, p) ∧ p.opId = c.undo.opId ∧
            mirrorFromPayload p.payload = mirrorOf c.opType c.undo.before))
    (hmarked : ∀ q ∈ t.marked, q ∈ s.marked ∨ Holds t.runs q)
    (hwritten : ∀ w ∈ s.written, w ∈ t.written)
    (hheld : ∀ q, Holds s.runs q → Holds t.runs q ∨ Taken t q) : DoneOrQueued b t where
  effects := by
    intro c hc hn
    rcases hcommitted c hc with hold | hnew
    · rcases h.effects c hold hn with hw | ⟨p, hp, hid, hm⟩
      · exact Or.inl (hwritten _ hw)
      · rcases hheld _ hp with hp' | htaken
        · exact Or.inr ⟨p, hp', hid, hm⟩
        · rw [Taken, hid, hm] at htaken
          exact Or.inl htaken
    · exact hnew hn
  removed := by
    intro q hq
    rcases hmarked q hq with hold | hnew
    · rcases h.removed q hold with hheld' | htaken
      · exact hheld q hheld'
      · exact Or.inr (hwritten _ htaken)
    · exact Or.inl hnew

end Property

section Invariant

def ids (s : Stores) : List UUID := s.committed.map (fun c => c.undo.opId)

def Current (runs : List RunRow) (q : UUID × GraphMirrorPending) : Prop :=
  ∀ q', Holds runs q' → q'.1 = q.1 → q'.2.opSeq = q.2.opSeq → q' = q

structure AtWork (s : Stores) (c : CommittedOp) : Prop where
  committed : c ∈ s.committed
  position : Checkpoint s.runs c.runId (· = c.opSeq)
  current : Current s.runs (c.runId, pendingOf c)

def Drains (s : Stores) (rest : List (UUID × GraphMirrorPending)) : Prop :=
  ∀ q ∈ rest, Current s.runs q ∧ q.2.opId ∈ ids s

def StageOk (s : Stores) : Stage → Prop
  | .opening _ => True
  | .draining _ rest => Drains s rest
  | .replayed _ q rest => Drains s (q::rest) ∧ Taken s q
  | .looping runId last => Checkpoint s.runs runId (· ≤ last)
  | .committed c => AtWork s c
  | .failed c => AtWork s c
  | .mirrored c => AtWork s c ∧ Taken s (c.runId, pendingOf c)

structure Inv (b : GraphBackend) (s : Stores) : Prop where
  rows : RowsOk s.runs
  written_ids : ∀ w ∈ s.written, w.1 ∈ ids s
  held_ids : ∀ q, Holds s.runs q → q.2.opId ∈ ids s
  done : DoneOrQueued b s
  stage : ∀ g, s.stage = some g → StageOk s g

theorem inv_initial (g : Graph) : Inv b (initial g) where
  rows :=
    { keys := List.nodup_nil
      within := by simp [initial]
      distinct := by simp [initial, Holds] }
  written_ids := by simp [initial]
  held_ids := by simp [initial, Holds]
  done :=
    { effects := by simp [initial]
      removed := by simp [initial] }
  stage := by simp [initial]

theorem Current.anti {runs runs' : List RunRow} {q : UUID × GraphMirrorPending}
    (h : Current runs q) (hsub : ∀ q', Holds runs' q' → Holds runs q') : Current runs' q :=
  fun q' hq' => h q' (hsub q' hq')

theorem Drains.anti {rest : List (UUID × GraphMirrorPending)} (h : Drains s rest)
    (hids : ids t = ids s) (hsub : ∀ q, Holds t.runs q → Holds s.runs q) : Drains t rest :=
  fun q hq => ⟨(h q hq).1.anti hsub, hids ▸ (h q hq).2⟩

theorem Drains.tail {q : UUID × GraphMirrorPending} {rest : List (UUID × GraphMirrorPending)}
    (h : Drains s (q::rest)) : Drains s rest :=
  fun q' hq' => h q' (List.mem_cons_of_mem q hq')

/-- A step that commits nothing. -/
theorem Inv.carry (h : Inv b s) (hrows : RowsOk t.runs) (hcommitted : t.committed = s.committed)
    (hmarked : ∀ q ∈ t.marked, q ∈ s.marked ∨ Holds t.runs q)
    (hwritten : ∀ w ∈ s.written, w ∈ t.written)
    (hnew : ∀ w ∈ t.written, w ∈ s.written ∨ w.1 ∈ ids s)
    (hheld : ∀ q, Holds s.runs q → Holds t.runs q ∨ Taken t q)
    (hback : ∀ q, Holds t.runs q → Holds s.runs q ∨ q.2.opId ∈ ids s)
    (hstage : ∀ g, t.stage = some g → StageOk t g) : Inv b t where
  rows := hrows
  written_ids := by
    intro w hw
    rw [ids, hcommitted]
    exact (hnew w hw).elim (h.written_ids w) id
  held_ids := by
    intro q hq
    rw [ids, hcommitted]
    exact (hback q hq).elim (h.held_ids q) id
  done := h.done.carry (fun c hc => Or.inl (hcommitted ▸ hc)) hmarked hwritten hheld
  stage := hstage

/-- A step that leaves the rows of the runs and the observations alone. -/
theorem Inv.touch (h : Inv b s) (hruns : t.runs = s.runs) (hcommitted : t.committed = s.committed)
    (hmarked : t.marked = s.marked) (hwritten : t.written = s.written)
    (hstage : ∀ g, t.stage = some g → StageOk t g) : Inv b t := by
  refine h.carry (hruns ▸ h.rows) hcommitted (fun q hq => Or.inl (hmarked ▸ hq))
    (fun w hw => hwritten ▸ hw) (fun w hw => Or.inl (hwritten ▸ hw)) (fun q hq => Or.inl ?_)
    (fun q hq => Or.inl ?_) hstage
  · rw [hruns]
    exact hq
  · rw [hruns] at hq
    exact hq

theorem inv_start (h : Inv b s) {runId : UUID} (hnew : hasRow runId s.runs = false) :
    Inv b (moveTo (.opening runId) { s with runs := recordRun runId s.runs }) := by
  refine h.carry (rows_ok_record h.rows hnew) rfl (fun q hq => Or.inl hq) (fun w hw => hw)
    (fun w hw => Or.inl hw) (fun q hq => Or.inl (holds_recordRun.mpr hq))
    (fun q hq => Or.inl (holds_recordRun.mp hq)) (fun g hg => ?_)
  obtain rfl := Option.some.inj hg
  trivial

theorem drains_open (h : Inv b s) (p : Prop) [Decidable p] :
    Drains s (if p then [] else getOpenGraphMirrorPending s.runs) := by
  intro q hq
  have hheld : Holds s.runs q := by
    split at hq
    · cases hq
    · exact mem_open_pending.mp hq
  exact ⟨fun q' hq' hrun hseq => h.rows.distinct q' q hq' hheld hrun hseq, h.held_ids q hheld⟩

/-- The graph takes a mirror of a committed operation. -/
theorem inv_write (h : Inv b s) {opId : UUID} {m : Mirror} {stampAt : Time} {g : Stage}
    (hid : opId ∈ ids s)
    (hstage : StageOk (moveTo g (writeGraph sanitizeCypherLabel opId m stampAt s)) g) :
    Inv b (moveTo g (writeGraph sanitizeCypherLabel opId m stampAt s)) := by
  refine h.carry h.rows rfl (fun q hq => Or.inl hq) (fun w hw => List.mem_append_left _ hw)
    (fun w hw => ?_) (fun q hq => Or.inl hq) (fun q hq => Or.inl hq) (fun g' hg => ?_)
  · rcases List.mem_append.mp hw with hold | hlast
    · exact Or.inl hold
    · rw [List.mem_singleton.mp hlast]
      exact Or.inr hid
  · obtain rfl := Option.some.inj hg
    exact hstage

/-- An entry is removed after the graph took it. -/
theorem inv_clear (h : Inv b s) {q : UUID × GraphMirrorPending} {g : Stage}
    (hcurrent : Current s.runs q) (htaken : Taken s q)
    (hstage : StageOk (moveTo g
      { s with runs := clearGraphMirrorPending q.1 q.2.opSeq s.runs }) g) :
    Inv b (moveTo g { s with runs := clearGraphMirrorPending q.1 q.2.opSeq s.runs }) := by
  refine h.carry (rows_ok_clear h.rows) rfl (fun q' hq' => Or.inl hq') (fun w hw => hw)
    (fun w hw => Or.inl hw) (fun q' hq' => ?_) (fun q' hq' => Or.inl (holds_clear.mp hq').1)
    (fun g' hg => ?_)
  · by_cases hsame : q'.1 = q.1 ∧ q'.2.opSeq = q.2.opSeq
    · rw [hcurrent q' hq' hsame.1 hsame.2]
      exact Or.inr htaken
    · exact Or.inl (holds_clear.mpr ⟨hq', hsame⟩)
  · obtain rfl := Option.some.inj hg
    exact hstage

/-- Queueing again puts the same entry where it stood. -/
theorem inv_queue (h : Inv b s) (hw : AtWork s c) :
    Inv b (moveTo (.looping c.runId c.opSeq) (queueOp c s)) := by
  have hid : c.undo.opId ∈ ids s := List.mem_map_of_mem hw.committed
  refine h.carry (rows_ok_mark h.rows hw.position) rfl (fun q hq => ?_) (fun w hw => hw)
    (fun w hw => Or.inl hw) (fun q hq => Or.inl ?_) (fun q hq => ?_) (fun g hg => ?_)
  · rcases List.mem_append.mp hq with hold | hnew
    · exact Or.inl hold
    · split at hnew
      · exact Or.inr (holds_mark.mpr (Or.inr ⟨‹_›, List.mem_singleton.mp hnew⟩))
      · cases hnew
  · by_cases hsame : q.1 = c.runId ∧ q.2.opSeq = c.opSeq
    · have hq' := hw.current q hq hsame.1 hsame.2
      obtain ⟨r, hr, hrid, -⟩ := hq
      exact holds_mark.mpr (Or.inr ⟨List.any_eq_true.mpr
        ⟨r, hr, decide_eq_true (hrid.trans hsame.1)⟩, hq'⟩)
    · exact holds_mark.mpr (Or.inl ⟨hq, hsame⟩)
  · rcases holds_mark.mp hq with ⟨hold, -⟩ | ⟨-, rfl⟩
    · exact Or.inl hold
    · exact Or.inr hid
  · obtain rfl := Option.some.inj hg
    exact checkpoint_mark (P := (· ≤ (c.opSeq:ℤ))) (fun r hr hrun => (hw.position r hr hrun).le)

end Invariant

section Commit

/-- What every commit leaves: the operation, and the checkpoint at it. -/
def advanced (c : CommittedOp) (s : Stores) : Stores :=
  { s with
    committed := s.committed++[c]
    runs := advanceCheckpoint c.runId c.opSeq s.runs }

/-- The mirror taken inside the transaction is the whole mirror. -/
theorem in_tx_taken (hage : mirrorInTransaction b = true)
    (hn : NeedsMirror b c.opType c.undo.before) :
    (c.undo.opId, mirrorOf c.opType c.undo.before) ∈
      (mirrorInTx sanitizeCypherLabel b c s).written := by
  obtain rfl : b = .age := of_decide_eq_true hage
  obtain ⟨hm, hne⟩ := hn
  obtain ⟨h1, h2, h3⟩ := age_invalidates_only c.undo.before hm
  have hinv : (undoTargets c.opType c.undo.before).invalidateRelationshipIds ≠ [] :=
    fun h => hne ⟨h1, h, h2, h3⟩
  have hwhole : mirrorOf c.opType c.undo.before =
      { targets :=
          { retireEntityIds := []
            invalidateRelationshipIds :=
              (undoTargets c.opType c.undo.before).invalidateRelationshipIds
            rewriteRelationships := [] }
        communities := [] } := by
    rw [← h1, ← h2, ← h3]
    rfl
  rw [mirrorInTx, if_pos (by simp [hm, hinv]), hwhole]
  exact List.mem_append_right _ (List.mem_singleton_self _)

theorem in_tx_written {w : UUID × Mirror}
    (hw : w ∈ (mirrorInTx sanitizeCypherLabel b c s).written) :
    w ∈ s.written ∨ w.1 = c.undo.opId := by
  unfold mirrorInTx at hw
  split at hw
  · rcases List.mem_append.mp hw with hold | hlast
    · exact Or.inl hold
    · rw [List.mem_singleton.mp hlast]
      exact Or.inr rfl
  · exact Or.inl hw

theorem in_tx_rest (sanitizeCypherLabel : String → String) (b : GraphBackend)
    (c : CommittedOp) (s : Stores) :
    (mirrorInTx sanitizeCypherLabel b c s).runs = s.runs ∧
      (mirrorInTx sanitizeCypherLabel b c s).committed = s.committed ∧
      (mirrorInTx sanitizeCypherLabel b c s).marked = s.marked ∧
      ∀ w ∈ s.written, w ∈ (mirrorInTx sanitizeCypherLabel b c s).written := by
  unfold mirrorInTx
  split
  · exact ⟨rfl, rfl, rfl, fun w hw => List.mem_append_left _ hw⟩
  · exact ⟨rfl, rfl, rfl, fun w hw => hw⟩

theorem inv_commit_in_tx (h : Inv b s) {last : ℤ}
    (hlast : Checkpoint s.runs c.runId (· ≤ last)) (hlt : last < c.opSeq)
    (hage : mirrorInTransaction b = true) :
    Inv b (moveTo (.looping c.runId c.opSeq)
      (mirrorInTx sanitizeCypherLabel b c (advanced c s))) := by
  obtain ⟨hruns, hcommitted, hmarked, hwritten⟩ :=
    in_tx_rest sanitizeCypherLabel b c (advanced c s)
  have hids : ∀ i ∈ ids s, i ∈ (s.committed++[c]).map (fun c => c.undo.opId) := by
    intro i hi
    rw [List.map_append]
    exact List.mem_append_left _ hi
  have hidc : c.undo.opId ∈ (s.committed++[c]).map (fun c => c.undo.opId) := by simp
  refine ⟨?_, fun w hw => ?_, fun q hq => ?_, ?_, fun g hg => ?_⟩
  · rw [moveTo, hruns]
    exact rows_ok_advance h.rows hlast hlt
  · rw [ids, moveTo, hcommitted]
    rcases in_tx_written hw with hold | hnew
    · exact hids _ (h.written_ids w hold)
    · rw [hnew]
      exact hidc
  · rw [moveTo, hruns] at hq
    rw [ids, moveTo, hcommitted]
    exact hids _ (h.held_ids q (holds_advance.mp hq))
  · refine h.done.carry (fun d hd => ?_) (fun q hq => ?_) hwritten (fun q hq => Or.inl ?_)
    · rw [moveTo, hcommitted] at hd
      rcases List.mem_append.mp hd with hold | hnew
      · exact Or.inl hold
      · rw [List.mem_singleton.mp hnew]
        exact Or.inr (fun hn => Or.inl (in_tx_taken hage hn))
    · rw [moveTo, hmarked] at hq
      exact Or.inl hq
    · rw [moveTo, hruns]
      exact holds_advance.mpr hq
  · obtain rfl := Option.some.inj hg
    rw [StageOk, moveTo, hruns]
    exact fun r hr hrun => (checkpoint_advance r hr hrun).le

theorem pre_mark_committed (s : Stores) :
    (preMarkGraphMirrorPending b c s).committed = s.committed ∧
      (preMarkGraphMirrorPending b c s).written = s.written := by
  unfold preMarkGraphMirrorPending
  split
  · exact ⟨rfl, rfl⟩
  · exact ⟨rfl, rfl⟩

/-- What the rows hold after the transaction: what they held, and the new entry
if the operation is one that is queued and the run has a row. -/
theorem holds_pre_mark {last : ℤ} (hrows : RowsOk s.runs)
    (hlast : Checkpoint s.runs c.runId (· ≤ last)) (hlt : last < c.opSeq)
    (q : UUID × GraphMirrorPending) :
    Holds (preMarkGraphMirrorPending b c (advanced c s)).runs q ↔
      Holds s.runs q ∨ (preMarks b c = true ∧ hasRow c.runId s.runs = true ∧
        q = (c.runId, pendingOf c)) := by
  have hrow : hasRow c.runId (advanced c s).runs = hasRow c.runId s.runs :=
    hasRow_update (f := setCheckpoint c.opSeq) (fun _ => rfl)
  have hnew : Holds s.runs q → ¬ (q.1 = c.runId ∧ q.2.opSeq = c.opSeq) := by
    rintro hq ⟨hrun, hseq⟩
    have := hrows.entry_within hq (hrun ▸ hlast)
    omega
  unfold preMarkGraphMirrorPending
  split
  · rename_i hp
    have hq : Holds (queueOp c (advanced c s)).runs q ↔
        (Holds (advanced c s).runs q ∧ ¬ (q.1 = c.runId ∧ q.2.opSeq = c.opSeq)) ∨
          (hasRow c.runId (advanced c s).runs = true ∧ q = (c.runId, pendingOf c)) := holds_mark
    rw [hq, hrow, advanced, holds_advance, and_iff_left_of_imp hnew]
    simp [hp]
  · rename_i hp
    rw [advanced, holds_advance]
    simp [hp]

theorem rows_ok_pre_mark {last : ℤ} (hrows : RowsOk s.runs)
    (hlast : Checkpoint s.runs c.runId (· ≤ last)) (hlt : last < c.opSeq) :
    RowsOk (preMarkGraphMirrorPending b c (advanced c s)).runs ∧
      Checkpoint (preMarkGraphMirrorPending b c (advanced c s)).runs c.runId
        (· = c.opSeq) := by
  unfold preMarkGraphMirrorPending
  split
  · exact ⟨rows_ok_mark (rows_ok_advance hrows hlast hlt) checkpoint_advance,
      checkpoint_mark checkpoint_advance⟩
  · exact ⟨rows_ok_advance hrows hlast hlt, checkpoint_advance⟩

theorem marked_pre_mark {q : UUID × GraphMirrorPending}
    (hq : q ∈ (preMarkGraphMirrorPending b c (advanced c s)).marked) :
    q ∈ s.marked ∨ (preMarks b c = true ∧ hasRow c.runId s.runs = true ∧
      q = (c.runId, pendingOf c)) := by
  have hrow : hasRow c.runId (advanced c s).runs = hasRow c.runId s.runs :=
    hasRow_update (f := setCheckpoint c.opSeq) (fun _ => rfl)
  unfold preMarkGraphMirrorPending at hq
  split at hq
  · rename_i hp
    rcases List.mem_append.mp hq with hold | hnew
    · exact Or.inl hold
    · rw [hrow] at hnew
      split at hnew
      · exact Or.inr ⟨hp, ‹_›, List.mem_singleton.mp hnew⟩
      · cases hnew
  · exact Or.inl hq

theorem inv_commit_queued (h : Inv b s) {last : ℤ}
    (hlast : Checkpoint s.runs c.runId (· ≤ last)) (hlt : last < c.opSeq)
    (hqueues : NeedsMirror b c.opType c.undo.before →
      c.opType ≠ .communitySummary ∧ hasRow c.runId s.runs = true) :
    Inv b (moveTo (.committed c) (preMarkGraphMirrorPending b c (advanced c s))) := by
  obtain ⟨hcommitted, hwritten⟩ := pre_mark_committed (b := b) (c := c) (advanced c s)
  obtain ⟨hrows, hat⟩ := rows_ok_pre_mark (b := b) h.rows hlast hlt
  have hholds := holds_pre_mark (b := b) h.rows hlast hlt
  have hids : ∀ i ∈ ids s, i ∈ (s.committed++[c]).map (fun c => c.undo.opId) := by
    intro i hi
    rw [List.map_append]
    exact List.mem_append_left _ hi
  refine ⟨hrows, fun w hw => ?_, fun q hq => ?_, ?_, fun g hg => ?_⟩
  · rw [ids, moveTo, hcommitted]
    rw [moveTo, hwritten] at hw
    exact hids _ (h.written_ids w hw)
  · rw [ids, moveTo, hcommitted]
    rcases (hholds q).mp hq with hold | ⟨-, -, rfl⟩
    · exact hids _ (h.held_ids q hold)
    · simp [advanced, pendingOf]
  · refine h.done.carry (fun d hd => ?_) (fun q hq => ?_) (fun w hw => ?_)
      (fun q hq => Or.inl ((hholds q).mpr (Or.inl hq)))
    · rw [moveTo, hcommitted] at hd
      rcases List.mem_append.mp hd with hold | hnew
      · exact Or.inl hold
      · obtain rfl := List.mem_singleton.mp hnew
        refine Or.inr (fun hn => Or.inr ⟨pendingOf d, ?_, rfl, mirror_from_mirrorPayload _ _⟩)
        obtain ⟨hk, hrow⟩ := hqueues hn
        exact (hholds _).mpr (Or.inr ⟨(preMarks_iff hn).mpr hk, hrow, rfl⟩)
    · rcases marked_pre_mark hq with hold | hnew
      · exact Or.inl hold
      · exact Or.inr ((hholds q).mpr (Or.inr hnew))
    · rw [moveTo, hwritten]
      exact hw
  · obtain rfl := Option.some.inj hg
    refine ⟨?_, hat, fun q hq hrun hseq => ?_⟩
    · rw [moveTo, hcommitted]
      exact List.mem_append_right _ (List.mem_singleton_self c)
    · rcases (hholds q).mp hq with hold | ⟨-, -, rfl⟩
      · have hle : (q.2.opSeq:ℤ) ≤ last := h.rows.entry_within hold (hrun ▸ hlast)
        have hat' : q.2.opSeq = c.opSeq := hseq
        omega
      · rfl

theorem commitOp_eq : commitOp sanitizeCypherLabel b c s =
    if mirrorInTransaction b then
      moveTo (.looping c.runId c.opSeq)
        (mirrorInTx sanitizeCypherLabel b c (advanced c s))
    else moveTo (.committed c) (preMarkGraphMirrorPending b c (advanced c s)) := rfl

theorem inv_commit (h : Inv b s) {last : ℤ} (hstage : s.stage = some (.looping c.runId last))
    (hlt : last < c.opSeq)
    (hqueues : mirrorInTransaction b = false → NeedsMirror b c.opType c.undo.before →
      c.opType ≠ .communitySummary ∧ hasRow c.runId s.runs = true) :
    Inv b (commitOp sanitizeCypherLabel b c s) := by
  rw [commitOp_eq]
  split
  · exact inv_commit_in_tx h (h.stage _ hstage) hlt ‹_›
  · exact inv_commit_queued h (h.stage _ hstage) hlt (hqueues (Bool.eq_false_of_not_eq_true ‹_›))

/-- An operation that is committed without its entry is neither mirrored nor
queued. -/
theorem commit_unqueued (h : Inv b s) {last : ℤ} (hstage : s.stage = some (.looping c.runId last))
    (hlt : last < c.opSeq) (hnew : c.undo.opId ∉ ids s)
    (hn : NeedsMirror b c.opType c.undo.before) (htx : mirrorInTransaction b = false)
    (hq : ¬ (c.opType ≠ .communitySummary ∧ hasRow c.runId s.runs = true)) :
    ¬ DoneOrQueued b (commitOp sanitizeCypherLabel b c s) := by
  rw [commitOp_eq, if_neg (by simp [htx])]
  obtain ⟨hcommitted, hwritten⟩ := pre_mark_committed (b := b) (c := c) (advanced c s)
  intro hd
  have hc : c ∈ (moveTo (.committed c)
      (preMarkGraphMirrorPending b c (advanced c s))).committed := by
    rw [moveTo, hcommitted]
    exact List.mem_append_right _ (List.mem_singleton_self c)
  rcases hd.effects c hc hn with hw | ⟨p, hp, hid, -⟩
  · rw [moveTo, hwritten] at hw
    exact hnew (h.written_ids _ hw)
  · rcases (holds_pre_mark h.rows (h.stage _ hstage) hlt _).mp hp with hold | ⟨hmarks, hrow, -⟩
    · have hheld := h.held_ids _ hold
      rw [hid] at hheld
      exact hnew hheld
    · exact hq ⟨(preMarks_iff hn).mp hmarks, hrow⟩

end Commit

section Runs

theorem inv_step (s : Stores) (e : Event) (t : Stores) (h : Inv b s) (hq : Queues b s e)
    (ht : step sanitizeCypherLabel b s e = some t) : Inv b t := by
  cases e with
  | start runId =>
    simp only [step] at ht
    split at ht
    · rename_i hg
      obtain rfl := Option.some.inj ht
      exact inv_start h hg.2
    · cases ht
  | resume runId =>
    simp only [step] at ht
    split at ht
    · obtain rfl := Option.some.inj ht
      refine h.touch rfl rfl rfl rfl (fun g hg => ?_)
      obtain rfl := Option.some.inj hg
      trivial
    · cases ht
  | readPending =>
    simp only [step] at ht
    split at ht
    · obtain rfl := Option.some.inj ht
      refine h.touch rfl rfl rfl rfl (fun g hg => ?_)
      obtain rfl := Option.some.inj hg
      exact drains_open h _
    · cases ht
  | readFails =>
    simp only [step] at ht
    split at ht
    · obtain rfl := Option.some.inj ht
      refine h.touch rfl rfl rfl rfl (fun g hg => ?_)
      obtain rfl := Option.some.inj hg
      exact fun q hq' => absurd hq' (List.not_mem_nil)
    · cases ht
  | replay =>
    simp only [step] at ht
    split at ht
    · rename_i runId p rest hstage
      obtain rfl := Option.some.inj ht
      have hd : Drains s (p::rest) := h.stage _ hstage
      exact inv_write h (hd p List.mem_cons_self).2
        ⟨hd, List.mem_append_right _ (List.mem_singleton_self _)⟩
    · cases ht
  | replayFails k =>
    simp only [step] at ht
    split at ht
    · rename_i runId p rest hstage
      obtain rfl := Option.some.inj ht
      have hd : Drains s (p::rest) := h.stage _ hstage
      refine h.touch rfl rfl rfl rfl (fun g hg => ?_)
      obtain rfl := Option.some.inj hg
      exact hd.tail
    · cases ht
  | clearReplayed =>
    simp only [step] at ht
    split at ht
    · rename_i runId p rest hstage
      obtain rfl := Option.some.inj ht
      obtain ⟨hd, htaken⟩ : Drains s (p::rest) ∧ Taken s p := h.stage _ hstage
      exact inv_clear h (hd p List.mem_cons_self).1 htaken
        (hd.tail.anti rfl (fun q hq' => (holds_clear.mp hq').1))
    · cases ht
  | enterLoop =>
    simp only [step] at ht
    split at ht
    · obtain rfl := Option.some.inj ht
      refine h.touch rfl rfl rfl rfl (fun g hg => ?_)
      obtain rfl := Option.some.inj hg
      exact read_checkpoint h.rows
    · cases ht
  | pass opSeq =>
    simp only [step] at ht
    split at ht
    · rename_i runId last hstage
      split at ht
      · rename_i hlt
        obtain rfl := Option.some.inj ht
        refine h.carry (rows_ok_advance h.rows (h.stage _ hstage) hlt) rfl
          (fun q hq' => Or.inl hq') (fun w hw => hw) (fun w hw => Or.inl hw)
          (fun q hq' => Or.inl (holds_advance.mpr hq'))
          (fun q hq' => Or.inl (holds_advance.mp hq')) (fun g hg => ?_)
        obtain rfl := Option.some.inj hg
        exact fun r hr hrun => (checkpoint_advance r hr hrun).le
      · cases ht
    · cases ht
  | commit opSeq opType undo =>
    simp only [step] at ht
    split at ht
    · rename_i runId last hstage
      split at ht
      · rename_i hg
        obtain rfl := Option.some.inj ht
        exact inv_commit h hstage hg.1
          (fun htx hn => hq runId last hstage hg.1 hg.2 hn htx)
      · cases ht
    · cases ht
  | mirror =>
    simp only [step] at ht
    split at ht
    · rename_i c hstage
      have hw : AtWork s c := h.stage _ hstage
      split at ht
      · obtain rfl := Option.some.inj ht
        refine inv_write h (List.mem_map_of_mem hw.committed) ⟨⟨hw.committed, hw.position,
          hw.current⟩, ?_⟩
        refine List.mem_append_right _ (List.mem_singleton.mpr (Prod.ext rfl ?_))
        exact mirror_from_mirrorPayload _ _
      · obtain rfl := Option.some.inj ht
        refine h.touch rfl rfl rfl rfl (fun g hg => ?_)
        obtain rfl := Option.some.inj hg
        exact fun r hr hrun => (hw.position r hr hrun).le
    · cases ht
  | mirrorFails k =>
    simp only [step] at ht
    split at ht
    · rename_i c hstage
      have hw : AtWork s c := h.stage _ hstage
      split at ht
      · obtain rfl := Option.some.inj ht
        refine h.touch rfl rfl rfl rfl (fun g hg => ?_)
        obtain rfl := Option.some.inj hg
        exact ⟨hw.committed, hw.position, hw.current⟩
      · cases ht
    · cases ht
  | queue =>
    simp only [step] at ht
    split at ht
    · rename_i c hstage
      obtain rfl := Option.some.inj ht
      exact inv_queue h (h.stage _ hstage)
    · cases ht
  | clear =>
    simp only [step] at ht
    split at ht
    · rename_i c hstage
      obtain rfl := Option.some.inj ht
      obtain ⟨hw, htaken⟩ : AtWork s c ∧ Taken s (c.runId, pendingOf c) := h.stage _ hstage
      exact inv_clear h hw.current htaken
        (checkpoint_clear (P := (· ≤ (c.opSeq:ℤ))) (fun r hr hrun => (hw.position r hr hrun).le))
    · cases ht
  | finish =>
    simp only [step] at ht
    split at ht
    · obtain rfl := Option.some.inj ht
      exact h.touch rfl rfl rfl rfl (fun g hg => by cases hg)
    · cases ht
  | crash =>
    obtain rfl := Option.some.inj ht
    exact h.touch rfl rfl rfl rfl (fun g hg => by cases hg)

theorem unqueued_step (s : Stores) (e : Event) (h : Inv b s) (hq : ¬ Queues b s e) :
    ∃ t, step sanitizeCypherLabel b s e = some t ∧ ¬ DoneOrQueued b t := by
  cases e with
  | commit opSeq opType undo =>
    simp only [Queues, not_forall] at hq
    obtain ⟨runId, last, hstage, hlt, hnew, hn, htx, hnot⟩ := hq
    refine ⟨commitOp sanitizeCypherLabel b ⟨runId, opSeq, opType, undo⟩ s, ?_,
      commit_unqueued (c := ⟨runId, opSeq, opType, undo⟩) h hstage hlt hnew hn htx hnot⟩
    simp only [step, hstage]
    rw [if_pos ⟨hlt, hnew⟩]
  | _ => exact absurd trivial hq

/-- Along every run, through crashes, failed writes, resumptions and replays,
every committed operation is mirrored or queued if and only if no community is
committed whose mirror comes after the transaction, and no operation with a
mirror is committed under a run that has no row. -/
theorem mirror_done_or_queued_iff (sanitizeCypherLabel : String → String) (b : GraphBackend)
    (g : Graph) (es : List Event) :
    Machine.Always (step sanitizeCypherLabel b) (DoneOrQueued b) (initial g) es ↔
      Machine.Meets (step sanitizeCypherLabel b) (Queues b) (initial g) es :=
  Machine.always_iff_meets inv_step (fun _ h => h.done) unqueued_step es _ (inv_initial g)

def emptyGraph : Graph where
  nodes := []
  edges := []
  versions := []
  communities := []
  hasMember := []
  node_keys := List.nodup_nil
  edge_keys := List.nodup_nil

def communityUndo : UndoRecord where
  opId := 7
  before := .community
    { communityId := 1
      summaryText := "two authors of one paper"
      memberIds := [2, 3]
      summaryDepth := 1 }
  appliedAt := 100

def lostCommunity : List Event :=
  [.start 1, .readPending, .enterLoop, .commit 0 .communitySummary communityUndo, .crash,
   .resume 1, .readPending, .enterLoop, .finish]

/-- A crash after the commit of a community: nothing is queued, and the resumed
run finds nothing to replay and passes over the operation. -/
theorem community_lost :
    ∃ s, Machine.run (step id .neo4j) (initial emptyGraph) lostCommunity = some s ∧
      s.written = [] ∧ (∀ q, ¬ Holds s.runs q) ∧ ¬ DoneOrQueued .neo4j s := by
  have hnone : ∀ (s : Stores), s.runs = [⟨1, 0, []⟩] → ∀ q, ¬ Holds s.runs q := by
    rintro s hs q ⟨r, hr, -, hp⟩
    rw [hs] at hr
    obtain rfl := List.mem_singleton.mp hr
    cases hp
  refine ⟨_, rfl, rfl, hnone _ rfl, fun h => ?_⟩
  rcases h.effects ⟨1, 0, .communitySummary, communityUndo⟩ (List.mem_singleton_self _)
    (by decide) with hw | ⟨p, hp, -⟩
  · cases hw
  · exact hnone _ rfl _ hp

end Runs

end Uru.Dream.Pending
