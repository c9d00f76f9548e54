import Uru.Ingest.Replace

/-!
# When replacing is exact

What a writing call relies on is said stage by stage: which row there is and
how much of its content the temporal store holds. Under exclusion each storage
call takes one of these states to the next, and a call that returns leaves the
row with exactly its chunks. Nothing in the engine excludes: two replacements
may both delete before either of them writes.
-/

set_option autoImplicit false

namespace Uru.Ingest.Replace

open Uru.Lib Uru.Lib.Calls

variable {τ κ : Type*} {chunk : τ → List κ} {maxChunksInFlight : Option ℕ+}
variable {st : Stores τ κ} {id : UUID} {content : τ} {f g : Stage τ κ} {o : Outcome}

section States

def NoOrphans (st : Stores τ κ) : Prop :=
  st.documents.length ≤ 1 ∧ ∀ c ∈ st.chunks, ∃ d ∈ st.documents, d.id = c.documentId

def Free (chunk : τ → List κ) (st : Stores τ κ) : Prop :=
  NoOrphans st ∧ Exact chunk st st.last

def Row (st : Stores τ κ) (id : UUID) (content : τ) : Prop :=
  ∃ status, st.documents = [⟨id, content, status⟩]

def RowOf (st : Stores τ κ) (id : UUID) : Prop := ∃ content, Row st id content

/-- All windows before `rest` are written. -/
def WrittenBefore (chunk : τ → List κ) (st : Stores τ κ) (id : UUID) (content : τ)
    (rest : List κ) : Prop :=
  ∃ before, before++rest = chunk content ∧ st.chunks = rowsOf id before

def Holding (chunk : τ → List κ) (f : Stage τ κ) (st : Stores τ κ) : Prop :=
  match f with
  | .process id content rest => Row st id content ∧ WrittenBefore chunk st id content rest
  | .mirrorWindow id content _ rest => Row st id content ∧ WrittenBefore chunk st id content rest
  | .complete id content => Row st id content ∧ WrittenBefore chunk st id content []
  | .wipeNodes existing _ => RowOf st existing ∧ st.chunks = []
  | .write existing _ => RowOf st existing ∧ st.chunks = []
  | .mirror existing content => RowOf st existing ∧ WrittenBefore chunk st existing content []
  | .commit existing content => RowOf st existing ∧ WrittenBefore chunk st existing content []
  | .relink existing content => Row st existing content ∧ WrittenBefore chunk st existing content []
  | .markFailed existing _ => RowOf st existing ∧ ∀ c ∈ st.chunks, c.documentId = existing
  | .dropRow id => NoOrphans st ∧ ∀ c ∈ st.chunks, c.documentId ≠ id
  | _ => True

theorem written_all (h : WrittenBefore chunk st id content []) :
    st.chunks = rowsOf id (chunk content) := by
  obtain ⟨before, hb, hc⟩ := h
  rw [hc, ← hb, List.append_nil]

theorem written_none (h : st.chunks = []) : WrittenBefore chunk st id content (chunk content) :=
  ⟨[], rfl, h⟩

theorem written_owner {rest : List κ} (h : WrittenBefore chunk st id content rest) :
    ∀ c ∈ st.chunks, c.documentId = id := by
  obtain ⟨before, -, hc⟩ := h
  intro c hmem
  rw [hc] at hmem
  obtain ⟨x, -, rfl⟩ := List.mem_map.mp hmem
  rfl

theorem no_orphans_of_row (h : RowOf st id) (hc : ∀ c ∈ st.chunks, c.documentId = id) :
    NoOrphans st := by
  obtain ⟨content, status, hd⟩ := h
  refine ⟨by simp [hd], fun c hmem => ⟨⟨id, content, status⟩, by simp [hd], (hc c hmem).symm⟩⟩

/-- With at most one row, the row that is there is the only one. -/
theorem rowOf_has (hn : NoOrphans st) (h : hasDocument id st = true) : RowOf st id := by
  obtain ⟨d, hd, hid⟩ := List.any_eq_true.mp h
  have hid := of_decide_eq_true hid
  refine ⟨d.content, d.status, ?_⟩
  obtain ⟨x, hx⟩ := List.length_eq_one_iff.mp
    (Nat.le_antisymm hn.1 (List.length_pos_of_mem hd))
  rw [hx] at hd ⊢
  rw [← List.mem_singleton.mp hd, ← hid]

theorem owner_of_row (hn : NoOrphans st) (h : RowOf st id) :
    ∀ c ∈ st.chunks, c.documentId = id := by
  obtain ⟨content, status, hd⟩ := h
  intro c hmem
  obtain ⟨d, hdm, hid⟩ := hn.2 c hmem
  rw [hd, List.mem_singleton] at hdm
  rw [← hid, hdm]

theorem has_of_row (h : RowOf st id) : hasDocument id st = true := by
  obtain ⟨content, status, hd⟩ := h
  simp [hasDocument, hd]

theorem wiped (h : ∀ c ∈ st.chunks, c.documentId = id) :
    (deleteChunksByDocument id st).chunks = [] := by
  rw [deleteChunksByDocument, List.filter_eq_nil_iff]
  intro c hc
  simp [h c hc]

theorem row_update (h : RowOf st id) (content : τ) (status : Status) :
    Row (updateDocument id content status st) id content := by
  obtain ⟨_, _, hd⟩ := h
  exact ⟨status, by simp [updateDocument, hd]⟩

theorem exact_of_row (h : Row st id content) (hw : WrittenBefore chunk st id content []) :
    ∃ d, st.documents = [d] ∧ st.chunks = rowsOf d.id (chunk d.content) := by
  obtain ⟨status, hd⟩ := h
  exact ⟨_, hd, written_all hw⟩

theorem noDocuments_no_chunks (hn : NoOrphans st) (h : st.documents = []) : st.chunks = [] := by
  refine List.eq_nil_iff_forall_not_mem.mpr (fun c hc => ?_)
  obtain ⟨d, hd, -⟩ := hn.2 c hc
  rw [h] at hd
  cases hd

end States

section Idle

variable {st' : Stores τ κ} {r : Stores τ κ × Stage τ κ}

/-- Rows and temporal chunks are as they were, and no success was reported. -/
structure Aside (st st' : Stores τ κ) : Prop where
  documents : st'.documents = st.documents
  chunks : st'.chunks = st.chunks
  last : st'.last = st.last ∨ st'.last = some .failed ∨ st'.last = some .missing

theorem aside_refl (st : Stores τ κ) : Aside st st := ⟨rfl, rfl, Or.inl rfl⟩

theorem aside_failed (st : Stores τ κ) : Aside st (settle (τ := τ) (κ := κ) .failed st).1 :=
  ⟨rfl, rfl, Or.inr (Or.inl rfl)⟩

theorem aside_missing (st : Stores τ κ) : Aside st (settle (τ := τ) (κ := κ) .missing st).1 :=
  ⟨rfl, rfl, Or.inr (Or.inr rfl)⟩

theorem aside_nodes (st : Stores τ κ) (nodes : List (TemporalChunk κ)) :
    Aside st { st with nodes := nodes } := ⟨rfl, rfl, Or.inl rfl⟩

theorem exact_congr (hd : st'.documents = st.documents) (hc : st'.chunks = st.chunks)
    (r : Option Result) : Exact chunk st' r ↔ Exact chunk st r := by
  unfold Exact
  rw [hd, hc]

theorem Aside.no_orphans (h : Aside st st') (hn : NoOrphans st) : NoOrphans st' := by
  rw [NoOrphans, h.documents, h.chunks]
  exact hn

theorem Aside.free (h : Aside st st') (hf : Free chunk st) : Free chunk st' := by
  refine ⟨h.no_orphans hf.1, ?_⟩
  rcases h.last with hl | hl | hl
  · rw [hl, exact_congr h.documents h.chunks]
    exact hf.2
  · rw [hl]
    trivial
  · rw [hl]
    trivial

/-- What a writing call relies on is in the rows and the temporal chunks. -/
theorem Aside.holding (h : Aside st st') (hh : Holding chunk f st) : Holding chunk f st' := by
  unfold Holding at hh ⊢
  simp only [NoOrphans, RowOf, Row, WrittenBefore, h.documents, h.chunks] at hh ⊢
  exact hh

theorem fail_idle (hact : failAct st f = some r) (hr : writing r.2 = false) : Aside st r.1 := by
  cases f with
  | settled _ => cases hact
  | wipe _ _ | wipeNodes _ _ | write _ _ | relink _ _ =>
    obtain rfl := Option.some.inj hact
    cases hr
  | mirrorWindow _ _ _ _ | mirror _ _ =>
    obtain rfl := Option.some.inj hact
    exact aside_refl st
  | _ =>
    obtain rfl := Option.some.inj hact
    exact aside_failed st

variable [DecidableEq τ]

/-- A call that is not writing, and does not begin to, stands aside. -/
theorem idle_act (hact : act chunk maxChunksInFlight f o st = some r) (hcur : current f o st)
    (hf : writing f = false) (hr : writing r.2 = false) : Aside st r.1 := by
  cases o with
  | fails => exact fail_idle hact hr
  | partly =>
    cases f with
    | checksum content =>
      obtain rfl := Option.some.inj hact
      exact aside_refl st
    | commit _ _ => cases hf
    | relink _ _ => cases hf
    | _ => cases hact
  | ok newId =>
    cases f with
    | lookup content =>
      simp only [act, okAct] at hact
      split at hact
      · obtain rfl := Option.some.inj hact
        exact aside_refl st
      · obtain rfl := Option.some.inj hact
        exact aside_refl st
    | checksum content =>
      simp only [act, okAct] at hact
      split at hact
      · rename_i hfound
        exact absurd (hcur.symm.trans hfound) (by simp)
      · obtain rfl := Option.some.inj hact
        exact aside_refl st
    | create content =>
      simp only [act, okAct] at hact
      split at hact
      · obtain rfl := Option.some.inj hact
        simp only [nextWindow] at hr
        split at hr
        · cases hr
        · cases hr
      · obtain rfl := Option.some.inj hact
        exact aside_refl st
    | relookup content =>
      simp only [act, okAct] at hact
      split at hact
      · obtain rfl := Option.some.inj hact
        exact aside_refl st
      · obtain rfl := Option.some.inj hact
        exact aside_failed st
    | prepare existing content =>
      obtain rfl := Option.some.inj hact
      exact aside_refl st
    | wipe existing content =>
      obtain rfl := Option.some.inj hact
      cases hr
    | find id =>
      simp only [act, okAct] at hact
      split at hact
      · obtain rfl := Option.some.inj hact
        exact aside_refl st
      · obtain rfl := Option.some.inj hact
        exact aside_missing st
    | cascade id =>
      obtain rfl := Option.some.inj hact
      exact aside_refl st
    | dropNodes id =>
      obtain rfl := Option.some.inj hact
      exact aside_nodes st _
    | dropChunks id =>
      obtain rfl := Option.some.inj hact
      cases hr
    | settled _ => cases hact
    | _ => cases hf

end Idle

section Writing

variable {r : Stores τ κ × Stage τ κ}

/-- The loop goes on with the windows that are left. -/
theorem nextWindow_holding {rest : List κ} (hrow : Row st id content)
    (hw : WrittenBefore chunk st id content rest) :
    Holding chunk (nextWindow id content rest) st := by
  rw [nextWindow]
  split
  · rename_i hempty
    rw [List.isEmpty_iff.mp hempty] at hw
    exact ⟨hrow, hw⟩
  · exact ⟨hrow, hw⟩

theorem nextWindow_writing (id : UUID) (content : τ) (rest : List κ) :
    writing (nextWindow id content rest) = true := by
  rw [nextWindow]
  split
  · rfl
  · rfl

theorem written_window (n : ℕ) {rest : List κ} (h : WrittenBefore chunk st id content rest) :
    WrittenBefore chunk (createChunksBatch id (rest.take n) st) id content (rest.drop n) := by
  obtain ⟨before, hb, hc⟩ := h
  refine ⟨before++rest.take n, ?_, ?_⟩
  · rw [List.append_assoc, List.take_append_drop, hb]
  · rw [createChunksBatch, hc, rowsOf, rowsOf, rowsOf, List.map_append]

/-- Everything is written at once where nothing was left. -/
theorem written_batch (h : st.chunks = []) :
    WrittenBefore chunk (createChunksBatch id (chunk content) st) id content [] :=
  ⟨chunk content, List.append_nil _, by rw [createChunksBatch, h, List.nil_append]⟩

/-- A failed storage call between the wipe and the commit leaves the row and
whatever of its chunks there is. -/
theorem fail_continues (hact : failAct st f = some r) (hf : writing f = true)
    (hr : writing r.2 = true) (h : Holding chunk f st) : Holding chunk r.2 r.1 := by
  cases f with
  | mirrorWindow id content window rest =>
    obtain rfl := Option.some.inj hact
    exact nextWindow_holding h.1 h.2
  | wipeNodes existing content =>
    obtain rfl := Option.some.inj hact
    exact ⟨h.1, by simp [h.2]⟩
  | write existing content =>
    obtain rfl := Option.some.inj hact
    exact ⟨h.1, by simp [h.2]⟩
  | mirror existing content =>
    obtain rfl := Option.some.inj hact
    exact h
  | relink existing content =>
    obtain rfl := Option.some.inj hact
    exact ⟨⟨content, h.1⟩, written_owner h.2⟩
  | process _ _ _ | complete _ _ | commit _ _ | markFailed _ _ | dropRow _ =>
    obtain rfl := Option.some.inj hact
    cases hr
  | _ => cases hf

/-- A writing call that is given up returns no success. -/
theorem fail_ends (hact : failAct st f = some r) (hf : writing f = true)
    (hr : writing r.2 = false) (h : Holding chunk f st) : Free chunk r.1 := by
  cases f with
  | process id content rest =>
    obtain rfl := Option.some.inj hact
    exact ⟨no_orphans_of_row ⟨content, h.1⟩ (written_owner h.2), trivial⟩
  | complete id content =>
    obtain rfl := Option.some.inj hact
    exact ⟨no_orphans_of_row ⟨content, h.1⟩ (written_owner h.2), trivial⟩
  | commit existing content =>
    obtain rfl := Option.some.inj hact
    exact ⟨no_orphans_of_row h.1 (written_owner h.2), trivial⟩
  | markFailed existing content =>
    obtain rfl := Option.some.inj hact
    exact ⟨no_orphans_of_row h.1 h.2, trivial⟩
  | dropRow id =>
    obtain rfl := Option.some.inj hact
    exact ⟨h.1, trivial⟩
  | mirrorWindow id content window rest =>
    obtain rfl := Option.some.inj hact
    rw [nextWindow_writing] at hr
    cases hr
  | wipeNodes _ _ | write _ _ | mirror _ _ | relink _ _ =>
    obtain rfl := Option.some.inj hact
    cases hr
  | _ => cases hf

/-- A row whose chunks are written is what `remember` returns on. -/
theorem free_of_row (hrow : Row st id content) (hw : WrittenBefore chunk st id content []) :
    Free chunk (settle (τ := τ) (κ := κ) .remembered st).1 :=
  ⟨no_orphans_of_row ⟨content, hrow⟩ (written_owner hw), exact_of_row hrow hw⟩

theorem canCommit_of_row (h : RowOf st id) : canCommit chunk id content st = true := by
  rw [canCommit, has_of_row h, Bool.true_or]

theorem partly_continues (hact : partlyAct chunk st f = some r) (hr : writing r.2 = true) :
    Holding chunk r.2 r.1 := by
  cases f with
  | checksum content =>
    obtain rfl := Option.some.inj hact
    cases hr
  | commit existing content =>
    simp only [partlyAct] at hact
    split at hact
    · obtain rfl := Option.some.inj hact
      cases hr
    · cases hact
  | relink existing content =>
    obtain rfl := Option.some.inj hact
    cases hr
  | _ => cases hact

theorem partly_ends (hact : partlyAct chunk st f = some r) (hf : writing f = true)
    (h : Holding chunk f st) : Free chunk r.1 := by
  cases f with
  | checksum content => cases hf
  | commit existing content =>
    simp only [partlyAct] at hact
    split at hact
    · obtain rfl := Option.some.inj hact
      exact free_of_row (row_update h.1 content .completed) h.2
    · cases hact
  | relink existing content =>
    obtain rfl := Option.some.inj hact
    exact ⟨no_orphans_of_row ⟨content, h.1⟩ (written_owner h.2), trivial⟩
  | _ => cases hact

/-- The only row goes, and its chunks went before it. -/
theorem dropped (hn : NoOrphans st) (hc : ∀ c ∈ st.chunks, c.documentId ≠ id)
    (h : hasDocument id st = true) :
    st.documents.filter (fun d => d.id ≠ id) = [] ∧ st.chunks = [] := by
  have hrow := rowOf_has hn h
  refine ⟨?_, List.eq_nil_iff_forall_not_mem.mpr
    (fun c hmem => hc c hmem (owner_of_row hn hrow c hmem))⟩
  obtain ⟨content, status, hd⟩ := hrow
  simp [hd]

theorem no_orphans_of_nothing (hd : st.documents = []) (hc : st.chunks = []) : NoOrphans st := by
  refine ⟨by simp [hd], fun c hmem => ?_⟩
  rw [hc] at hmem
  cases hmem

variable [DecidableEq τ]

theorem ok_continues {newId : UUID} (hact : okAct chunk maxChunksInFlight newId st f = some r)
    (hf : writing f = true) (hr : writing r.2 = true) (h : Holding chunk f st) :
    Holding chunk r.2 r.1 := by
  cases f with
  | process id content rest =>
    obtain rfl := Option.some.inj hact
    exact ⟨h.1, written_window _ h.2⟩
  | mirrorWindow id content window rest =>
    obtain rfl := Option.some.inj hact
    exact nextWindow_holding h.1 h.2
  | complete id content =>
    obtain rfl := Option.some.inj hact
    cases hr
  | wipeNodes existing content =>
    obtain rfl := Option.some.inj hact
    dsimp only
    split
    · rename_i hempty
      refine ⟨h.1, [], ?_, h.2⟩
      rw [List.isEmpty_iff.mp hempty, List.append_nil]
    · exact h
  | write existing content =>
    obtain rfl := Option.some.inj hact
    exact ⟨h.1, written_batch h.2⟩
  | mirror existing content =>
    obtain rfl := Option.some.inj hact
    exact h
  | commit existing content =>
    rw [okAct, if_pos (canCommit_of_row h.1)] at hact
    obtain rfl := Option.some.inj hact
    exact ⟨row_update h.1 content .completed, h.2⟩
  | relink existing content =>
    obtain rfl := Option.some.inj hact
    cases hr
  | markFailed existing content =>
    obtain rfl := Option.some.inj hact
    cases hr
  | dropRow id =>
    simp only [okAct] at hact
    split at hact
    · obtain rfl := Option.some.inj hact
      cases hr
    · obtain rfl := Option.some.inj hact
      cases hr
  | _ => cases hf

theorem ok_ends {newId : UUID} (hact : okAct chunk maxChunksInFlight newId st f = some r)
    (hf : writing f = true) (hr : writing r.2 = false) (h : Holding chunk f st) :
    Free chunk r.1 := by
  cases f with
  | complete id content =>
    obtain rfl := Option.some.inj hact
    exact free_of_row (row_update ⟨content, h.1⟩ content .completed) h.2
  | commit existing content =>
    rw [okAct, if_pos (canCommit_of_row h.1)] at hact
    obtain rfl := Option.some.inj hact
    cases hr
  | relink existing content =>
    obtain rfl := Option.some.inj hact
    exact free_of_row h.1 h.2
  | markFailed existing content =>
    obtain rfl := Option.some.inj hact
    exact ⟨no_orphans_of_row ⟨content, row_update h.1 content .failed⟩ h.2, trivial⟩
  | dropRow id =>
    simp only [okAct] at hact
    split at hact
    · rename_i hhas
      obtain rfl := Option.some.inj hact
      have hgone := dropped h.1 h.2 hhas
      exact ⟨no_orphans_of_nothing hgone.1 hgone.2, hgone⟩
    · obtain rfl := Option.some.inj hact
      exact ⟨h.1, trivial⟩
  | process id content rest =>
    obtain rfl := Option.some.inj hact
    cases hr
  | mirrorWindow id content window rest =>
    obtain rfl := Option.some.inj hact
    rw [nextWindow_writing] at hr
    cases hr
  | wipeNodes existing content =>
    obtain rfl := Option.some.inj hact
    dsimp only at hr
    split at hr
    · cases hr
    · cases hr
  | write _ _ | mirror _ _ =>
    obtain rfl := Option.some.inj hact
    cases hr
  | _ => cases hf

theorem act_continues (hact : act chunk maxChunksInFlight f o st = some r)
    (hf : writing f = true) (hr : writing r.2 = true) (h : Holding chunk f st) :
    Holding chunk r.2 r.1 := by
  cases o with
  | ok newId => exact ok_continues hact hf hr h
  | partly => exact partly_continues hact hr
  | fails => exact fail_continues hact hf hr h

theorem act_ends (hact : act chunk maxChunksInFlight f o st = some r)
    (hf : writing f = true) (hr : writing r.2 = false) (h : Holding chunk f st) :
    Free chunk r.1 := by
  cases o with
  | ok newId => exact ok_ends hact hf hr h
  | partly => exact partly_ends hact hf h
  | fails => exact fail_ends hact hf hr h

/-- The first change of the rows and temporal chunks: the row is created, or
chunks are deleted. -/
theorem begins_at (hact : act chunk maxChunksInFlight f o st = some r)
    (hf : writing f = false) (hr : writing r.2 = true) :
    (∃ content, f = .create content) ∨ (∃ existing content, f = .wipe existing content) ∨
      ∃ id, f = .dropChunks id := by
  cases f with
  | create content => exact Or.inl ⟨content, rfl⟩
  | wipe existing content => exact Or.inr (Or.inl ⟨existing, content, rfl⟩)
  | dropChunks id => exact Or.inr (Or.inr ⟨id, rfl⟩)
  | settled _ =>
    cases o with
    | _ => cases hact
  | prepare _ _ | cascade _ | dropNodes _ =>
    cases o with
    | partly => cases hact
    | _ =>
      obtain rfl := Option.some.inj hact
      cases hr
  | lookup _ | relookup _ | find _ =>
    cases o with
    | partly => cases hact
    | fails =>
      obtain rfl := Option.some.inj hact
      cases hr
    | ok newId =>
      simp only [act, okAct] at hact
      split at hact
      · obtain rfl := Option.some.inj hact
        cases hr
      · obtain rfl := Option.some.inj hact
        cases hr
  | checksum _ =>
    cases o with
    | ok newId =>
      simp only [act, okAct] at hact
      split at hact
      · obtain rfl := Option.some.inj hact
        cases hr
      · obtain rfl := Option.some.inj hact
        cases hr
    | _ =>
      obtain rfl := Option.some.inj hact
      cases hr
  | _ => cases hf

/-- A call begins with the row it creates, with the chunks it deletes, or, when
deleting them failed, with marking the row. -/
theorem act_begins (hact : act chunk maxChunksInFlight f o st = some r)
    (hcur : current f o st) (hf : writing f = false) (hr : writing r.2 = true)
    (h : Free chunk st) : Holding chunk r.2 r.1 := by
  rcases begins_at hact hf hr with ⟨content, rfl⟩ | ⟨existing, content, rfl⟩ | ⟨id, rfl⟩
  · cases o with
    | ok newId =>
      simp only [act, okAct] at hact
      split at hact
      · rename_i hempty
        obtain rfl := Option.some.inj hact
        have hnone := noDocuments_no_chunks h.1 (List.isEmpty_iff.mp hempty)
        exact nextWindow_holding ⟨.pending, rfl⟩ (written_none hnone)
      · obtain rfl := Option.some.inj hact
        cases hr
    | partly => cases hact
    | fails =>
      obtain rfl := Option.some.inj hact
      cases hr
  · have hrow := rowOf_has h.1 hcur
    have howner := owner_of_row h.1 hrow
    cases o with
    | ok newId =>
      obtain rfl := Option.some.inj hact
      exact ⟨hrow, wiped howner⟩
    | partly => cases hact
    | fails =>
      obtain rfl := Option.some.inj hact
      exact ⟨hrow, howner⟩
  · cases o with
    | ok newId =>
      obtain rfl := Option.some.inj hact
      refine ⟨⟨h.1.1, fun c hc => h.1.2 c (List.mem_of_mem_filter hc)⟩, fun c hc => ?_⟩
      simpa using (List.mem_filter.mp hc).2
    | partly => cases hact
    | fails =>
      obtain rfl := Option.some.inj hact
      cases hr

end Writing

section Exclusion

variable [DecidableEq τ]

theorem contract (chunk : τ → List κ) (maxChunksInFlight : Option ℕ+) :
    Contract (protocol chunk maxChunksInFlight) current (Free chunk) (Holding chunk) where
  entry_idle := by
    intro f hf
    cases f with
    | lookup _ | find _ => rfl
    | _ => cases hf
  idle_free _ _ _ _ hact hcur hf hr h := (idle_act hact hcur hf hr).free h
  idle_holding _ _ _ _ _ hact hcur hf hr _ h := (idle_act hact hcur hf hr).holding h
  begins _ _ _ _ hact hcur hf hr h := act_begins hact hcur hf hr h
  continues _ _ _ _ hact _ hf hr h := act_continues hact hf hr h
  ends _ _ _ _ hact _ hf hr h := act_ends hact hf hr h

/-- In every run in which no call begins to write beside another, and each
still finds what it has read, the stores are as the last call says whenever all
have settled. -/
theorem replace_exact (chunk : τ → List κ) (maxChunksInFlight : Option ℕ+) (st : Stores τ κ)
    (hst : Free chunk st) (es : List (Event (Stage τ κ) Outcome))
    (hok : Machine.Meets (step (protocol chunk maxChunksInFlight))
      (Undisturbed (protocol chunk maxChunksInFlight) current)
      { store := st
        calls := [] } es) :
    Machine.Always (step (protocol chunk maxChunksInFlight)) (ExactWhenSettled chunk)
      { store := st
        calls := [] } es := by
  refine Machine.always_mono (fun w h hsettled => ?_) es _
    (always_free (contract chunk maxChunksInFlight) st hst es hok)
  refine (h (fun f hf => ?_)).2
  obtain ⟨r, rfl⟩ := hsettled f hf
  rfl

def unseen : Calls.World (Stores ℕ ℕ) (Stage ℕ ℕ) where
  store :=
    { documents := []
      chunks := []
      nodes := []
      last := none }
  calls := []

/-- The content `1` is remembered and gets the row `7`. -/
def firstRemember : List (Event (Stage ℕ ℕ) Outcome) :=
  Event.start (.lookup 1)::List.replicate 6 (.advance 0 (.ok 7))

/-- A second content replaces the first while a call to forget the row waits
with its deletions. -/
def replacedThenForgotten : List (Event (Stage ℕ ℕ) Outcome) :=
  firstRemember++[.start (.lookup 2), .start (.find 7), .advance 2 (.ok 0)]++
    List.replicate 8 (.advance 1 (.ok 0))++List.replicate 4 (.advance 2 (.ok 0))

theorem replaced_then_forgotten_exact :
    Machine.Always (step (protocol (fun n : ℕ => [n]) none)) (ExactWhenSettled (fun n : ℕ => [n]))
      unseen replacedThenForgotten :=
  replace_exact (fun n : ℕ => [n]) none unseen.store
    ⟨no_orphans_of_nothing rfl rfl, trivial⟩ replacedThenForgotten (by decide)

def bothReplace : List (Event (Stage ℕ ℕ) Outcome) :=
  firstRemember++[.start (.lookup 2), .start (.lookup 3)]++
    (List.replicate 8 [.advance 1 (.ok 0), .advance 2 (.ok 0)]).flatten

theorem both_contents_stay :
    ∃ w, Machine.run (step (protocol (fun n : ℕ => [n]) none)) unseen bothReplace = some w ∧
      w.store.documents = [⟨7, 3, .completed⟩] ∧ w.store.chunks = [⟨7, 2⟩, ⟨7, 3⟩] ∧
      ¬ ExactWhenSettled (fun n : ℕ => [n]) w := by
  refine ⟨_, rfl, by decide, by decide, fun h => ?_⟩
  obtain ⟨d, hd, hc⟩ := h (fun f hf => by
    fin_cases hf
    · exact ⟨_, rfl⟩
    · exact ⟨_, rfl⟩
    · exact ⟨_, rfl⟩)
  obtain rfl := List.singleton_inj.mp hd.symm
  exact absurd hc (by decide)

end Exclusion

end Uru.Ingest.Replace
