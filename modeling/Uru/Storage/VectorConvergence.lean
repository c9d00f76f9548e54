import Uru.Lib.Machine
import Uru.Storage.ChunkVectors

/-!
# When rows and vectors converge

As long as no deletion that found rows is stopped between its statement and
the end of its Lance delete, every vector belongs to a committed row, no row
has two, and every chunk whose creation has returned has the one of its own
content.
-/

set_option autoImplicit false

namespace Uru.Storage.ChunkVectors

open Uru.Lib

/-- No vector of a deleted document remains, and a chunk whose creation has
returned and which is in SQLite has exactly one vector, its own. -/
structure Converged (s : Store) : Prop where
  deleted : ∀ p ∈ s.deleted, ∀ v ∈ s.vectors, (v.documentId,v.namespaceId) ≠ p
  created : ∀ c ∈ s.created, c ∈ s.rows → s.vectors.filter (fun v => v.id = c.id) = [c.row]

def selects : Call → Chunk → Bool
  | .create _, _ => false
  | .deleteChunk id ns, c => c.id = id ∧ c.namespaceId = ns
  | .deleteDocument d ns, c => c.documentId = d ∧ c.namespaceId = ns

/-- The chunks given have embeddings and are in the namespace of their
document, and a deletion that finds rows is not stopped after its statement. -/
def Whole (owner : UUID → UUID) (s : Store) (e : Call × Outcome) : Prop :=
  (∀ batch, e.1 = .create batch → ∀ c ∈ batch,
    c.embedding ≠ [] ∧ c.namespaceId = owner c.documentId) ∧
  (s.rows.any (selects e.1) = true →
    e.2 = .ok ∨ e.2 = .crashBeforeCommit ∨ e.2 = .sqliteFails 0)

structure Inv (owner : UUID → UUID) (s : Store) : Prop where
  pending : ∃ cs, s.rows = s.committed++cs
  keys : (s.rows.map Chunk.id).Nodup
  owned : ∀ c ∈ s.rows, c.namespaceId = owner c.documentId
  backed : ∀ v ∈ s.vectors, ∃ c ∈ s.committed,
    c.id = v.id ∧ c.documentId = v.documentId ∧ c.namespaceId = v.namespaceId
  single : (s.vectors.map Vector.id).Nodup
  created : ∀ c ∈ s.created, c ∈ s.committed ∧ c.row ∈ s.vectors
  deleted : ∀ p ∈ s.deleted, ∀ c ∈ s.rows, (c.documentId,c.namespaceId) ≠ p

variable {owner : UUID → UUID}

theorem empty_inv : Inv owner empty where
  pending := ⟨[], rfl⟩
  keys := List.nodup_nil
  owned := fun _ hc => absurd hc List.not_mem_nil
  backed := fun _ hv => absurd hv List.not_mem_nil
  single := List.nodup_nil
  created := fun _ hc => absurd hc List.not_mem_nil
  deleted := fun _ hp => absurd hp List.not_mem_nil

theorem Inv.committed_subset {s : Store} (hs : Inv owner s) {c : Chunk} (hc : c ∈ s.committed) :
    c ∈ s.rows := by
  obtain ⟨cs, h⟩ := hs.pending
  exact h ▸ List.mem_append_left cs hc

theorem filter_eq_singleton {vs : List Vector} (hn : (vs.map Vector.id).Nodup) {v : Vector}
    (hv : v ∈ vs) : vs.filter (fun w => w.id = v.id) = [v] := by
  induction vs with
  | nil => exact absurd hv List.not_mem_nil
  | cons w vs ih =>
    obtain ⟨hw, hn⟩ := List.nodup_cons.mp hn
    rcases List.mem_cons.mp hv with rfl | hv
    · rw [List.filter_cons_of_pos (by simp), List.filter_eq_nil_iff.mpr]
      intro x hx
      have hne : x.id ≠ v.id := fun h => hw (List.mem_map.mpr ⟨x, hx, h⟩)
      simpa using hne
    · have hne : w.id ≠ v.id := fun h => hw (h ▸ List.mem_map_of_mem hv)
      rw [List.filter_cons_of_neg (by simpa using hne), ih hn hv]

theorem converged_of_inv (s : Store) (hs : Inv owner s) : Converged s := by
  refine ⟨fun p hp v hv h => ?_, fun c hc _ => ?_⟩
  · obtain ⟨c, hc, -, hd, hn⟩ := hs.backed v hv
    exact hs.deleted p hp c (hs.committed_subset hc) (by rw [hd, hn, h])
  · exact filter_eq_singleton hs.single (hs.created c hc).2

theorem insertable_prefix (rows batch : List Chunk) :
    ∃ k, insertable rows batch = batch.take k := by
  induction batch generalizing rows with
  | nil => exact ⟨0, rfl⟩
  | cons c cs ih =>
    rw [insertable]
    split
    · exact ⟨0, rfl⟩
    · obtain ⟨k, hk⟩ := ih (rows++[c])
      exact ⟨k+1, by rw [hk, List.take_succ_cons]⟩

theorem insertable_nodup {rows : List Chunk} (hn : (rows.map Chunk.id).Nodup)
    (batch : List Chunk) : ((rows++insertable rows batch).map Chunk.id).Nodup := by
  induction batch generalizing rows with
  | nil => simpa [insertable] using hn
  | cons c cs ih =>
    rw [insertable]
    split
    · simpa using hn
    next h =>
      have h1 : ((rows++[c]).map Chunk.id).Nodup := by
        rw [List.map_append, List.map_cons, List.map_nil]
        exact List.nodup_append.mpr ⟨hn, List.nodup_singleton _, fun a ha b hb => by
          rw [List.mem_singleton.mp hb]
          exact fun he => h (he ▸ ha)⟩
      simpa using ih h1

theorem inv_beginCreate {s : Store} (hs : Inv owner s) (batch : List Chunk) :
    Inv owner (s.beginCreate batch) :=
  { hs with deleted := fun p hp => hs.deleted p (List.mem_of_mem_filter hp) }

theorem inv_crash {s : Store} (hs : Inv owner s) : Inv owner s.crash where
  pending := ⟨[], (List.append_nil _).symm⟩
  keys := by
    obtain ⟨cs, h⟩ := hs.pending
    have hk := hs.keys
    rw [h, List.map_append] at hk
    exact (List.nodup_append.mp hk).1
  owned := fun c hc => hs.owned c (hs.committed_subset hc)
  backed := hs.backed
  single := hs.single
  created := hs.created
  deleted := fun p hp c hc => hs.deleted p hp c (hs.committed_subset hc)

theorem inv_commit {s : Store} (hs : Inv owner s) : Inv owner s.commit where
  pending := ⟨[], (List.append_nil _).symm⟩
  keys := hs.keys
  owned := hs.owned
  backed := fun v hv => by
    obtain ⟨c, hc, h⟩ := hs.backed v hv
    exact ⟨c, hs.committed_subset hc, h⟩
  single := hs.single
  created := fun c hc => by
    obtain ⟨hc, hm⟩ := List.mem_filter.mp hc
    have hm : c ∈ s.rows := by simpa using hm
    exact ⟨hm, (hs.created c hc).2⟩
  deleted := hs.deleted

/-- Rows of new keys are inserted, of documents that no deletion has taken. -/
theorem inv_insert {s : Store} (hs : Inv owner s) {cs : List Chunk}
    (hk : ((s.rows++cs).map Chunk.id).Nodup)
    (ho : ∀ c ∈ cs, c.namespaceId = owner c.documentId)
    (hd : ∀ p ∈ s.deleted, ∀ c ∈ cs, (c.documentId,c.namespaceId) ≠ p) :
    Inv owner (s.insert cs) where
  pending := by
    obtain ⟨ds, h⟩ := hs.pending
    exact ⟨ds++cs, by rw [Store.insert, h, List.append_assoc]⟩
  keys := hk
  owned := fun c hc => (List.mem_append.mp hc).elim (hs.owned c) (ho c)
  backed := hs.backed
  single := hs.single
  created := hs.created
  deleted := fun p hp c hc => (List.mem_append.mp hc).elim (hs.deleted p hp c) (hd p hp c)

theorem lanceRows_eq {batch : List Chunk} (he : ∀ c ∈ batch, c.embedding ≠ []) :
    lanceRows batch = batch.map Chunk.row := by
  rw [lanceRows, List.filter_eq_self.mpr]
  intro c hc
  simpa using he c hc

theorem inv_created {s : Store} (hs : Inv owner s) {batch : List Chunk}
    (hk : ((s.rows++batch).map Chunk.id).Nodup)
    (hb : ∀ c ∈ batch, c.embedding ≠ [] ∧ c.namespaceId = owner c.documentId)
    (hd : ∀ p ∈ s.deleted, ∀ c ∈ batch, (c.documentId,c.namespaceId) ≠ p) :
    Inv owner (((s.insert batch).commit.add (lanceRows batch)).returnCreate batch) := by
  have hs' := inv_commit (inv_insert hs hk (fun c hc => (hb c hc).2) hd)
  rw [lanceRows_eq (fun c hc => (hb c hc).1)]
  refine { hs' with backed := ?_, single := ?_, created := ?_ }
  · intro v hv
    rcases List.mem_append.mp hv with hv | hv
    · exact hs'.backed v hv
    · obtain ⟨c, hc, rfl⟩ := List.mem_map.mp hv
      exact ⟨c, List.mem_append_right _ hc, rfl, rfl, rfl⟩
  · show ((s.vectors++batch.map Chunk.row).map Vector.id).Nodup
    rw [List.map_append, List.map_map]
    rw [List.map_append] at hk
    obtain ⟨-, hbn, hdis⟩ := List.nodup_append.mp hk
    refine List.nodup_append.mpr ⟨hs.single, hbn, fun a ha b hb => ?_⟩
    obtain ⟨v, hv, rfl⟩ := List.mem_map.mp ha
    obtain ⟨c, hc, hid, -⟩ := hs.backed v hv
    exact hdis _ (hid ▸ List.mem_map_of_mem (hs.committed_subset hc)) b hb
  · intro c hc
    rcases List.mem_append.mp hc with hc | hc
    · exact ⟨List.mem_append_right _ hc, List.mem_append_right _ (List.mem_map_of_mem hc)⟩
    · obtain ⟨h1, h2⟩ := hs'.created c hc
      exact ⟨h1, List.mem_append_left _ h2⟩

theorem inv_create {s : Store} (hs : Inv owner s) {batch : List Chunk} (outcome : Outcome)
    (hb : ∀ c ∈ batch, c.embedding ≠ [] ∧ c.namespaceId = owner c.documentId) :
    Inv owner (createChunksBatch s batch outcome) := by
  have hs' := inv_beginCreate hs batch
  have hd : ∀ p ∈ (s.beginCreate batch).deleted, ∀ c ∈ batch,
      (c.documentId,c.namespaceId) ≠ p := by
    intro p hp c hc h
    have hn := (List.mem_filter.mp hp).2
    simp only [decide_eq_true_eq] at hn
    exact hn (List.mem_map.mpr ⟨c, hc, h⟩)
  have hfull := insertable_nodup hs'.keys batch
  have hprefix : ∀ k, ((s.beginCreate batch).rows++batch.take k |>.map Chunk.id).Nodup →
      Inv owner ((s.beginCreate batch).insert (batch.take k)) := fun k hk =>
    inv_insert hs' hk (fun c hc => (hb c (List.mem_of_mem_take hc)).2)
      (fun p hp c hc => hd p hp c (List.mem_of_mem_take hc))
  have hlance : batch ≠ [] → lanceRows batch ≠ [] := by
    rw [lanceRows_eq (fun c hc => (hb c hc).1)]
    simp
  unfold createChunksBatch
  simp only
  split_ifs with h1 h2 h3 h4
  · exact hs'
  · exact inv_crash hs'
  · obtain ⟨k, hk⟩ := insertable_prefix (s.beginCreate batch).rows batch
    rw [hk] at hfull ⊢
    exact hprefix k hfull
  · exact absurd h4 (hlance h1)
  · rw [not_not.mp h3] at hfull
    have hcommit := inv_commit (inv_insert hs' hfull (fun c hc => (hb c hc).2) hd)
    cases outcome with
    | ok => exact inv_created hs' hfull hb hd
    | sqliteFails k =>
      refine hprefix k (hfull.sublist (List.Sublist.map _ ?_))
      exact List.Sublist.append_left (List.take_sublist k batch) _
    | crashBeforeCommit => exact inv_crash hs'
    | crashAfterCommit => exact hcommit
    | openFails => exact hcommit
    | lanceFails => exact hcommit

/-- Rows and vectors go together. -/
theorem inv_deleted {s : Store} (hs : Inv owner s) {selected : Chunk → Bool}
    {doomed : Vector → Bool}
    (hagree : ∀ c ∈ s.rows, ∀ v : Vector, c.id = v.id → c.documentId = v.documentId →
      c.namespaceId = v.namespaceId → selected c = doomed v) :
    Inv owner ((s.delete selected).commit.drop doomed) where
  pending := ⟨[], (List.append_nil _).symm⟩
  keys := hs.keys.sublist (List.filter_sublist.map _)
  owned := fun c hc => hs.owned c (List.mem_of_mem_filter hc)
  backed := by
    intro v hv
    obtain ⟨hv, hn⟩ := List.mem_filter.mp hv
    obtain ⟨c, hc, hid, hd, hns⟩ := hs.backed v hv
    have hc := hs.committed_subset hc
    exact ⟨c, List.mem_filter.mpr ⟨hc, hagree c hc v hid hd hns ▸ hn⟩, hid, hd, hns⟩
  single := hs.single.sublist (List.filter_sublist.map _)
  created := by
    intro c hc
    obtain ⟨hc, hm⟩ := List.mem_filter.mp hc
    have hm : c ∈ (s.delete selected).rows := by simpa using hm
    obtain ⟨hr, hn⟩ := List.mem_filter.mp hm
    refine ⟨hm, List.mem_filter.mpr ⟨(hs.created c hc).2, ?_⟩⟩
    exact hagree c hr c.row rfl rfl rfl ▸ hn
  deleted := fun p hp c hc => hs.deleted p hp c (List.mem_of_mem_filter hc)

theorem delete_none {s : Store} {selected : Chunk → Bool} (h : s.rows.any selected = false) :
    s.delete selected = s := by
  rw [Store.delete, List.filter_eq_self.mpr]
  intro c hc
  simpa using List.any_eq_false.mp h c hc

/-- A deletion that is whole, when its vectors are those of its rows. -/
theorem inv_deleteWhere {A : Adapter} {s : Store} (hs : Inv owner s) {selected : Chunk → Bool}
    {doomed : Vector → Bool} {returned : Store → Store} {outcome : Outcome}
    (hagree : s.rows.any selected = true → ∀ c ∈ s.rows, ∀ v : Vector, c.id = v.id →
      c.documentId = v.documentId → c.namespaceId = v.namespaceId → selected c = doomed v)
    (hwhole : s.rows.any selected = true →
      outcome = .ok ∨ outcome = .crashBeforeCommit ∨ outcome = .sqliteFails 0)
    (hret : ∀ t, Inv owner t → (∀ c ∈ t.rows, selected c = false) → Inv owner (returned t)) :
    Inv owner (deleteWhere A s selected doomed returned outcome) := by
  have hgone : ∀ c ∈ (s.delete selected).rows, selected c = false := by
    intro c hc
    simpa using (List.mem_filter.mp hc).2
  cases hf : s.rows.any selected with
  | true =>
    rcases hwhole hf with rfl | rfl | rfl
    · simp only [deleteWhere, hf, if_true]
      exact hret _ (inv_deleted hs (hagree hf)) hgone
    · exact inv_crash hs
    · exact hs
  | false =>
    have hsame := delete_none hf
    rw [hsame] at hgone
    have hdone := hret _ (inv_commit hs) hgone
    cases outcome with
    | ok => simpa [deleteWhere, hf, hsame] using hdone
    | sqliteFails k =>
      simp only [deleteWhere, hsame, ite_self]
      exact hs
    | crashBeforeCommit => exact inv_crash hs
    | crashAfterCommit => simpa only [deleteWhere, hsame] using inv_commit hs
    | openFails => simpa [deleteWhere, hf, hsame] using hdone
    | lanceFails => simpa only [deleteWhere, hsame] using hdone

theorem inv_deleteChunk {A : Adapter} {s : Store} (hs : Inv owner s) {id ns : UUID}
    {outcome : Outcome} (hw : Whole owner s (.deleteChunk id ns,outcome)) :
    Inv owner (deleteChunk A s id ns outcome) := by
  refine inv_deleteWhere hs (fun hf c hc v hid _ _ => ?_) hw.2 (fun t ht _ => ht)
  obtain ⟨r, hr, hsel⟩ := List.any_eq_true.mp hf
  simp only [decide_eq_true_eq] at hsel
  by_cases h : c.id = id
  · have hcr : c = r := List.inj_on_of_nodup_map hs.keys hc hr (h.trans hsel.1.symm)
    simp [hcr, hsel, ← hid]
  · simp [h, ← hid]

theorem inv_deleteDocument {A : Adapter} {s : Store} (hs : Inv owner s) {d ns : UUID}
    {outcome : Outcome} (hw : Whole owner s (.deleteDocument d ns,outcome)) :
    Inv owner (deleteChunksByDocument A s d ns outcome) := by
  refine inv_deleteWhere hs (fun hf c hc v _ hd hn => ?_) hw.2 (fun t ht hgone => ?_)
  · obtain ⟨r, hr, hsel⟩ := List.any_eq_true.mp hf
    simp only [decide_eq_true_eq] at hsel
    by_cases h : c.documentId = d
    · have hcn : c.namespaceId = ns := by
        rw [hs.owned c hc, h, ← hsel.1, ← hs.owned r hr, hsel.2]
      simp [h, hcn, ← hd, ← hn]
    · simp [h, ← hd]
  · refine { ht with deleted := fun p hp c hc => ?_ }
    rcases List.mem_cons.mp hp with rfl | hp
    · intro h
      have hsel := hgone c hc
      simp only [decide_eq_false_iff_not] at hsel
      exact hsel ⟨congrArg Prod.fst h, congrArg Prod.snd h⟩
    · exact ht.deleted p hp c hc

theorem step_inv (A : Adapter) (s : Store) (e : Call × Outcome) (t : Store) (hs : Inv owner s)
    (hw : Whole owner s e) (ht : step A s e = some t) : Inv owner t := by
  obtain ⟨call, outcome⟩ := e
  cases call with
  | create batch =>
    obtain rfl := Option.some.inj ht
    exact inv_create hs outcome (hw.1 batch rfl)
  | deleteChunk id ns =>
    obtain rfl := Option.some.inj ht
    exact inv_deleteChunk hs hw
  | deleteDocument d ns =>
    obtain rfl := Option.some.inj ht
    exact inv_deleteDocument hs hw

/-- In every run whose deletions are whole, rows and vectors are converged in
every state. -/
theorem always_converged (A : Adapter) (owner : UUID → UUID) (es : List (Call × Outcome))
    (hm : Machine.Meets (step A) (Whole owner) empty es) :
    Machine.Always (step A) Converged empty es :=
  Machine.always_of_invariant (step_inv A) converged_of_inv es empty empty_inv hm

def firstChunk : Chunk where
  id := 1
  namespaceId := 5
  documentId := 9
  content := "text"
  embedding := [1]

theorem create_and_delete_converged :
    Machine.Always (step .temporal) Converged empty
      [(.create [firstChunk], .ok), (.deleteDocument 9 5, .crashBeforeCommit),
        (.deleteDocument 9 5, .ok)] := by
  refine always_converged .temporal (fun _ => 5) _ ?_
  refine ⟨⟨?_, fun h => absurd h (by decide)⟩, fun t ht => ⟨⟨?_, fun _ => .inr (.inl rfl)⟩,
    fun u hu => ⟨⟨?_, fun _ => .inl rfl⟩, fun _ _ => trivial⟩⟩⟩
  · intro batch hb c hc
    obtain rfl : [firstChunk] = batch := Call.create.inj hb
    rw [List.mem_singleton.mp hc]
    exact ⟨by decide, rfl⟩
  · exact fun batch hb => nomatch hb
  · exact fun batch hb => nomatch hb

/-- A crash between the commit of a deletion and its Lance delete: the retry
finds no rows, leaves Lance alone and returns. -/
theorem retried_deletion_leaves_vector :
    ¬ Machine.Always (step .temporal) Converged empty
      [(.create [firstChunk], .ok), (.deleteDocument 9 5, .crashAfterCommit),
        (.deleteDocument 9 5, .ok)] := by
  intro h
  have h := h.2 _ rfl
  have h := h.2 _ rfl
  have h : Converged _ := h.2 _ rfl
  exact h.deleted (9,5) (by decide) firstChunk.row (by decide) rfl

end Uru.Storage.ChunkVectors
