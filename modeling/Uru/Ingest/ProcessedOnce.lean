import Uru.Ingest.Delivery
import Uru.Lib.Calls

/-!
# When a document is processed once

Nothing at the queue or at its end looks at the status of a document, and a row
stays pending while a worker holds it. A document is processed once if it is
put in line only when it is not in the pool, has not been finished, and has
left no chunks but those that will be cleared.
-/

set_option autoImplicit false

namespace Uru.Ingest.SubmitBatch

open Uru.Lib

variable {ξ τ κ : Type*}

section Property

def processing : Worker ξ τ κ → Option UUID
  | .preparing h | .writing h _ _ | .completing h _ => some h.doc.id
  | _ => none

def Single (chunks : List (TemporalChunk κ)) : Prop :=
  ∀ c ∈ chunks, ∀ c' ∈ chunks, c.documentId = c'.documentId → c.taking = c'.taking

/-- Results add up, no finished document is taken through processing again, and
no document has chunks of two takings. -/
structure ExactlyOnce (s : Processor ξ τ κ) : Prop where
  delivered : Delivered s
  again : ∀ w ∈ s.pool.workers, ∀ id, processing w = some id → id ∉ s.store.finished
  single : Single s.store.chunks

end Property

section Condition

variable [DecidableEq ξ]

def registering (s : Processor ξ τ κ) (i : ℕ) (newId : UUID) (ok : Bool) :
    Option (Gathered ξ τ) :=
  (s.calls[i]?.bind (resume newId ok s.store)).bind (fun r =>
    match r.2 with
    | .registering _ g => some g
    | _ => none)

def entering (s : Processor ξ τ κ) : Event ξ τ → List Item
  | .resume i newId ok =>
    ((registering s i newId ok).map (batchItems s.batches.length)).getD []
  | .claim stale => orphanItems stale s.store
  | _ => []

def healed (s : Processor ξ τ κ) : Event ξ τ → List UUID
  | .resume i newId ok => ((registering s i newId ok).map Gathered.preFailedDocIds).getD []
  | _ => []

def Bare (st : Store ξ τ κ) (id : UUID) : Prop := ∀ c ∈ st.chunks, c.documentId ≠ id

/-- The document is nowhere in the pool, is not finished, and its chunks are
gone or will be cleared. -/
def Untouched (s : Processor ξ τ κ) (heal : List UUID) (it : Item) : Prop :=
  s.pool.tally itemOf (fun x => x.docId = it.docId) = 0 ∧ it.docId ∉ s.store.finished ∧
    (Bare s.store it.docId ∨ it.docId ∈ heal)

/-- Clearing fails only where there is nothing to clear. -/
def Clears (s : Processor ξ τ κ) : Event ξ τ → Prop
  | .advance i .fails =>
    match s.pool.workers[i]? with
    | some (.clearing h) => Bare s.store h.doc.id
    | _ => True
  | _ => True

def Fresh (s : Processor ξ τ κ) (e : Event ξ τ) : Prop :=
  ((entering s e).map Item.docId).Nodup ∧
    (∀ it ∈ entering s e, Untouched s (healed s e) it) ∧ Clears s e

instance (st : Store ξ τ κ) (id : UUID) : Decidable (Bare st id) :=
  inferInstanceAs (Decidable (∀ c ∈ st.chunks, c.documentId ≠ id))

instance (s : Processor ξ τ κ) (heal : List UUID) (it : Item) : Decidable (Untouched s heal it) :=
  inferInstanceAs (Decidable (_ ∧ _ ∧ (_ ∨ _)))

instance (s : Processor ξ τ κ) (e : Event ξ τ) : Decidable (Clears s e) := by
  unfold Clears
  split
  · split <;> infer_instance
  · infer_instance

instance (s : Processor ξ τ κ) (e : Event ξ τ) : Decidable (Fresh s e) :=
  inferInstanceAs (Decidable (_ ∧ _ ∧ _))

end Condition

section Stages

/-- Nothing is left of the document, or the batch of the item clears it. -/
def Ready (batches : List (Registration ξ)) (st : Store ξ τ κ) (it : Item) : Prop :=
  Bare st it.docId ∨ it.docId ∈ preFailedDocIds batches it

def Stage (batches : List (Registration ξ)) (st : Store ξ τ κ) : Worker ξ τ κ → Prop
  | .loading it => Ready batches st it
  | .waiting h => Ready batches st h.item
  | .preparing h => Bare st h.item.docId
  | .writing h taking _ | .completing h taking =>
    taking < st.takings ∧ ∀ c ∈ st.chunks, c.documentId = h.item.docId → c.taking = taking
  | _ => True

def Sane (st : Store ξ τ κ) : Prop := (∀ c ∈ st.chunks, c.taking < st.takings) ∧ Single st.chunks

structure WorkKeeps (batches : List (Registration ξ)) (it : Item) (st : Store ξ τ κ)
    (r : Work ξ τ κ) : Prop where
  stage : Stage batches r.1 r.2.1
  sane : Sane r.1
  outside : ∀ c ∈ r.1.chunks, c.documentId ≠ it.docId → c ∈ st.chunks
  takings : st.takings ≤ r.1.takings
  finished : ∀ d ∈ r.1.finished, d ∈ st.finished ∨ (d = it.docId ∧ r.2.1 = .idle)

variable {batches : List (Registration ξ)} {st st' : Store ξ τ κ} {it : Item}
variable {w : Worker ξ τ κ} {o : Outcome} {r : Work ξ τ κ} {h : Held ξ τ}
variable {success skipped : Bool} {externalId : Option ξ}

/-- The store is as it was, up to its rows. -/
theorem keeps_rows (hs : Sane st) (hc : st'.chunks = st.chunks) (ht : st'.takings = st.takings)
    (hf : st'.finished = st.finished) (hw : Stage batches st w) (result : Option (DocumentResult ξ)) :
    WorkKeeps batches it st (st', w, result) where
  stage := by
    cases w with
    | loading _ | waiting _ | preparing _ | writing _ _ _ | completing _ _ =>
      simpa only [Stage, Ready, Bare, hc, ht] using hw
    | _ => trivial
  sane := by
    rw [Sane, hc, ht]
    exact hs
  outside c hmem _ := hc ▸ hmem
  takings := ht.ge
  finished d hd := Or.inl (hf ▸ hd)

theorem keeps_goOn (hs : Sane st) (hr : goOn st w = some r) (hw : Stage batches st w) :
    WorkKeeps batches it st r := by
  obtain rfl := Option.some.inj hr
  exact keeps_rows hs rfl rfl rfl hw none

theorem keeps_report (hs : Sane st) (hr : report st' it success skipped externalId = some r)
    (hc : st'.chunks = st.chunks) (ht : st'.takings = st.takings)
    (hf : st'.finished = st.finished) :
    WorkKeeps batches it st r := by
  obtain rfl := Option.some.inj hr
  exact keeps_rows (w := .idle) hs hc ht hf trivial _

theorem keeps_load (hs : Sane st) (hst : Stage batches st (.loading it))
    (hr : load it o st = some r) : WorkKeeps batches it st r := by
  cases o with
  | ok =>
    simp only [load] at hr
    split at hr
    · exact keeps_goOn hs hr hst
    · exact keeps_report hs hr rfl rfl rfl
  | fails => exact keeps_report hs hr rfl rfl rfl
  | partly => cases hr

theorem keeps_enter {staged : Bool} (hs : Sane st) (hst : Stage batches st (.waiting h))
    (hr : enter staged (preFailedDocIds batches h.item) h o st = some r) :
    WorkKeeps batches h.item st r := by
  cases o with
  | ok =>
    simp only [enter] at hr
    split at hr
    · split at hr
      · exact keeps_goOn hs hr trivial
      · rename_i hclear
        refine keeps_goOn hs hr (hst.resolve_right ?_)
        rwa [← h.same]
    · split at hr
      · exact keeps_goOn hs hr trivial
      · exact keeps_report hs hr rfl rfl rfl
  | _ => cases hr

theorem keeps_clear (hs : Sane st) (hfails : o = .fails → Bare st h.doc.id)
    (hr : clear h o st = some r) : WorkKeeps batches h.item st r := by
  cases o with
  | ok =>
    obtain rfl := Option.some.inj hr
    have hsub : ∀ c ∈ (deleteChunksByDocument h.doc.id st).chunks, c ∈ st.chunks :=
      fun c hc => List.mem_of_mem_filter hc
    exact
      { stage := by
          intro c hc
          rw [← h.same]
          simpa using (List.mem_filter.mp hc).2
        sane := ⟨fun c hc => hs.1 c (hsub c hc),
          fun c hc c' hc' => hs.2 c (hsub c hc) c' (hsub c' hc')⟩
        outside := fun c hc _ => hsub c hc
        takings := le_rfl
        finished := fun d hd => Or.inl hd }
  | fails =>
    refine keeps_goOn hs hr ?_
    rw [Stage, ← h.same]
    exact hfails rfl
  | partly => cases hr

theorem stage_nextWindow {taking : ℕ} {rest : List κ}
    (hst : taking < st.takings ∧
      ∀ c ∈ st.chunks, c.documentId = h.item.docId → c.taking = taking) :
    Stage batches st (nextWindow h taking rest) := by
  rw [nextWindow]
  split
  · exact hst
  · exact hst

/-- A taking begins with no chunk of the document in the store. -/
theorem keeps_prepare {chunk : τ → List κ} (hs : Sane st) (hst : Stage batches st (.preparing h))
    (hr : prepare chunk h o st = some r) : WorkKeeps batches h.item st r := by
  cases o with
  | ok =>
    obtain rfl := Option.some.inj hr
    exact
      { stage := stage_nextWindow ⟨Nat.lt_succ_self _, fun c hc hd => absurd hd (hst c hc)⟩
        sane := ⟨fun c hc => Nat.lt_succ_of_lt (hs.1 c hc), hs.2⟩
        outside := fun c hc _ => hc
        takings := Nat.le_succ _
        finished := fun d hd => Or.inl hd }
  | fails => exact keeps_goOn hs hr trivial
  | partly =>
    simp only [prepare] at hr
    split at hr
    · exact keeps_goOn hs hr trivial
    · exact keeps_report hs hr rfl rfl rfl

/-- The window is of the taking of which all chunks of the document are. -/
theorem keeps_window {taking : ℕ} (hs : Sane st) (texts : List κ)
    (hst : taking < st.takings ∧
      ∀ c ∈ st.chunks, c.documentId = h.item.docId → c.taking = taking)
    (hw : ∀ st' : Store ξ τ κ, (taking < st'.takings ∧
      ∀ c ∈ st'.chunks, c.documentId = h.item.docId → c.taking = taking) → Stage batches st' w) :
    WorkKeeps batches h.item st (createChunksBatch h.doc.id taking texts st, w, none) := by
  have hmem : ∀ c ∈ (createChunksBatch h.doc.id taking texts st).chunks,
      c ∈ st.chunks ∨ (c.documentId = h.item.docId ∧ c.taking = taking) := by
    intro c hc
    rcases List.mem_append.mp hc with hold | hnew
    · exact Or.inl hold
    · obtain ⟨x, -, rfl⟩ := List.mem_map.mp hnew
      exact Or.inr ⟨h.same, rfl⟩
  have htaking : ∀ c ∈ (createChunksBatch h.doc.id taking texts st).chunks,
      c.documentId = h.item.docId → c.taking = taking := by
    intro c hc hd
    rcases hmem c hc with hold | ⟨-, ht⟩
    · exact hst.2 c hold hd
    · exact ht
  exact
    { stage := hw _ ⟨hst.1, htaking⟩
      sane := by
        refine ⟨fun c hc => ?_, fun c hc c' hc' hd => ?_⟩
        · rcases hmem c hc with hold | ⟨-, ht⟩
          · exact hs.1 c hold
          · exact ht ▸ hst.1
        · by_cases hdoc : c.documentId = h.item.docId
          · rw [htaking c hc hdoc, htaking c' hc' (hd ▸ hdoc)]
          · exact hs.2 c ((hmem c hc).resolve_right (fun hn => hdoc hn.1)) c'
              ((hmem c' hc').resolve_right (fun hn => hdoc (hd ▸ hn.1))) hd
      outside := fun c hc hd => (hmem c hc).resolve_right (fun hn => hd hn.1)
      takings := le_rfl
      finished := fun d hd => Or.inl hd }

theorem keeps_write {config : Option ℕ+} {taking : ℕ} {rest : List κ} (hs : Sane st)
    (hst : Stage batches st (.writing h taking rest))
    (hr : write config h taking rest o st = some r) : WorkKeeps batches h.item st r := by
  cases o with
  | ok =>
    obtain rfl := Option.some.inj hr
    exact keeps_window hs _ hst (fun st' hst' => stage_nextWindow hst')
  | partly =>
    obtain rfl := Option.some.inj hr
    exact keeps_window hs _ hst (fun _ _ => trivial)
  | fails => exact keeps_goOn hs hr trivial

theorem keeps_complete (hs : Sane st) (hr : complete h o st = some r) :
    WorkKeeps batches h.item st r := by
  cases o with
  | ok =>
    obtain rfl := Option.some.inj hr
    exact
      { stage := trivial
        sane := hs
        outside := fun c hc _ => hc
        takings := le_rfl
        finished := by
          intro d hd
          rcases List.mem_append.mp hd with hold | hnew
          · exact Or.inl hold
          · exact Or.inr ⟨(List.mem_singleton.mp hnew).trans h.same, rfl⟩ }
  | fails => exact keeps_goOn hs hr trivial
  | partly => cases hr

theorem keeps_markFailed (hs : Sane st) (hr : markFailed h o st = some r) :
    WorkKeeps batches h.item st r := by
  cases o with
  | ok => exact keeps_report hs hr rfl rfl rfl
  | fails => exact keeps_report hs hr rfl rfl rfl
  | partly => cases hr

theorem keeps_work {staged : Bool} {chunk : τ → List κ} {config : Option ℕ+} (hs : Sane st)
    (hit : itemOf w = some it) (hst : Stage batches st w)
    (hclear : o = .fails → ∀ h, w = .clearing h → Bare st h.doc.id)
    (hr : work staged chunk config (preFailedDocIds batches it) o st w = some r) :
    WorkKeeps batches it st r := by
  cases w with
  | idle => cases hr
  | loading _ =>
    obtain rfl := Option.some.inj hit
    exact keeps_load hs hst hr
  | waiting _ =>
    obtain rfl := Option.some.inj hit
    exact keeps_enter hs hst hr
  | clearing h =>
    obtain rfl := Option.some.inj hit
    exact keeps_clear hs (fun ho => hclear ho h rfl) hr
  | preparing _ =>
    obtain rfl := Option.some.inj hit
    exact keeps_prepare hs hst hr
  | writing _ _ _ =>
    obtain rfl := Option.some.inj hit
    exact keeps_write hs hst hr
  | completing _ _ =>
    obtain rfl := Option.some.inj hit
    exact keeps_complete hs hr
  | marking _ | abandoning _ =>
    obtain rfl := Option.some.inj hit
    exact keeps_markFailed hs hr

/-- What a worker may rely on is kept by whatever adds no chunk of its document
and takes no document back from a batch. -/
theorem stage_mono {batches' : List (Registration ξ)}
    (hc : ∀ it, itemOf w = some it → ∀ c ∈ st'.chunks, c.documentId = it.docId → c ∈ st.chunks)
    (ht : st.takings ≤ st'.takings)
    (hb : ∀ it id, id ∈ preFailedDocIds batches it → id ∈ preFailedDocIds batches' it)
    (hst : Stage batches st w) : Stage batches' st' w := by
  have hbare : ∀ it, itemOf w = some it → Bare st it.docId → Bare st' it.docId :=
    fun it hit hbare c hmem hd => hbare c (hc it hit c hmem hd) hd
  cases w with
  | loading it => exact hst.imp (hbare it rfl) (hb it _)
  | waiting h => exact hst.imp (hbare h.item rfl) (hb h.item _)
  | preparing h => exact hbare h.item rfl hst
  | writing h taking _ | completing h taking =>
    exact ⟨Nat.lt_of_lt_of_le hst.1 ht,
      fun c hmem hd => hst.2 c (hc h.item rfl c hmem hd) hd⟩
  | _ => trivial

theorem mem_preFailed_append (batches more : List (Registration ξ)) (it : Item) (id : UUID)
    (h : id ∈ preFailedDocIds batches it) : id ∈ preFailedDocIds (batches++more) it := by
  rw [preFailedDocIds] at h ⊢
  split at h
  · rename_i reg hreg
    obtain ⟨b, hb, hget⟩ := Option.bind_eq_some_iff.mp hreg
    rw [hb, Option.bind_some, List.getElem?_append_left (List.getElem?_eq_some_iff.mp hget).1, hget]
    exact h
  · cases h

theorem mem_preFailed_fire (batches : List (Registration ξ)) (x it : Item)
    (r : DocumentResult ξ) (id : UUID) (h : id ∈ preFailedDocIds batches it) :
    id ∈ preFailedDocIds (fire batches x r) it := by
  rw [fire]
  split
  · rename_i c hc
    rw [preFailedDocIds] at h ⊢
    split at h
    · rename_i reg hreg
      obtain ⟨b, hb, hget⟩ := Option.bind_eq_some_iff.mp hreg
      rw [hb, Option.bind_some, List.getElem?_modify, hget]
      dsimp only [Option.map_eq_map, Option.map_some]
      split
      · exact h
      · exact h
    · cases h
  · exact h

end Stages

section Invariant

/-- No document is in the pool twice, none is there that is finished, and every
worker finds in the store what it relies on. -/
structure Sole (s : Processor ξ τ κ) : Prop where
  one : ∀ d, s.pool.tally itemOf (fun x => x.docId = d) ≤ 1
  unfinished : ∀ d ∈ s.store.finished, s.pool.tally itemOf (fun x => x.docId = d) = 0
  sane : Sane s.store
  queued : ∀ it, it ∈ s.pool.pages.flatten ∨ it ∈ s.pool.queue → Ready s.batches s.store it
  stages : ∀ w ∈ s.pool.workers, Stage s.batches s.store w

variable {s t : Processor ξ τ κ} {i : ℕ} {it : Item} {w : Worker ξ τ κ} {o : Outcome}

theorem processing_item {id : UUID} (h : processing w = some id) :
    ∃ it, itemOf w = some it ∧ it.docId = id := by
  cases w with
  | preparing h' | writing h' _ _ | completing h' _ =>
    obtain rfl := Option.some.inj h
    exact ⟨h'.item, rfl, h'.same.symm⟩
  | _ => cases h

theorem exactly_once_of_sole (hd : Delivering s) (h : Sole s) : ExactlyOnce s where
  delivered := delivered_of_delivering hd
  again := by
    intro w hw id hid hfin
    obtain ⟨it, hit, rfl⟩ := processing_item hid
    obtain ⟨i, hi⟩ := List.mem_iff_getElem?.mp hw
    have hpos := Pool.tally_pos_of_worker itemOf (p := fun x => x.docId = it.docId) hi
      (by simp [hit])
    have hzero := h.unfinished _ hfin
    omega
  single := h.sane.2

/-- New items of documents that are not in the pool. -/
theorem tally_entering {P Q : Pool Item (Worker ξ τ κ)} {items : List Item}
    (htally : ∀ p, Q.tally itemOf p = P.tally itemOf p+items.countP p)
    (hnodup : (items.map Item.docId).Nodup)
    (hzero : ∀ x ∈ items, P.tally itemOf (fun y => y.docId = x.docId) = 0)
    (hone : ∀ d, P.tally itemOf (fun x => x.docId = d) ≤ 1) (d : UUID) :
    Q.tally itemOf (fun x => x.docId = d) ≤ 1 := by
  have hcount : items.countP (fun x => x.docId = d) = (items.map Item.docId).count d := by
    rw [List.count, List.countP_map]
    rfl
  rw [htally, hcount]
  by_cases hd : d ∈ items.map Item.docId
  · obtain ⟨x, hx, rfl⟩ := List.mem_map.mp hd
    rw [hzero x hx, List.count_eq_one_of_mem hnodup hd]
  · rw [List.count_eq_zero_of_not_mem hd]
    exact hone d

/-- Documents are put in line; apart from its rows the store is as it was. -/
theorem sole_enter (h : Sole s) (items : List Item) (heal : List UUID)
    (hworkers : t.pool.workers = s.pool.workers)
    (hmem : ∀ x, x ∈ t.pool.pages.flatten ∨ x ∈ t.pool.queue →
      (x ∈ s.pool.pages.flatten ∨ x ∈ s.pool.queue) ∨ x ∈ items)
    (htally : ∀ p, t.pool.tally itemOf p = s.pool.tally itemOf p+items.countP p)
    (hc : t.store.chunks = s.store.chunks) (ht : t.store.takings = s.store.takings)
    (hf : t.store.finished = s.store.finished)
    (hb : ∀ it id, id ∈ preFailedDocIds s.batches it → id ∈ preFailedDocIds t.batches it)
    (hnodup : (items.map Item.docId).Nodup) (hnew : ∀ x ∈ items, Untouched s heal x)
    (hheal : ∀ x ∈ items, x.docId ∈ heal → x.docId ∈ preFailedDocIds t.batches x) :
    Sole t where
  one := tally_entering htally hnodup (fun x hx => (hnew x hx).1) h.one
  unfinished := by
    intro d hd
    rw [hf] at hd
    rw [htally, h.unfinished d hd, Nat.zero_add]
    refine List.countP_eq_zero.mpr (fun x hx hxd => (hnew x hx).2.1 ?_)
    rwa [of_decide_eq_true hxd]
  sane := by
    rw [Sane, hc, ht]
    exact h.sane
  queued := by
    intro x hx
    rw [Ready, Bare, hc]
    rcases hmem x hx with hold | hitem
    · exact (h.queued x hold).imp id (hb x _)
    · exact (hnew x hitem).2.2.imp id (hheal x hitem)
  stages := by
    intro w hw
    rw [hworkers] at hw
    exact stage_mono (fun _ _ c hmem _ => hc ▸ hmem) ht.ge hb (h.stages w hw)

/-- Nothing changed but rows and calls. -/
theorem sole_congr (h : Sole s) (hp : t.pool = s.pool) (hb : t.batches = s.batches)
    (hc : t.store.chunks = s.store.chunks) (ht : t.store.takings = s.store.takings)
    (hf : t.store.finished = s.store.finished) : Sole t := by
  refine sole_enter h [] [] (by rw [hp]) ?_ (fun p => by rw [hp]; rfl) hc ht hf
    ?_ List.nodup_nil ?_ ?_
  · rw [hp]
    exact fun x hx => Or.inl hx
  · rw [hb]
    exact fun _ _ hid => hid
  · intro x hx
    cases hx
  · intro x hx
    cases hx

/-- A page reaches the queue. -/
theorem sole_enqueue (h : Sole s) {page : ℕ} {pool : Pool Item (Worker ξ τ κ)}
    (hpool : s.pool.release page = some pool) : Sole { s with pool := pool } := by
  have htally := fun p => Pool.tally_release itemOf (p := p) hpool
  obtain ⟨items, hi, rfl⟩ := Option.map_eq_some_iff.mp hpool
  exact
    { one := fun d => (htally _).trans_le (h.one d)
      unfinished := fun d hd => (htally _).trans (h.unfinished d hd)
      sane := h.sane
      queued := by
        intro x hx
        refine h.queued x ?_
        rcases hx with hx | hx
        · obtain ⟨l, hl, hxl⟩ := List.mem_flatten.mp hx
          exact Or.inl (List.mem_flatten.mpr ⟨l, List.mem_of_mem_eraseIdx hl, hxl⟩)
        · rcases List.mem_append.mp hx with hold | hnew
          · exact Or.inr hold
          · exact Or.inl (List.mem_flatten.mpr ⟨items, List.mem_of_getElem? hi, hnew⟩)
      stages := h.stages }

/-- An idle worker takes the head of the queue. -/
theorem sole_take (h : Sole s) (hw : s.pool.workers[i]? = some .idle)
    {pool : Pool Item (Worker ξ τ κ)} (hpool : s.pool.take i .loading = some pool) :
    Sole { s with pool := pool } := by
  have htally := fun p => Pool.tally_take itemOf (p := p) (fun _ => rfl) hw rfl hpool
  rw [Pool.take] at hpool
  split at hpool
  · cases hpool
  · rename_i x xs hq
    obtain rfl := Option.some.inj hpool
    exact
      { one := fun d => (htally _).trans_le (h.one d)
        unfinished := fun d hd => (htally _).trans (h.unfinished d hd)
        sane := h.sane
        queued := by
          intro y hy
          refine h.queued y (hy.imp id (fun hy => ?_))
          rw [hq]
          exact List.mem_cons_of_mem x hy
        stages := by
          intro w hw
          rcases List.mem_or_eq_of_mem_set hw with hold | rfl
          · exact h.stages w hold
          · refine h.queued x (Or.inr ?_)
            rw [hq]
            exact List.mem_cons_self }

/-- What a worker changes in the store is of its own document, which is nowhere
else in the pool. -/
theorem sole_work (h : Sole s) (hw : s.pool.workers[i]? = some w) (hit : itemOf w = some it)
    {r : Work ξ τ κ} (hr : WorkKeeps s.batches it s.store r) (hpass : Passes it r)
    {batches : List (Registration ξ)}
    (hb : ∀ x id, id ∈ preFailedDocIds s.batches x → id ∈ preFailedDocIds batches x) :
    Sole
      { s with
        store := r.1
        pool := s.pool.set i r.2.1
        batches := batches } := by
  have hle : ∀ p : Item → Bool, (s.pool.set i r.2.1).tally itemOf p ≤ s.pool.tally itemOf p := by
    intro p
    rcases hpass with ⟨hkeep, -⟩ | ⟨hidle, -⟩
    · exact (Pool.tally_keep hw (hkeep.trans hit.symm)).le
    · have := Pool.tally_let_go (p := p) hw hit (v := r.2.1) (by rw [hidle]; rfl)
      omega
  have halone := Pool.alone_of_worker itemOf (p := fun x => x.docId = it.docId)
    (h.one it.docId) hw (by simp [hit])
  have hkept : ∀ x : Item, x.docId ≠ it.docId → ∀ c ∈ r.1.chunks, c.documentId = x.docId →
      c ∈ s.store.chunks := fun x hx c hc hd => hr.outside c hc (hd ▸ hx)
  exact
    { one := fun d => (hle _).trans (h.one d)
      unfinished := by
        intro d hd
        rcases hr.finished d hd with hold | ⟨rfl, hidle⟩
        · exact Nat.le_zero.mp ((hle _).trans (h.unfinished d hold).le)
        · have hgo := Pool.tally_let_go (p := fun x => x.docId = it.docId) hw hit (v := r.2.1)
            (by rw [hidle]; rfl)
          have hone := h.one it.docId
          simp only [decide_true, if_true] at hgo
          dsimp only
          omega
      sane := hr.sane
      queued := by
        intro x hx
        have hne : x.docId ≠ it.docId := by
          intro he
          rcases hx with hx | hx
          · exact of_decide_eq_false (halone.1 x hx) he
          · exact of_decide_eq_false (halone.2.1 x hx) he
        exact (h.queued x hx).imp (fun hbare c hc hd => hbare c (hkept x hne c hc hd) hd) (hb x _)
      stages := by
        intro v hv
        obtain ⟨j, hj⟩ := List.mem_iff_getElem?.mp hv
        rcases Calls.getElem?_set_cases hj with ⟨-, rfl⟩ | ⟨hne, hold⟩
        · exact stage_mono (fun _ _ _ hc _ => hc) le_rfl hb hr.stage
        · refine stage_mono (fun x hx => hkept x (fun he => ?_)) hr.takings hb
            (h.stages v (List.mem_of_getElem? hold))
          exact hne (halone.2.2 j v hold (by simp [hx, he])) }

theorem sole_forget (h : Sole s) (id : UUID) :
    Sole { s with store := forgetDocument id s.store } := by
  have hsub : ∀ c ∈ (forgetDocument id s.store).chunks, c ∈ s.store.chunks :=
    fun c hc => List.mem_of_mem_filter hc
  exact
    { one := h.one
      unfinished := h.unfinished
      sane := ⟨fun c hc => h.sane.1 c (hsub c hc),
        fun c hc c' hc' => h.sane.2 c (hsub c hc) c' (hsub c' hc')⟩
      queued := fun x hx => (h.queued x hx).imp (fun hb c hc => hb c (hsub c hc)) (fun hid => hid)
      stages := fun w hw =>
        stage_mono (fun _ _ c hc _ => hsub c hc) le_rfl (fun _ _ hid => hid) (h.stages w hw) }

end Invariant

section Runs

variable {staged : Bool} {chunk : τ → List κ} {config : Option ℕ+}
variable {s t : Processor ξ τ κ} {i : ℕ} {w : Worker ξ τ κ} {o : Outcome}

theorem sole_register (h : Sole s) (call : Call ξ τ) (g : Gathered ξ τ)
    (hnodup : ((batchItems s.batches.length g).map Item.docId).Nodup)
    (hnew : ∀ x ∈ batchItems s.batches.length g, Untouched s g.preFailedDocIds x) :
    Sole (register call g s) := by
  refine sole_enter h (batchItems s.batches.length g) g.preFailedDocIds rfl ?_ (fun p => Pool.tally_put _) rfl rfl rfl
    (mem_preFailed_append _ _) hnodup hnew ?_
  · rintro x (hx | hx)
    · exact Or.inl (Or.inl hx)
    · exact (List.mem_append.mp hx).imp Or.inr id
  · intro x hx hid
    obtain ⟨id, -, rfl⟩ := List.mem_map.mp hx
    rw [preFailedDocIds, Option.bind_some, register, List.getElem?_concat_length]
    dsimp only
    rw [(registration_spec call g).2.2.1]
    exact hid

def started (documents : List (Document ξ τ)) (chunks : List (TemporalChunk κ)) (takings : ℕ)
    (workers : ℕ) : Processor ξ τ κ where
  store :=
    { documents := documents
      chunks := chunks
      takings := takings
      finished := [] }
  pool :=
    { pages := []
      queue := []
      workers := List.replicate workers .idle }
  batches := []
  calls := []

theorem tally_started (documents : List (Document ξ τ)) (chunks : List (TemporalChunk κ))
    (takings workers : ℕ) (p : Item → Bool) :
    (started documents chunks takings workers).pool.tally itemOf p = 0 := by
  have hempty : ¬ 0 < (started documents chunks takings workers).pool.tally itemOf p := by
    rw [Pool.tally_pos_iff]
    rintro ⟨x, hx | hx | ⟨w, hw, hx⟩, -⟩
    · cases hx
    · cases hx
    · rw [List.eq_of_mem_replicate hw] at hx
      cases hx
  omega

theorem delivering_started (documents : List (Document ξ τ)) (chunks : List (TemporalChunk κ))
    (takings workers : ℕ) : Delivering (started documents chunks takings workers) where
  accounted b reg hreg := by cases hreg
  registered b _ := tally_started documents chunks takings workers _

theorem sole_started (documents : List (Document ξ τ)) (chunks : List (TemporalChunk κ))
    (takings workers : ℕ) (hs : Sane (started documents chunks takings workers).store) :
    Sole (started documents chunks takings workers) where
  one d := (tally_started documents chunks takings workers _).trans_le (Nat.zero_le 1)
  unfinished d hd := by cases hd
  sane := hs
  queued := by
    rintro it (hit | hit)
    · cases hit
    · cases hit
  stages := by
    intro w hw
    rw [List.eq_of_mem_replicate hw]
    trivial

variable [DecidableEq ξ]

/-- A call of `submit_batch` changes rows. -/
theorem resume_store {st : Store ξ τ κ} {newId : UUID} {ok : Bool} {sub : Submission ξ τ}
    {r : Store ξ τ κ × Submission ξ τ} (hr : resume newId ok st sub = some r) :
    r.1.chunks = st.chunks ∧ r.1.takings = st.takings ∧ r.1.finished = st.finished := by
  cases sub with
  | lookingUp call =>
    obtain rfl := Option.some.inj hr
    exact ⟨rfl, rfl, rfl⟩
  | updating call document g =>
    simp only [resume] at hr
    split at hr
    · obtain rfl := Option.some.inj hr
      exact ⟨rfl, rfl, rfl⟩
    · obtain rfl := Option.some.inj hr
      exact ⟨rfl, rfl, rfl⟩
  | creating call input g =>
    simp only [resume] at hr
    split at hr
    · rename_i st' hst'
      obtain rfl := Option.some.inj hr
      split at hst'
      · rw [createDocument] at hst'
        split at hst'
        · cases hst'
        · obtain rfl := Option.some.inj hst'
          exact ⟨rfl, rfl, rfl⟩
      · cases hst'
    · obtain rfl := Option.some.inj hr
      exact ⟨rfl, rfl, rfl⟩
  | registering _ _ => cases hr
  | returned => cases hr

/-- The call registers what the condition is about, or only goes on. -/
theorem sole_resume (h : Sole s) {newId : UUID} {ok : Bool}
    (hok : Fresh s (.resume i newId ok))
    (ht : step staged chunk config s (.resume i newId ok) = some t) : Sole t := by
  obtain ⟨sub, hsub, hr⟩ := Option.bind_eq_some_iff.mp ht
  obtain ⟨r, hresume, rfl⟩ := Option.map_eq_some_iff.mp hr
  obtain ⟨hc, htak, hf⟩ := resume_store hresume
  have hs : Sole { s with store := r.1 } := sole_congr h rfl rfl hc htak hf
  obtain ⟨st, next⟩ := r
  cases next with
  | registering call g =>
    have hg : registering s i newId ok = some g := by
      rw [registering, hsub, Option.bind_some, hresume]
      rfl
    simp only [Fresh, entering, healed, hg, Option.map_some, Option.getD_some] at hok
    refine sole_congr (sole_register (s := { s with store := st }) hs call g hok.1 ?_)
      rfl rfl rfl rfl rfl
    intro x hx
    have hx := hok.2.1 x hx
    dsimp only at hc hf
    rw [Untouched, Bare, ← hc, ← hf] at hx
    exact hx
  | _ => exact sole_congr hs rfl rfl rfl rfl rfl

theorem sole_advance (h : Sole s) (hok : Fresh s (.advance i o))
    (hw : s.pool.workers[i]? = some w) (ht : advance staged chunk config i w o s = some t) :
    Sole t := by
  rw [advance] at ht
  split at ht
  · cases ht
  · rename_i it hit
    split at ht
    · obtain ⟨r, hr, rfl⟩ := Option.map_eq_some_iff.mp ht
      have hclear : o = .fails → ∀ h, w = .clearing h → Bare s.store h.doc.id := by
        rintro rfl h' rfl
        have := hok.2.2
        rw [Clears, hw] at this
        exact this
      refine sole_work h hw hit
        (keeps_work h.sane hit (h.stages w (List.mem_of_getElem? hw)) hclear hr)
        (passes_work hit hr) (fun x id hid => ?_)
      split
      · exact mem_preFailed_fire _ _ _ _ _ hid
      · exact hid
    · cases ht

theorem sole_step (h : Sole s) (e : Event ξ τ) (hok : Fresh s e)
    (ht : step staged chunk config s e = some t) : Sole t := by
  cases e with
  | submit call =>
    simp only [step] at ht
    split at ht
    · obtain rfl := Option.some.inj ht
      exact sole_register h call noDocuments List.nodup_nil (fun x hx => by cases hx)
    · obtain rfl := Option.some.inj ht
      exact sole_congr h rfl rfl rfl rfl rfl
  | resume i newId ok => exact sole_resume h hok ht
  | claim stale =>
    obtain rfl := Option.some.inj ht
    refine sole_enter h (orphanItems stale s.store) [] rfl ?_ (fun p => Pool.tally_page _) rfl rfl rfl
      (fun _ _ hid => hid) hok.1 hok.2.1 (fun x _ hx => by cases hx)
    rintro x (hx | hx)
    · simp only [Pool.page, List.flatten_append, List.flatten_singleton] at hx
      exact (List.mem_append.mp hx).imp Or.inl id
    · exact Or.inl (Or.inr hx)
  | enqueue page =>
    obtain ⟨pool, hpool, rfl⟩ := Option.map_eq_some_iff.mp ht
    exact sole_enqueue h hpool
  | take i =>
    simp only [step] at ht
    split at ht
    · rename_i hidle
      obtain ⟨pool, hpool, rfl⟩ := Option.map_eq_some_iff.mp ht
      exact sole_take h hidle hpool
    · cases ht
  | advance i o =>
    obtain ⟨w, hw, hr⟩ := Option.bind_eq_some_iff.mp ht
    exact sole_advance h hok hw hr
  | forget id =>
    obtain rfl := Option.some.inj ht
    exact sole_forget h id

variable (staged chunk config)

/-- Whatever fails and however the calls, scans and workers interleave, every
batch is told of each of its documents once, and its handle is done then. -/
theorem always_delivered (documents : List (Document ξ τ)) (chunks : List (TemporalChunk κ))
    (takings workers : ℕ) (es : List (Event ξ τ)) :
    Machine.Always (step staged chunk config) Delivered
      (started documents chunks takings workers) es := by
  have hstep : ∀ (s : Processor ξ τ κ) (e : Event ξ τ) (t : Processor ξ τ κ), Delivering s → True →
      step staged chunk config s e = some t → Delivering t :=
    fun _ e _ h _ ht => delivering_step h e ht
  exact Machine.always_of_invariant hstep (fun _ => delivered_of_delivering) es _
    (delivering_started documents chunks takings workers) (Machine.meets_trivial es _)

/-- In every run in which documents are put in line untouched, and clearing
fails only where there is nothing to clear, each is delivered and processed
once. -/
theorem batch_exactly_once (documents : List (Document ξ τ)) (chunks : List (TemporalChunk κ))
    (takings workers : ℕ) (hs : Sane (started documents chunks takings workers).store)
    (es : List (Event ξ τ))
    (hok : Machine.Meets (step staged chunk config) Fresh
      (started documents chunks takings workers) es) :
    Machine.Always (step staged chunk config) ExactlyOnce
      (started documents chunks takings workers) es := by
  have hstep : ∀ (s : Processor ξ τ κ) (e : Event ξ τ) (t : Processor ξ τ κ),
      Delivering s ∧ Sole s → Fresh s e → step staged chunk config s e = some t →
        Delivering t ∧ Sole t :=
    fun _ e _ h hfresh ht => ⟨delivering_step h.1 e ht, sole_step h.2 e hfresh ht⟩
  exact Machine.always_of_invariant hstep (fun _ h => exactly_once_of_sole h.1 h.2) es _
    ⟨delivering_started documents chunks takings workers,
      sole_started documents chunks takings workers hs⟩ hok

/-- Two batches of one document each and a worker; between them a scan claims a
row that an earlier run left. -/
def twoBatches : List (Event ℕ ℕ) :=
  let call : ℕ → Call ℕ ℕ := fun x =>
    { documents := [⟨some x, x⟩]
      reprocessArchived := false
      maxConcurrent := 1
      maxChunksInFlight := none }
  let processed : List (Event ℕ ℕ) := .take 0::List.replicate 5 (.advance 0 .ok)
  [.claim [5], .submit (call 1), .submit (call 2), .resume 0 0 true, .resume 1 0 true,
    .resume 0 7 true, .resume 1 8 true, .enqueue 0]++processed++
    [.take 0, .advance 0 .fails]++processed

theorem two_batches_once :
    Machine.Always (step true (fun n : ℕ => [n]) none) ExactlyOnce
      (started [⟨5, none, 0, .pending, none⟩] [] 0 1) twoBatches :=
  batch_exactly_once true (fun n : ℕ => [n]) none [⟨5, none, 0, .pending, none⟩] [] 0 1
    ⟨fun c hc => (by cases hc), fun c hc => (by cases hc)⟩ twoBatches (by decide)

def submittedTwice : List (Event ℕ ℕ) :=
  let call : Call ℕ ℕ :=
    { documents := [⟨some 1, 1⟩]
      reprocessArchived := false
      maxConcurrent := 1
      maxChunksInFlight := none }
  let processed : List (Event ℕ ℕ) := .take 0::List.replicate 5 (.advance 0 .ok)
  [.submit call, .resume 0 0 true, .resume 0 7 true, .submit call, .resume 1 0 true,
    .resume 1 0 true]++processed++processed

theorem processed_twice :
    ∃ s, Machine.run (step true (fun n : ℕ => [n]) none) (started [] [] 0 1) submittedTwice =
        some s ∧
      s.store.finished = [7, 7] ∧ s.store.chunks = [⟨7, 1, 0⟩, ⟨7, 1, 1⟩] ∧ ¬ ExactlyOnce s := by
  refine ⟨_, rfl, rfl, rfl, fun h => ?_⟩
  exact absurd (h.single ⟨7, 1, 0⟩ (by decide) ⟨7, 1, 1⟩ (by decide) rfl) (by decide)

end Runs

end Uru.Ingest.SubmitBatch
