import Uru.Ingest.SubmitBatch

/-!
# Every result is delivered once

A document that a batch counts is in the pool as an item of the batch until
`on_result` is called for it. Whatever fails, a worker lets an item go only with
its one report, so what is in the pool and what was delivered add up to what
the batch counts, and the batch is done exactly when nothing of it is left.
-/

set_option autoImplicit false

namespace Uru.Ingest.SubmitBatch

open Uru.Lib

variable {ξ τ κ : Type*}

section Registrations

def Registration.reported (b : Registration ξ) : List UUID :=
  b.delivered.map (fun x => x.2.2.documentId)

def Registration.Consistent (b : Registration ξ) : Prop := b.done = true ↔ b.remaining ≤ 0

theorem reported_fire (b : Registration ξ) (r : DocumentResult ξ) :
    (b.fireResult r).reported = b.reported++[r.documentId] := by
  simp [Registration.reported, Registration.fireResult]

theorem consistent_fire {b : Registration ξ} (h : b.Consistent) (r : DocumentResult ξ) :
    (b.fireResult r).Consistent := by
  simp only [Registration.Consistent, Registration.fireResult, Bool.or_eq_true,
    decide_eq_true_eq] at h ⊢
  rw [h]
  omega

/-- What reporting a list of results leaves, and what it does not touch. -/
theorem fire_all (rs : List (DocumentResult ξ)) (b : Registration ξ) (h : b.Consistent) :
    (rs.foldl Registration.fireResult b).remaining = b.remaining-rs.length ∧
      (rs.foldl Registration.fireResult b).reported =
        b.reported++rs.map DocumentResult.documentId ∧
      (rs.foldl Registration.fireResult b).documents = b.documents ∧
      (rs.foldl Registration.fireResult b).preFailedDocIds = b.preFailedDocIds ∧
      (rs.foldl Registration.fireResult b).Consistent := by
  induction rs generalizing b with
  | nil => simp [h]
  | cons r rs ih =>
    obtain ⟨hr, hp, hd, hh, hc⟩ := ih (b.fireResult r) (consistent_fire h r)
    refine ⟨?_, ?_, hd, hh, hc⟩
    · rw [List.foldl_cons, hr]
      simp only [Registration.fireResult, List.length_cons]
      push_cast
      ring
    · rw [List.foldl_cons, hp, reported_fire, List.map_cons, List.append_assoc]
      rfl

/-- A new registration waits for the documents it enqueues, and for no others. -/
theorem registration_spec (call : Call ξ τ) (g : Gathered ξ τ) :
    (registration call g).remaining = g.pending.length ∧
      g.pending++(registration call g).reported = (registration call g).documents ∧
      (registration call g).preFailedDocIds = g.preFailedDocIds ∧
      (registration call g).Consistent := by
  simp only [registration]
  split
  · rename_i hzero
    have hp : g.pending = [] := List.length_eq_zero_iff.mp (by omega)
    have hr : g.preFailed++g.preCompleted = [] := List.length_eq_zero_iff.mp (by omega)
    simp [Registration.markDone, Registration.reported, Registration.Consistent, hp, hr]
  · rename_i hpos
    obtain ⟨hr, hp, hd, hh, hc⟩ := fire_all (g.preFailed++g.preCompleted)
      { total := g.pending.length+(g.preFailed++g.preCompleted).length
        completed := 0
        failed := 0
        remaining := ((g.pending.length+(g.preFailed++g.preCompleted).length : ℕ) : ℤ)
        done := false
        preFailedDocIds := g.preFailedDocIds
        maxConcurrent := call.maxConcurrent
        documents := g.pending++(g.preFailed++g.preCompleted).map DocumentResult.documentId
        delivered := [] } (by
          simp only [Registration.Consistent, Bool.false_eq_true, false_iff]
          omega)
    refine ⟨?_, ?_, hh, hc⟩
    · rw [hr]
      push_cast
      ring
    · rw [hp, hd]
      rfl

end Registrations

section Reports

/-- The worker keeps its item and reports nothing, or lets it go with the one
report that a batch item is due. -/
def Passes (it : Item) (r : Work ξ τ κ) : Prop :=
  (itemOf r.2.1 = some it ∧ r.2.2 = none) ∨
    (r.2.1 = .idle ∧
      r.2.2.map DocumentResult.documentId = it.batchReg.map (fun _ => it.docId))

variable {st : Store ξ τ κ} {it : Item} {w : Worker ξ τ κ} {o : Outcome} {r : Work ξ τ κ}
variable {h : Held ξ τ} {success skipped : Bool} {externalId : Option ξ}

theorem passes_goOn (hw : itemOf w = some it) (hr : goOn st w = some r) : Passes it r := by
  obtain rfl := Option.some.inj hr
  exact Or.inl ⟨hw, rfl⟩

theorem passes_report (hr : report st it success skipped externalId = some r) :
    Passes it r := by
  obtain rfl := Option.some.inj hr
  refine Or.inr ⟨rfl, ?_⟩
  rw [Option.map_map]
  rfl

theorem passes_load (hr : load it o st = some r) : Passes it r := by
  cases o with
  | ok =>
    simp only [load] at hr
    split at hr
    · exact passes_goOn rfl hr
    · exact passes_report hr
  | fails => exact passes_report hr
  | partly => cases hr

theorem passes_enter {staged : Bool} {ids : List UUID} (hr : enter staged ids h o st = some r) :
    Passes h.item r := by
  cases o with
  | ok =>
    simp only [enter] at hr
    split at hr
    · split at hr
      · exact passes_goOn rfl hr
      · exact passes_goOn rfl hr
    · split at hr
      · exact passes_goOn rfl hr
      · exact passes_report hr
  | _ => cases hr

theorem passes_clear (hr : clear h o st = some r) : Passes h.item r := by
  cases o with
  | partly => cases hr
  | _ => exact passes_goOn rfl hr

theorem itemOf_nextWindow (h : Held ξ τ) (taking : ℕ) (rest : List κ) :
    itemOf (nextWindow h taking rest) = some h.item := by
  rw [nextWindow]
  split
  · rfl
  · rfl

theorem passes_prepare {chunk : τ → List κ} (hr : prepare chunk h o st = some r) :
    Passes h.item r := by
  cases o with
  | ok => exact passes_goOn (itemOf_nextWindow _ _ _) hr
  | fails => exact passes_goOn rfl hr
  | partly =>
    simp only [prepare] at hr
    split at hr
    · exact passes_goOn rfl hr
    · exact passes_report hr

theorem passes_write {config : Option ℕ+} {taking : ℕ} {rest : List κ}
    (hr : write config h taking rest o st = some r) : Passes h.item r := by
  cases o with
  | ok => exact passes_goOn (itemOf_nextWindow _ _ _) hr
  | _ => exact passes_goOn rfl hr

theorem passes_complete (hr : complete h o st = some r) : Passes h.item r := by
  cases o with
  | ok => exact passes_report hr
  | fails => exact passes_goOn rfl hr
  | partly => cases hr

theorem passes_markFailed (hr : markFailed h o st = some r) : Passes h.item r := by
  cases o with
  | partly => cases hr
  | _ => exact passes_report hr

/-- Whatever a worker awaits and however that ends, its item is kept or reported
once. -/
theorem passes_work {staged : Bool} {chunk : τ → List κ} {config : Option ℕ+} {ids : List UUID}
    (hit : itemOf w = some it) (hr : work staged chunk config ids o st w = some r) :
    Passes it r := by
  cases w with
  | idle => cases hr
  | loading _ =>
    obtain rfl := Option.some.inj hit
    exact passes_load hr
  | waiting _ =>
    obtain rfl := Option.some.inj hit
    exact passes_enter hr
  | clearing _ =>
    obtain rfl := Option.some.inj hit
    exact passes_clear hr
  | preparing _ =>
    obtain rfl := Option.some.inj hit
    exact passes_prepare hr
  | writing _ _ _ =>
    obtain rfl := Option.some.inj hit
    exact passes_write hr
  | completing _ _ =>
    obtain rfl := Option.some.inj hit
    exact passes_complete hr
  | marking _ | abandoning _ =>
    obtain rfl := Option.some.inj hit
    exact passes_markFailed hr

end Reports

section Accounts

structure Accounted (P : Pool Item (Worker ξ τ κ)) (b : ℕ) (reg : Registration ξ) : Prop where
  each : ∀ d, reg.reported.count d+P.tally itemOf (fun x => x = ⟨d, some b⟩) =
    reg.documents.count d
  remaining : reg.remaining = P.tally itemOf (fun x => x.batchReg = some b)
  consistent : reg.Consistent

structure Delivering (s : Processor ξ τ κ) : Prop where
  accounted : ∀ (b : ℕ) (reg : Registration ξ), s.batches[b]? = some reg → Accounted s.pool b reg
  registered : ∀ b, s.batches.length ≤ b →
    s.pool.tally itemOf (fun x => x.batchReg = some b) = 0

variable {P Q : Pool Item (Worker ξ τ κ)} {b : ℕ} {reg : Registration ξ}
variable {s t : Processor ξ τ κ} {i : ℕ} {it : Item} {w : Worker ξ τ κ}

theorem accounted_congr (h : Accounted P b reg)
    (hQ : ∀ p, Q.tally itemOf p = P.tally itemOf p) : Accounted Q b reg :=
  { each := fun d => by
      rw [hQ]
      exact h.each d
    remaining := by
      rw [hQ]
      exact h.remaining
    consistent := h.consistent }

theorem delivering_congr (h : Delivering s) (hb : t.batches = s.batches)
    (ht : ∀ p, t.pool.tally itemOf p = s.pool.tally itemOf p) : Delivering t where
  accounted := by
    intro b reg hreg
    rw [hb] at hreg
    exact accounted_congr (h.accounted b reg hreg) ht
  registered := by
    intro b hlen
    rw [hb] at hlen
    rw [ht]
    exact h.registered b hlen

/-- Items of no batch do not count. -/
theorem delivering_orphans (h : Delivering s) (items : List Item)
    (hitems : ∀ x ∈ items, x.batchReg = none) (hb : t.batches = s.batches)
    (ht : t.pool = s.pool.page items) : Delivering t := by
  have hnone : ∀ b, items.countP (fun x => x.batchReg = some b) = 0 := by
    intro b
    refine List.countP_eq_zero.mpr (fun x hx => ?_)
    simp [hitems x hx]
  have heach : ∀ d b, items.countP (fun x => x = ⟨d, some b⟩) = 0 := by
    intro d b
    refine List.countP_eq_zero.mpr (fun x hx hd => ?_)
    have := hitems x hx
    rw [of_decide_eq_true hd] at this
    cases this
  constructor
  · intro b reg hreg
    rw [hb] at hreg
    have := h.accounted b reg hreg
    exact
      { each := fun d => by
          rw [ht, Pool.tally_page, heach, Nat.add_zero]
          exact this.each d
        remaining := by
          rw [ht, Pool.tally_page, hnone, Nat.add_zero]
          exact this.remaining
        consistent := this.consistent }
  · intro b hlen
    rw [hb] at hlen
    rw [ht, Pool.tally_page, hnone, Nat.add_zero]
    exact h.registered b hlen

theorem batchItems_batch (b c : ℕ) (g : Gathered ξ τ) :
    (batchItems b g).countP (fun x => x.batchReg = some c) =
      if b = c then g.pending.length else 0 := by
  rw [batchItems, List.countP_map]
  split
  · rename_i hb
    simp [Function.comp_def, hb]
  · rename_i hb
    simp [Function.comp_def, hb]

theorem batchItems_each (b c : ℕ) (d : UUID) (g : Gathered ξ τ) :
    (batchItems b g).countP (fun x => x = ⟨d, some c⟩) =
      if b = c then g.pending.count d else 0 := by
  rw [batchItems, List.countP_map, List.count]
  split
  · rename_i hb
    refine List.countP_congr (fun x _ => ?_)
    simp [hb]
  · rename_i hb
    simp [Function.comp_def, hb]

/-- The new batch is due what it enqueues; the others are due what they were. -/
theorem delivering_register (h : Delivering s) (call : Call ξ τ) (g : Gathered ξ τ) :
    Delivering (register call g s) := by
  have hnew := h.registered s.batches.length le_rfl
  have hnewd : ∀ d, s.pool.tally itemOf (fun x => x = ⟨d, some s.batches.length⟩) = 0 := by
    intro d
    refine Nat.le_zero.mp (hnew ▸ Pool.tally_mono (fun x hx => ?_))
    rw [of_decide_eq_true hx]
    simp
  constructor
  · intro b reg hreg
    simp only [register, List.getElem?_append] at hreg
    split at hreg
    · rename_i hlt
      have hne : s.batches.length ≠ b := by omega
      have hold := h.accounted b reg hreg
      exact
        { each := fun d => by
            rw [register, Pool.tally_put, batchItems_each, if_neg hne, Nat.add_zero]
            exact hold.each d
          remaining := by
            rw [register, Pool.tally_put, batchItems_batch, if_neg hne, Nat.add_zero]
            exact hold.remaining
          consistent := hold.consistent }
    · rename_i hge
      rw [List.getElem?_singleton] at hreg
      have hb : b = s.batches.length := by
        split at hreg
        · omega
        · cases hreg
      subst hb
      rw [if_pos (Nat.sub_self _)] at hreg
      obtain rfl := Option.some.inj hreg
      obtain ⟨hr, hd, -, hc⟩ := registration_spec call g
      exact
        { each := fun d => by
            rw [register, Pool.tally_put, batchItems_each, if_pos rfl, hnewd, ← hd,
              List.count_append]
            omega
          remaining := by
            rw [register, Pool.tally_put, batchItems_batch, if_pos rfl, hnew, hr, Nat.zero_add]
          consistent := hc }
  · intro b hlen
    simp only [register, List.length_append, List.length_singleton] at hlen
    rw [register, Pool.tally_put, batchItems_batch, if_neg (by omega), Nat.add_zero]
    exact h.registered b (by omega)

/-- The item that left the pool is the one that was reported. -/
theorem accounted_fire {r : DocumentResult ξ} (h : Accounted P b reg)
    (hset : ∀ p : Item → Bool, Q.tally itemOf p+(if p it then 1 else 0) = P.tally itemOf p)
    (hr : r.documentId = it.docId) (hit : it.batchReg = some b) :
    Accounted Q b (reg.fireResult r) where
  each := by
    intro d
    have hd := hset (fun x => x = ⟨d, some b⟩)
    have hold := h.each d
    have hsame : it = ⟨d, some b⟩ ↔ it.docId = d := by
      rw [← hit]
      exact ⟨fun he => congrArg Item.docId he, fun he => by rw [← he]⟩
    rw [reported_fire, List.count_append, List.count_singleton, hr]
    simp only [hsame, decide_eq_true_eq, beq_iff_eq] at hd ⊢
    show _ = reg.documents.count d
    omega
  remaining := by
    have hb := hset (fun x => x.batchReg = some b)
    rw [if_pos (decide_eq_true hit)] at hb
    rw [Registration.fireResult, h.remaining, ← hb]
    push_cast
    ring
  consistent := consistent_fire h.consistent r

/-- What is no item of the batch leaves its account as it is. -/
theorem accounted_other (h : Accounted P b reg)
    (hset : ∀ p : Item → Bool, Q.tally itemOf p+(if p it then 1 else 0) = P.tally itemOf p)
    (hit : it.batchReg ≠ some b) : Accounted Q b reg where
  each := by
    intro d
    have hd := hset (fun x => x = ⟨d, some b⟩)
    rw [if_neg (fun he => hit (congrArg Item.batchReg (of_decide_eq_true he)))] at hd
    rw [← h.each d, ← hd, Nat.add_zero]
  remaining := by
    have hb := hset (fun x => x.batchReg = some b)
    rw [if_neg (fun he => hit (of_decide_eq_true he))] at hb
    rw [h.remaining, ← hb, Nat.add_zero]
  consistent := h.consistent

theorem length_fire (batches : List (Registration ξ)) (it : Item) (r : DocumentResult ξ) :
    (fire batches it r).length = batches.length := by
  rw [fire]
  split
  · exact List.length_modify ..
  · rfl

theorem getElem?_fire {batches : List (Registration ξ)} {r : DocumentResult ξ}
    (h : (fire batches it r)[b]? = some reg) :
    ∃ old, batches[b]? = some old ∧
      reg = if it.batchReg = some b then old.fireResult r else old := by
  rw [fire] at h
  split at h
  · rename_i c hc
    rw [List.getElem?_modify] at h
    obtain ⟨old, hold, rfl⟩ := Option.map_eq_some_iff.mp h
    refine ⟨old, hold, ?_⟩
    simp only [hc, Option.some.injEq]
  · rename_i hnone
    exact ⟨reg, h, by simp [hnone]⟩

/-- A worker lets its item go, and its batch is told. -/
theorem delivering_report (h : Delivering s) (hw : s.pool.workers[i]? = some w)
    (hit : itemOf w = some it) {r : DocumentResult ξ} (hr : r.documentId = it.docId)
    (hb : t.batches = fire s.batches it r) (ht : t.pool = s.pool.set i .idle) :
    Delivering t := by
  have hset : ∀ p : Item → Bool, t.pool.tally itemOf p+(if p it then 1 else 0) =
      s.pool.tally itemOf p := by
    intro p
    rw [ht]
    exact Pool.tally_let_go hw hit rfl
  constructor
  · intro b reg hreg
    rw [hb] at hreg
    obtain ⟨old, hold, rfl⟩ := getElem?_fire hreg
    split
    · exact accounted_fire (h.accounted b old hold) hset hr ‹_›
    · exact accounted_other (h.accounted b old hold) hset ‹_›
  · intro b hlen
    rw [hb, length_fire] at hlen
    have := hset (fun x => x.batchReg = some b)
    have hzero := h.registered b hlen
    omega

/-- An orphan is let go, and nobody is told. -/
theorem delivering_orphan (h : Delivering s) (hw : s.pool.workers[i]? = some w)
    (hit : itemOf w = some it) (hnone : it.batchReg = none)
    (hb : t.batches = s.batches) (ht : t.pool = s.pool.set i .idle) : Delivering t := by
  have hset : ∀ p : Item → Bool, t.pool.tally itemOf p+(if p it then 1 else 0) =
      s.pool.tally itemOf p := by
    intro p
    rw [ht]
    exact Pool.tally_let_go hw hit rfl
  constructor
  · intro b reg hreg
    rw [hb] at hreg
    exact accounted_other (h.accounted b reg hreg) hset (by simp [hnone])
  · intro b hlen
    rw [hb] at hlen
    have := hset (fun x => x.batchReg = some b)
    have hzero := h.registered b hlen
    omega

end Accounts

section Runs

variable {staged : Bool} {chunk : τ → List κ} {config : Option ℕ+}
variable {s t : Processor ξ τ κ} {i : ℕ} {w : Worker ξ τ κ} {o : Outcome}

theorem delivering_arrive (h : Delivering s) (i : ℕ) (sub : Submission ξ τ) :
    Delivering (arrive i sub s) := by
  cases sub with
  | registering call g => exact delivering_congr (delivering_register h call g) rfl (fun _ => rfl)
  | _ => exact delivering_congr h rfl (fun _ => rfl)

theorem delivering_advance (h : Delivering s) (hw : s.pool.workers[i]? = some w)
    (ht : advance staged chunk config i w o s = some t) : Delivering t := by
  rw [advance] at ht
  split at ht
  · cases ht
  · rename_i it hit
    split at ht
    · obtain ⟨⟨st, v, result⟩, hr, rfl⟩ := Option.map_eq_some_iff.mp ht
      rcases passes_work hit hr with ⟨hkeep, hnone⟩ | ⟨hidle, hreport⟩
      · dsimp only at hkeep hnone
        subst hnone
        refine delivering_congr h rfl (fun p => ?_)
        exact Pool.tally_keep hw (hkeep.trans hit.symm)
      · dsimp only at hidle hreport
        subst hidle
        cases result with
        | none =>
          refine delivering_orphan h hw hit ?_ rfl rfl
          exact Option.map_eq_none_iff.mp hreport.symm
        | some r =>
          refine delivering_report h hw hit ?_ rfl rfl
          obtain ⟨b, -, hd⟩ := Option.map_eq_some_iff.mp hreport.symm
          exact hd.symm
    · cases ht

variable [DecidableEq ξ]

theorem delivering_step (h : Delivering s) (e : Event ξ τ)
    (ht : step staged chunk config s e = some t) : Delivering t := by
  cases e with
  | submit call =>
    simp only [step] at ht
    split at ht
    · obtain rfl := Option.some.inj ht
      exact delivering_register h call noDocuments
    · obtain rfl := Option.some.inj ht
      exact delivering_congr h rfl (fun _ => rfl)
  | resume i newId ok =>
    obtain ⟨sub, -, hr⟩ := Option.bind_eq_some_iff.mp ht
    obtain ⟨r, -, rfl⟩ := Option.map_eq_some_iff.mp hr
    have hs : Delivering { s with store := r.1 } := delivering_congr h rfl (fun _ => rfl)
    exact delivering_arrive hs i r.2
  | claim stale =>
    obtain rfl := Option.some.inj ht
    refine delivering_orphans h (orphanItems stale s.store) (fun x hx => ?_) rfl rfl
    obtain ⟨d, -, rfl⟩ := List.mem_map.mp hx
    rfl
  | enqueue page =>
    obtain ⟨pool, hpool, rfl⟩ := Option.map_eq_some_iff.mp ht
    exact delivering_congr h rfl (fun _ => Pool.tally_release itemOf hpool)
  | take i =>
    simp only [step] at ht
    split at ht
    · rename_i hidle
      obtain ⟨pool, hpool, rfl⟩ := Option.map_eq_some_iff.mp ht
      exact delivering_congr h rfl (fun _ => Pool.tally_take itemOf (fun _ => rfl) hidle rfl hpool)
    · cases ht
  | advance i o =>
    obtain ⟨w, hw, hr⟩ := Option.bind_eq_some_iff.mp ht
    exact delivering_advance h hw hr
  | forget id =>
    obtain rfl := Option.some.inj ht
    exact delivering_congr h rfl (fun _ => rfl)

end Runs

section Delivered

/-- No document of a batch is reported more often than the batch counts it, its
handle is done exactly when all are reported, and that is so once the pool is
empty. -/
structure Delivered (s : Processor ξ τ κ) : Prop where
  at_most : ∀ reg ∈ s.batches, reg.reported.Subperm reg.documents
  done_iff : ∀ reg ∈ s.batches, reg.done = true ↔ reg.reported.Perm reg.documents
  drained : (∀ it, ¬ s.pool.Has itemOf it) → ∀ reg ∈ s.batches, reg.done = true

variable {s : Processor ξ τ κ} {P : Pool Item (Worker ξ τ κ)} {b : ℕ} {reg : Registration ξ}

theorem done_iff_tally (h : Accounted P b reg) :
    reg.done = true ↔ P.tally itemOf (fun x => x.batchReg = some b) = 0 := by
  refine Iff.trans h.consistent ?_
  rw [h.remaining]
  omega

/-- All is reported when none of the batch is in the pool. -/
theorem done_iff_reported (h : Accounted P b reg) :
    reg.done = true ↔ reg.reported.Perm reg.documents := by
  rw [done_iff_tally h, List.perm_iff_count]
  constructor
  · intro hzero d
    have hd : P.tally itemOf (fun x => x = ⟨d, some b⟩) ≤
        P.tally itemOf (fun x => x.batchReg = some b) := by
      refine Pool.tally_mono (fun x hx => ?_)
      rw [of_decide_eq_true hx]
      simp
    have := h.each d
    omega
  · intro hcount
    by_contra hne
    obtain ⟨x, hx, hb⟩ := Pool.tally_pos_iff.mp (Nat.pos_of_ne_zero hne)
    have hpos : 0 < P.tally itemOf (fun y => y = ⟨x.docId, some b⟩) := by
      refine Pool.tally_pos_iff.mpr ⟨x, hx, ?_⟩
      rw [← of_decide_eq_true hb]
      simp
    have := h.each x.docId
    have := hcount x.docId
    omega

theorem delivered_of_delivering (h : Delivering s) : Delivered s where
  at_most := by
    intro reg hreg
    obtain ⟨b, hb⟩ := List.mem_iff_getElem?.mp hreg
    refine List.subperm_ext_iff.mpr (fun d _ => ?_)
    have := (h.accounted b reg hb).each d
    omega
  done_iff := by
    intro reg hreg
    obtain ⟨b, hb⟩ := List.mem_iff_getElem?.mp hreg
    exact done_iff_reported (h.accounted b reg hb)
  drained := by
    intro hempty reg hreg
    obtain ⟨b, hb⟩ := List.mem_iff_getElem?.mp hreg
    refine (done_iff_tally (h.accounted b reg hb)).mpr ?_
    by_contra hne
    obtain ⟨x, hx, -⟩ := Pool.tally_pos_iff.mp (Nat.pos_of_ne_zero hne)
    exact hempty x hx

end Delivered

end Uru.Ingest.SubmitBatch
