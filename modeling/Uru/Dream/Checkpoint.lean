import Uru.Dream.Resume
import Uru.Dream.Summary

/-!
# The checkpoint as a prefix mark

A position is settled when its operation has been applied, or skipped for good
because the backend cannot run it. An operation skipped for the token budget is
neither: its position is left for a later run. The ledger follows the run turn
by turn and keeps, beside it, the skips that the result reports.
-/

set_option autoImplicit false

namespace Uru.Dream.Checkpoint

open Uru.Lib

structure Ledger (σ Op κ : Type*) where
  run : Run σ Op
  settled : List (ℕ × Op)
  throttled : List (ℕ × Op)
  skippedByOpType : Record κ ℕ
  result : Option (List Op × List (OpSummary κ))

variable {σ Op κ : Type*}

def opened (st : σ) : Ledger σ Op κ where
  run := fresh st
  settled := []
  throttled := []
  skippedByOpType := ∅
  result := none

section Step

variable (K : Stack σ Op) [DecidableEq κ] (opType : Op → κ)

def throttles (budgetExhausted : Bool) (op : Op) : Bool :=
  (K.getApplyHandler op).isSome && (K.llmOpKinds op && budgetExhausted)

def unsupported (op : Op) : Bool :=
  (K.getApplyHandler op).isSome &&
    match K.backend with
    | .surrealdb => !K.surrealdbNativeApplyKinds op
    | .sql => !K.backendSupported op
    | .embedded => false

def recordedApart (op : Op) : Bool :=
  (K.getApplyHandler op).isSome &&
    match K.backend with
    | .surrealdb => K.surrealdbNativeApplyKinds op
    | .sql => false
    | .embedded => true

def countSkip (op : Op) (L : Ledger σ Op κ) : Ledger σ Op κ :=
  { L with
    skippedByOpType := L.skippedByOpType.set (opType op)
      (remaining L.skippedByOpType (opType op)+1) }

def turn (budgetExhausted : Bool) (seq : ℕ) (op : Op) (L : Ledger σ Op κ) : Ledger σ Op κ :=
  if throttles K budgetExhausted op then
    countSkip opType op { L with throttled := L.throttled++[(seq,op)] }
  else if unsupported K op then
    countSkip opType op { L with settled := L.settled++[(seq,op)] }
  else { L with settled := L.settled++[(seq,op)] }

def report (plan : List Op) (L : Ledger σ Op κ) : Ledger σ Op κ :=
  { L with result := some (plan, buildResult opType .apply plan L.skippedByOpType) }

/-- What the ledger notes of an event that the run takes. -/
def note (L : Ledger σ Op κ) (e : Event σ) : Ledger σ Op κ :=
  match e, L.run.executor with
  | .plan, some .planning =>
    { L with
      throttled := []
      skippedByOpType := ∅ }
  | .iterate budgetExhausted, some (.applying plan last seq) =>
    match plan[seq]? with
    | some op => if (seq:ℤ) ≤ last then L else turn K opType budgetExhausted seq op L
    | none => L
  | .finish, some (.applying plan _ _) => report opType plan L
  | .cancel, some (.applying plan _ _) => report opType plan L
  | _, _ => L

def step (L : Ledger σ Op κ) (e : Event σ) : Option (Ledger σ Op κ) :=
  (Dream.step K L.run e).map (fun r => { note K opType L e with run := r })

end Step

/-- Everything at or before the recorded position is settled, and the counters
of a result add up to its plan. -/
structure PrefixMark (L : Ledger σ Op κ) : Prop where
  settled : ∀ (n : ℤ) (plan : List Op), L.run.lastCommittedOpSeq = some n →
    L.run.followed = some plan → ∀ (i : ℕ) (op : Op), (i:ℤ) ≤ n → plan[i]? = some op →
      (i,op) ∈ L.settled
  counters : ∀ (plan : List Op) (summaries : List (OpSummary κ)),
    L.result = some (plan,summaries) →
      (summaries.map (fun s => s.applied+s.skipped+s.failed)).sum = plan.length ∧
        ∀ s ∈ summaries, Balanced s

section Condition

variable (K : Stack σ Op)

def CaughtUp (L : Ledger σ Op κ) : Prop := ∀ x ∈ L.throttled, x ∈ L.settled

/-- The checkpoint is not moved past an operation that this pass skipped for
the budget, and a new plan has at the recorded positions what was settled
there. -/
def Steady (L : Ledger σ Op κ) : Event σ → Prop
  | .plan =>
    match L.run.executor with
    | some .planning => ∀ i < (K.planDream L.run.store).length,
        ∀ op, (K.planDream L.run.store)[i]? = some op →
          (i:ℤ) ≤ readLastCommitted L.run → (i,op) ∈ L.settled
    | _ => True
  | .iterate budgetExhausted =>
    match L.run.executor with
    | some (.applying plan last seq) => ∀ op, plan[seq]? = some op → last < (seq:ℤ) →
        K.runStore = true → throttles K budgetExhausted op = false →
          recordedApart K op = false → CaughtUp L
    | _ => True
  | .checkpoint =>
    match L.run.executor with
    | some (.checkpointing _ _ _) => K.runStore = true → CaughtUp L
    | _ => True
  | _ => True

end Condition

variable {K : Stack σ Op} {L : Ledger σ Op κ} {r : Run σ Op} {plan : List Op} {last : ℤ}
  {seq : ℕ} {op : Op}

section Position

/-- The loop has been over every position before `seq`, and settled it or put it
off. -/
structure Passed (L : Ledger σ Op κ) (plan : List Op) (last : ℤ) (seq : ℕ) : Prop where
  followed : L.run.followed = some plan
  before : ∀ (i : ℕ) (op : Op), i < seq → plan[i]? = some op →
    (i,op) ∈ L.settled ∨ (i,op) ∈ L.throttled
  behind : ∀ (i : ℕ) (op : Op), (i:ℤ) ≤ last → plan[i]? = some op → (i,op) ∈ L.settled
  put_off : ∀ x ∈ L.throttled, x.1 < seq ∧ plan[x.1]? = some x.2

def AtPosition (L : Ledger σ Op κ) : Executor Op → Prop
  | .planning => L.run.lastCommittedOpSeq.isSome
  | .applying plan last seq => Passed L plan last seq
  | .checkpointing plan last seq => Passed L plan last (seq+1)

structure Kept (L : Ledger σ Op κ) : Prop where
  mark : PrefixMark L
  position : ∀ e, L.run.executor = some e → AtPosition L e

theorem Passed.onto (h : Passed L plan last seq) (hr : r.followed = L.run.followed) :
    Passed { L with run := r } plan last seq where
  followed := hr.trans h.followed
  before := h.before
  behind := h.behind
  put_off := h.put_off

theorem Passed.skip (h : Passed L plan last seq) (hle : (seq:ℤ) ≤ last) :
    Passed L plan last (seq+1) where
  followed := h.followed
  before := by
    intro i op hi hop
    by_cases hs : i < seq
    · exact h.before i op hs hop
    · exact Or.inl (h.behind i op (by omega) hop)
  behind := h.behind
  put_off := fun x hx => ⟨by have := (h.put_off x hx).1; omega, (h.put_off x hx).2⟩

/-- With nothing put off, all that the loop has been over is settled. -/
theorem Passed.settled (h : Passed L plan last (seq+1)) (hc : CaughtUp L) (i : ℕ) (op : Op)
    (hi : (i:ℤ) ≤ seq) (hop : plan[i]? = some op) : (i,op) ∈ L.settled := by
  rcases h.before i op (by omega) hop with hs | ht
  · exact hs
  · exact hc _ ht

theorem kept_passed_over (h : Kept L) (hex : L.run.executor = some (.applying plan last seq))
    (hle : (seq:ℤ) ≤ last) :
    Kept { L with run := moveTo (.applying plan last (seq+1)) L.run } where
  mark := ⟨h.mark.settled, h.mark.counters⟩
  position := by
    intro e he
    obtain rfl := Option.some.inj he
    have hp : Passed L plan last seq := h.position _ hex
    exact (hp.skip hle).onto rfl

theorem kept_checkpoint (h : Kept L)
    (hex : L.run.executor = some (.checkpointing plan last seq))
    (hc : K.runStore = true → CaughtUp L) :
    Kept { L with run := moveTo (.applying plan last (seq+1)) (recordCommitted K seq L.run) } := by
  have hp : Passed L plan last (seq+1) := h.position _ hex
  have hfollowed : (recordCommitted K seq L.run).followed = L.run.followed := by
    rw [recordCommitted]
    split_ifs <;> rfl
  refine ⟨⟨?_, h.mark.counters⟩, ?_⟩
  · intro n p hn hfp i x hi hx
    have hfp' : L.run.followed = some p := hfollowed.symm.trans hfp
    cases hs : K.runStore with
    | false =>
      have hrow : L.run.lastCommittedOpSeq = some n := by
        simpa [moveTo, recordCommitted, hs] using hn
      exact h.mark.settled n p hrow hfp' i x hi hx
    | true =>
      have hrow : (seq:ℤ) = n := by simpa [moveTo, recordCommitted, hs] using hn
      obtain rfl := Option.some.inj (hp.followed.symm.trans hfp')
      exact hp.settled (hc hs) i x (by omega) hx
  · intro e he
    obtain rfl := Option.some.inj he
    exact hp.onto hfollowed

/-- A pass begins: nothing is put off yet, and what the new plan has at the
recorded positions is settled. -/
theorem kept_plan (h : Kept L)
    (hc : ∀ i < plan.length, ∀ op, plan[i]? = some op →
      (i:ℤ) ≤ readLastCommitted L.run → (i,op) ∈ L.settled) :
    Kept
      { L with
        run := follow plan L.run
        throttled := []
        skippedByOpType := ∅ } := by
  have hc' : ∀ (i : ℕ) (op : Op), (i:ℤ) ≤ readLastCommitted L.run → plan[i]? = some op →
      (i,op) ∈ L.settled := fun i op hi hop =>
    hc i (List.getElem?_eq_some_iff.mp hop).1 op hop hi
  refine ⟨⟨?_, h.mark.counters⟩, ?_⟩
  · intro n p hn hfp i x hi hx
    obtain rfl := Option.some.inj hfp
    refine hc' i x ?_ hx
    rw [readLastCommitted, show L.run.lastCommittedOpSeq = some n from hn]
    exact hi
  · intro e he
    obtain rfl := Option.some.inj he
    exact
      { followed := rfl
        before := fun i op hi => by omega
        behind := hc'
        put_off := fun x hx => by cases hx }

/-- The process ends, is started or is resumed; what was settled stays so. -/
theorem kept_moved (h : Kept L) (hfollowed : r.followed = L.run.followed)
    (hrow : r.lastCommittedOpSeq = L.run.lastCommittedOpSeq ∨
      r.lastCommittedOpSeq = some (-1))
    (hpos : ∀ e, r.executor = some e → e = .planning ∧ r.lastCommittedOpSeq.isSome) :
    Kept { L with run := r } where
  mark :=
    { settled := by
        intro n p hn hfp i x hi hx
        rcases hrow with hsame | hnew
        · exact h.mark.settled n p (hsame.symm.trans hn) (hfollowed.symm.trans hfp) i x hi hx
        · have hneg : (-1:ℤ) = n := Option.some.inj (hnew.symm.trans hn)
          omega
      counters := h.mark.counters }
  position := by
    intro e he
    obtain ⟨rfl, hsome⟩ := hpos e he
    exact hsome

theorem kept_opened (st : σ) : Kept (opened st : Ledger σ Op κ) where
  mark :=
    { settled := fun n p hn => by cases hn
      counters := fun p summaries hr => by cases hr }
  position := fun e he => by cases he

/-- The process ends; the result, if one is built, counts the plan. -/
theorem kept_stopped (h : Kept L) (through : Bool) :
    Kept { L with run := stop through L.run } :=
  kept_moved h rfl (Or.inl rfl) (fun e he => by cases he)

theorem kept_write (h : Kept L) (st : σ) : Kept { L with run := { L.run with store := st } } where
  mark := ⟨h.mark.settled, h.mark.counters⟩
  position := by
    intro e he
    have hpos : AtPosition L e := h.position e he
    cases e with
    | planning => exact hpos
    | applying plan last seq => exact ⟨hpos.followed, hpos.before, hpos.behind, hpos.put_off⟩
    | checkpointing plan last seq => exact ⟨hpos.followed, hpos.before, hpos.behind, hpos.put_off⟩

/-- The checkpoint is moved over a position that was put off. -/
theorem lost_position (hp : Passed L plan last seq) {x : ℕ × Op} (hx : x ∈ L.throttled)
    {M : Ledger σ Op κ} (hrow : M.run.lastCommittedOpSeq = some (seq:ℤ))
    (hfollowed : M.run.followed = some plan) (hsettled : x ∉ M.settled) : ¬ PrefixMark M := by
  intro hm
  obtain ⟨hlt, hat⟩ := hp.put_off x hx
  exact hsettled (hm.settled seq plan hrow hfollowed x.1 x.2 (by omega) hat)

end Position

section Turn

variable [DecidableEq κ] {opType : Op → κ} {b : Bool}

theorem turn_settled : (turn K opType b seq op L).settled =
    if throttles K b op then L.settled else L.settled++[(seq,op)] := by
  rw [turn]
  split_ifs <;> rfl

theorem turn_throttled : (turn K opType b seq op L).throttled =
    if throttles K b op then L.throttled++[(seq,op)] else L.throttled := by
  rw [turn]
  split_ifs <;> rfl

theorem turn_result : (turn K opType b seq op L).result = L.result := by
  rw [turn]
  split_ifs <;> rfl

theorem turn_run : (turn K opType b seq op L).run = L.run := by
  rw [turn]
  split_ifs <;> rfl

theorem passed_turn (h : Passed L plan last seq) (hop : plan[seq]? = some op) :
    Passed (turn K opType b seq op L) plan last (seq+1) where
  followed := by
    rw [turn_run]
    exact h.followed
  before := by
    intro i x hi hx
    rw [turn_settled, turn_throttled]
    by_cases hs : i < seq
    · rcases h.before i x hs hx with hm | hm
      · left
        split_ifs <;> simp [hm]
      · right
        split_ifs <;> simp [hm]
    · obtain rfl : i = seq := by omega
      obtain rfl := Option.some.inj (hop.symm.trans hx)
      split_ifs <;> simp
  behind := by
    intro i x hi hx
    have hm := h.behind i x hi hx
    rw [turn_settled]
    split_ifs <;> simp [hm]
  put_off := by
    intro x hx
    rw [turn_throttled] at hx
    have hold : ∀ y ∈ L.throttled, y.1 < seq+1 ∧ plan[y.1]? = some y.2 := fun y hy =>
      ⟨by have := (h.put_off y hy).1; omega, (h.put_off y hy).2⟩
    split_ifs at hx
    · rcases List.mem_append.mp hx with hm | hm
      · exact hold x hm
      · rw [List.mem_singleton.mp hm]
        exact ⟨Nat.lt_succ_self seq, hop⟩
    · exact hold x hx

/-- What a turn of the loop does to the row and where it leaves the process. -/
theorem dispatch_row (K : Stack σ Op) (b : Bool) (plan : List Op) (last : ℤ) (seq : ℕ) (op : Op)
    (r : Run σ Op) :
    (dispatch K b plan last seq op r).followed = r.followed ∧
      (dispatch K b plan last seq op r).executor =
        some (if throttles K b op = false ∧ recordedApart K op = true then
          .checkpointing plan last seq else .applying plan last (seq+1)) ∧
      (dispatch K b plan last seq op r).lastCommittedOpSeq =
        if K.runStore = true ∧ throttles K b op = false ∧ recordedApart K op = false then
          some (seq:ℤ) else r.lastCommittedOpSeq := by
  unfold dispatch throttles recordedApart
  cases hh : K.getApplyHandler op with
  | none => cases hs : K.runStore <;> simp [moveTo, recordCommitted, takeOp, hs]
  | some handler =>
    cases hb : (K.llmOpKinds op && b) with
    | true => simp [moveTo, skipOp]
    | false =>
      cases hk : K.backend with
      | surrealdb =>
        cases hn : K.surrealdbNativeApplyKinds op <;> cases hs : K.runStore <;>
          simp [moveTo, recordCommitted, takeOp, skipOp, hs]
      | sql =>
        cases hn : K.backendSupported op <;> cases hs : K.runStore <;>
          simp [moveTo, recordCommitted, takeOp, skipOp, hs]
      | embedded => cases hs : K.runStore <;> simp [moveTo, takeOp]

theorem mem_turn {x : ℕ × Op} (hx : x ∈ L.settled) : x ∈ (turn K opType b seq op L).settled := by
  rw [turn_settled]
  split_ifs <;> simp [hx]

theorem kept_iterate (h : Kept L) (hex : L.run.executor = some (.applying plan last seq))
    (hop : plan[seq]? = some op)
    (hc : K.runStore = true → throttles K b op = false → recordedApart K op = false →
      CaughtUp L) :
    Kept { turn K opType b seq op L with run := dispatch K b plan last seq op L.run } := by
  obtain ⟨hfollowed, hexec, hrow⟩ := dispatch_row K b plan last seq op L.run
  have hp : Passed L plan last seq := h.position _ hex
  have hp' : Passed (turn K opType b seq op L) plan last (seq+1) := passed_turn hp hop
  refine ⟨⟨?_, ?_⟩, ?_⟩
  · intro n p hn hfp i x hi hx
    have hfp' : L.run.followed = some p := hfollowed.symm.trans hfp
    obtain rfl := Option.some.inj (hp.followed.symm.trans hfp')
    have hn' := hrow.symm.trans hn
    split_ifs at hn' with hadv
    · have hcaught : CaughtUp (turn K opType b seq op L) := by
        intro y hy
        rw [turn_throttled, if_neg (by rw [hadv.2.1]; decide)] at hy
        exact mem_turn (hc hadv.1 hadv.2.1 hadv.2.2 y hy)
      rw [← Option.some.inj hn'] at hi
      exact hp'.settled hcaught i x hi hx
    · exact mem_turn (h.mark.settled n plan hn' hfp' i x hi hx)
  · intro p summaries hr
    exact h.mark.counters p summaries (by rw [← hr, ← turn_result (K := K)])
  · intro e he
    obtain rfl := Option.some.inj (hexec.symm.trans he)
    have hat : Passed { turn K opType b seq op L with run := dispatch K b plan last seq op L.run }
        plan last (seq+1) := hp'.onto (by rw [hfollowed, turn_run])
    split_ifs
    · exact hat
    · exact hat

theorem kept_report (h : Kept L) (plan : List Op) : Kept (report opType plan L) where
  mark :=
    { settled := h.mark.settled
      counters := by
        intro p summaries hr
        obtain ⟨rfl, rfl⟩ := Prod.mk.inj (Option.some.inj hr)
        exact buildResult_adds_up opType plan L.skippedByOpType }
  position := by
    intro e he
    have hpos : AtPosition L e := h.position e he
    cases e with
    | planning => exact hpos
    | applying plan last seq => exact ⟨hpos.followed, hpos.before, hpos.behind, hpos.put_off⟩
    | checkpointing plan last seq => exact ⟨hpos.followed, hpos.before, hpos.behind, hpos.put_off⟩

theorem note_plan (hex : L.run.executor = some .planning) :
    note K opType L (.plan : Event σ) =
      { L with
        throttled := []
        skippedByOpType := ∅ } := by
  unfold note
  rw [hex]

theorem note_iterate (hex : L.run.executor = some (.applying plan last seq))
    (hop : plan[seq]? = some op) :
    note K opType L (.iterate b : Event σ) =
      if (seq:ℤ) ≤ last then L else turn K opType b seq op L := by
  unfold note
  rw [hex]
  simp only [hop]

theorem note_finish (hex : L.run.executor = some (.applying plan last seq)) :
    note K opType L (.finish : Event σ) = report opType plan L := by
  unfold note
  rw [hex]

theorem note_cancel (hex : L.run.executor = some (.applying plan last seq)) :
    note K opType L (.cancel : Event σ) = report opType plan L := by
  unfold note
  rw [hex]

theorem kept_step (h : Kept L) (e : Event σ) (hc : Steady K L e) {L' : Ledger σ Op κ}
    (hL : step K opType L e = some L') : Kept L' := by
  obtain ⟨r, hr, rfl⟩ := Option.map_eq_some_iff.mp hL
  cases e with
  | start =>
    simp only [Dream.step] at hr
    split at hr
    · obtain rfl := Option.some.inj hr
      exact kept_moved h rfl (Or.inr rfl) (fun e he => ⟨(Option.some.inj he).symm, rfl⟩)
    · cases hr
  | resume =>
    simp only [Dream.step] at hr
    split at hr
    next n hn hex =>
      obtain rfl := Option.some.inj hr
      refine kept_moved h rfl (Or.inl rfl) (fun e he => ⟨(Option.some.inj he).symm, ?_⟩)
      rw [moveTo, hn, Option.isSome_some]
    · cases hr
  | plan =>
    simp only [Dream.step] at hr
    split at hr
    next hex =>
      obtain rfl := Option.some.inj hr
      rw [Steady, hex] at hc
      rw [note_plan hex]
      exact kept_plan h hc
    · cases hr
  | iterate b =>
    simp only [Dream.step] at hr
    split at hr
    next plan last seq hex =>
      obtain ⟨op, hop, rfl⟩ := Option.map_eq_some_iff.mp hr
      rw [Steady, hex] at hc
      rw [note_iterate hex hop]
      split_ifs with hle
      · exact kept_passed_over h hex hle
      · exact kept_iterate h hex hop (hc op hop (by omega))
    · cases hr
  | checkpoint =>
    simp only [Dream.step] at hr
    split at hr
    next plan last seq hex =>
      obtain rfl := Option.some.inj hr
      rw [Steady, hex] at hc
      exact kept_checkpoint h hex hc
    · cases hr
  | finish =>
    simp only [Dream.step] at hr
    split at hr
    next plan last seq hex =>
      split at hr
      · obtain rfl := Option.some.inj hr
        rw [note_finish hex]
        exact kept_stopped (kept_report h plan) true
      · cases hr
    · cases hr
  | cancel =>
    simp only [Dream.step] at hr
    split at hr
    next plan last seq hex =>
      obtain rfl := Option.some.inj hr
      rw [note_cancel hex]
      exact kept_stopped (kept_report h plan) false
    · cases hr
  | crash =>
    obtain rfl := Option.some.inj hr
    exact kept_stopped h false
  | write st =>
    obtain rfl := Option.some.inj hr
    exact kept_write h st

theorem unsteady_iterate (h : Kept L) (hex : L.run.executor = some (.applying plan last seq))
    (hs : K.runStore = true) (ht : throttles K b op = false)
    (ha : recordedApart K op = false) {x : ℕ × Op} (hx : x ∈ L.throttled)
    (hnot : x ∉ L.settled) :
    ¬ PrefixMark
      { turn K opType b seq op L with run := dispatch K b plan last seq op L.run } := by
  obtain ⟨hfollowed, -, hrow⟩ := dispatch_row K b plan last seq op L.run
  have hp : Passed L plan last seq := h.position _ hex
  refine lost_position hp hx ?_ (hfollowed.trans hp.followed) ?_
  · rw [hrow, if_pos ⟨hs, ht, ha⟩]
  · have hne : x ≠ (seq,op) := by
      intro he
      have := (hp.put_off x hx).1
      rw [he] at this
      omega
    rw [turn_settled, if_neg (by rw [ht]; decide)]
    simp [hnot, hne]

/-- A step outside the condition loses an operation. -/
theorem unsteady_step (h : Kept L) (e : Event σ) (hc : ¬ Steady K L e) :
    ∃ L', step K opType L e = some L' ∧ ¬ PrefixMark L' := by
  cases e with
  | plan =>
    rw [Steady] at hc
    split at hc
    next hex =>
      push Not at hc
      obtain ⟨i, -, op, hop, hi, hnot⟩ := hc
      refine ⟨_, by rw [step, Dream.step, hex]; rfl, fun hm => hnot ?_⟩
      have hrow : L.run.lastCommittedOpSeq = some (readLastCommitted L.run) := by
        have hsome : L.run.lastCommittedOpSeq.isSome := h.position _ hex
        obtain ⟨n, hn⟩ := Option.isSome_iff_exists.mp hsome
        rw [readLastCommitted, hn, Option.getD_some]
      have hset := hm.settled _ (K.planDream L.run.store) hrow rfl i op hi hop
      rwa [note_plan hex] at hset
    · exact absurd trivial hc
  | iterate b =>
    rw [Steady] at hc
    split at hc
    next plan last seq hex =>
      push Not at hc
      obtain ⟨op, hop, hlast, hs, ht, ha, hcaught⟩ := hc
      obtain ⟨x, hx, hnot⟩ : ∃ x ∈ L.throttled, x ∉ L.settled := by
        simpa [CaughtUp] using hcaught
      refine ⟨{ turn K opType b seq op L with run := dispatch K b plan last seq op L.run }, ?_,
        unsteady_iterate h hex hs ht ha hx hnot⟩
      have hpast : ¬ (seq:ℤ) ≤ last := by omega
      rw [step, note_iterate hex hop, Dream.step, hex, if_neg hpast]
      simp only [Dream.iterate, hop, Option.map_some, if_neg hpast]
    · exact absurd trivial hc
  | checkpoint =>
    rw [Steady] at hc
    split at hc
    next plan last seq hex =>
      push Not at hc
      obtain ⟨hs, hcaught⟩ := hc
      obtain ⟨x, hx, hnot⟩ : ∃ x ∈ L.throttled, x ∉ L.settled := by
        simpa [CaughtUp] using hcaught
      have hp : Passed L plan last (seq+1) := h.position _ hex
      refine ⟨_, by rw [step, Dream.step, hex]; rfl, fun hm => hnot ?_⟩
      obtain ⟨hlt, hat⟩ := hp.put_off x hx
      refine hm.settled seq plan ?_ ?_ x.1 x.2 (by omega) hat
      · simp [moveTo, recordCommitted, hs]
      · simp [moveTo, recordCommitted, hs, hp.followed]
    · exact absurd trivial hc
  | start | resume | finish | cancel | crash | write => exact absurd trivial hc

/-- The recorded position is a prefix mark all along a run, through skips,
rejections, failures and crashes, if and only if it is never moved past an
operation put off in the same pass and every new plan has at the recorded
positions what was settled there. -/
theorem prefix_mark_exact (K : Stack σ Op) (opType : Op → κ) (st : σ) (es : List (Event σ)) :
    Machine.Always (step K opType) PrefixMark (opened st) es ↔
      Machine.Meets (step K opType) (Steady K) (opened st) es :=
  Machine.always_iff_meets (fun _ e _ h hc hL => kept_step h e hc hL) (fun _ h => h.mark)
    (fun _ e h hc => unsteady_step h e hc) es _ (kept_opened st)

end Turn

section Budget

variable [DecidableEq Op]

instance (L : Ledger σ Op κ) : Decidable (CaughtUp L) :=
  inferInstanceAs (Decidable (∀ x ∈ L.throttled, x ∈ L.settled))

instance (K : Stack σ Op) (L : Ledger σ Op κ) : ∀ e, Decidable (Steady K L e)
  | .plan =>
    match h : L.run.executor with
    | some .planning =>
      decidable_of_iff (∀ i < (K.planDream L.run.store).length,
        ∀ op, (K.planDream L.run.store)[i]? = some op →
          (i:ℤ) ≤ readLastCommitted L.run → (i,op) ∈ L.settled) (by simp only [Steady, h])
    | some (.applying _ _ _) | some (.checkpointing _ _ _) | none =>
      isTrue (by simp only [Steady, h])
  | .iterate budgetExhausted =>
    match h : L.run.executor with
    | some (.applying plan last seq) =>
      decidable_of_iff (∀ op, plan[seq]? = some op → last < (seq:ℤ) → K.runStore = true →
        throttles K budgetExhausted op = false → recordedApart K op = false → CaughtUp L)
        (by simp only [Steady, h])
    | some .planning | some (.checkpointing _ _ _) | none => isTrue (by simp only [Steady, h])
  | .checkpoint =>
    match h : L.run.executor with
    | some (.checkpointing _ _ _) =>
      decidable_of_iff (K.runStore = true → CaughtUp L) (by simp only [Steady, h])
    | some .planning | some (.applying _ _ _) | none => isTrue (by simp only [Steady, h])
  | .start | .resume | .finish | .cancel | .crash | .write _ => isTrue trivial

inductive OpKind where
  | pruneEdges
  | communitySummary
  deriving DecidableEq, Repr

/-- A summary between two edges to prune, on PostgreSQL; only the summary calls
the language model. -/
def summaryBetween : Stack Unit OpKind where
  planDream := fun _ => [.pruneEdges, .communitySummary, .pruneEdges]
  getApplyHandler := fun _ => some id
  applySurrealdbOp := fun _ => id
  llmOpKinds := fun op => decide (op = .communitySummary)
  surrealdbNativeApplyKinds := fun op => decide (op = .pruneEdges)
  backendSupported := fun _ => true
  backend := .sql
  runStore := true

def resumedWithinBudget : List (Event Unit) :=
  [.start, .plan, .iterate false, .crash, .resume, .plan, .iterate true, .iterate false,
    .iterate true, .finish]

theorem resumed_within_budget_marks :
    Machine.Always (step summaryBetween id) PrefixMark (opened ()) resumedWithinBudget :=
  (prefix_mark_exact summaryBetween id () resumedWithinBudget).mpr (by decide)

/-- The budget is exhausted at the summary; the next edge is pruned and
recorded, and a resumption with a new budget passes the summary over. -/
def throttledThenCommitted : List (Event Unit) :=
  [.start, .plan, .iterate true, .iterate true, .iterate true, .finish, .resume, .plan,
    .iterate false, .iterate false, .iterate false, .finish]

theorem summary_never_made :
    ∃ L, Machine.run (step summaryBetween id) (opened ()) throttledThenCommitted = some L ∧
      L.run.lastCommittedOpSeq = some 2 ∧ L.settled = [(0,.pruneEdges), (2,.pruneEdges)] ∧
      ¬ PrefixMark L := by
  refine ⟨_, rfl, rfl, rfl, fun h => ?_⟩
  have hm := h.settled 2 _ rfl rfl 1 .communitySummary (by decide) rfl
  exact absurd hm (by decide)

end Budget

end Uru.Dream.Checkpoint
