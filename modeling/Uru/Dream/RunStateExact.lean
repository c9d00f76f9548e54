import Uru.Lib.Calls
import Uru.Dream.RunState

/-!
# When the recorded state is honest

While no two live calls share a run id, a call alone writes its row and its
flag. The loop has accounted for every position it has been over, and what it
counts as applied of a kind are the positions applied under the run id. Both are
kept from await to await; a call that reaches the end of its plan may then mark
the row.
-/

set_option autoImplicit false

namespace Uru.Dream.RunState

open Uru.Lib

variable {η κ Op : Type*} [DecidableEq κ] [DecidableEq Op] {opType : Op → κ}
  {w w' : World η κ Op} {i : ℕ} {c d : Call κ Op η} {q seq : ℕ} {plan : List Op} {last : ℤ}
  {op : Op}

section Condition

/-- What the condition asks of an await: the plan of a resume has behind the
checkpoint what was applied there, and nothing new if the row is marked
completed; and no loop that was cut short goes on to finalize. -/
def Allowed (w : World η κ Op) (c : Call κ Op η) : Answer Op → Prop
  | .plan ops => ∀ row, w.rows c.runId = some row → ∀ k < ops.length, ∀ op, ops[k]? = some op →
      ((k:ℤ) ≤ row.lastCommittedOpSeq → (c.runId,k,op) ∈ w.applied) ∧
        (row.state = .completed → Accounted w c.runId k op)
  | _ => c.cut = true → c.stage.finalizes = false

def Orderly (w : World η κ Op) : Event η Op → Prop
  | .start runId _ mode _ => (∀ c ∈ w.calls, c.stage.live = true → c.runId ≠ runId) ∧
      ∀ row, w.rows runId = some row → row.mode = mode
  | .advance i a => ∀ c, w.calls[i]? = some c → Allowed w c a
  | _ => True

end Condition

section Counts

/-- What a call touches belongs to its run id; what is recorded of the
operations only grows. -/
structure Touches (w w' : World η κ Op) (id : ℕ) : Prop where
  rows : ∀ k, k ≠ id → w'.rows k = w.rows k
  cancelFlags : ∀ k, k ≠ id → w'.cancelFlags k = w.cancelFlags k
  applied : ∀ x ∈ w.applied, x ∈ w'.applied
  skipped : ∀ x ∈ w.skipped, x ∈ w'.skipped

def Counted (opType : Op → κ) (w : World η κ Op) (id : ℕ) (r : Result κ Op) : Prop :=
  ∀ s ∈ r.2, s.applied ≤ appliedOf opType w id r.1 s.opType

omit [DecidableEq κ] [DecidableEq Op] in
theorem Accounted.mono (h : Touches w w' q) {n k : ℕ} (ha : Accounted w n k op) :
    Accounted w' n k op :=
  ha.imp (h.applied _) (h.skipped _)

theorem appliedOf_mono (h : Touches w w' q) (n : ℕ) (plan : List Op) (key : κ) :
    appliedOf opType w n plan key ≤ appliedOf opType w' n plan key := by
  refine List.countP_mono_left (fun x _ hx => ?_)
  simp only [Bool.and_eq_true, decide_eq_true_eq] at hx ⊢
  exact ⟨hx.1, h.applied _ hx.2⟩

theorem Counted.mono (h : Touches w w' q) {n : ℕ} {r : Result κ Op}
    (hc : Counted opType w n r) : Counted opType w' n r :=
  fun s hs => (hc s hs).trans (appliedOf_mono h n r.1 s.opType)

/-- The loop has been over the positions before `seq`; what it passed over was
applied before. -/
structure Through (opType : Op → κ) (w : World η κ Op) (c : Call κ Op η) (plan : List Op)
    (last : ℤ) (seq : ℕ) : Prop where
  row : ∀ row, w.rows c.runId = some row → row.plan = plan
  behind : ∀ (k : ℕ) (op : Op), (k:ℤ) ≤ last → plan[k]? = some op →
    (c.runId,k,op) ∈ w.applied
  before : ∀ (k : ℕ) (op : Op), k < seq → plan[k]? = some op → Accounted w c.runId k op
  counts : ∀ key, (plan.take seq).countP (fun op => decide (opType op = key)) ≤
    appliedOf opType w c.runId (plan.take seq) key+remaining c.skippedByOpType key

theorem Through.mono (h : Through opType w c plan last seq) (ht : Touches w w' q)
    (hrow : w'.rows c.runId = w.rows c.runId) : Through opType w' c plan last seq where
  row := by
    rw [hrow]
    exact h.row
  behind := fun k op hk hop => ht.applied _ (h.behind k op hk hop)
  before := fun k op hk hop => (h.before k op hk hop).mono ht
  counts := fun key => (h.counts key).trans (Nat.add_le_add_right (appliedOf_mono ht _ _ _) _)

omit [DecidableEq Op] in
theorem take_succ (hop : plan[seq]? = some op) : plan.take (seq+1) = plan.take seq++[op] := by
  rw [List.take_add_one, hop, Option.toList_some]

theorem appliedOf_succ (w : World η κ Op) (n : ℕ) (hop : plan[seq]? = some op) (key : κ) :
    appliedOf opType w n (plan.take (seq+1)) key =
      appliedOf opType w n (plan.take seq) key+
        (if opType op = key ∧ (n,seq,op) ∈ w.applied then 1 else 0) := by
  have hlen : (plan.take seq).length = seq := by
    rw [List.length_take]
    have := (List.getElem?_eq_some_iff.mp hop).1
    omega
  rw [appliedOf, take_succ hop, List.zipIdx_append, List.countP_append, hlen]
  congr 1
  simp [List.zipIdx_cons, List.countP_cons]

/-- One more position is accounted for: applied, or skipped and counted as a
skip. -/
theorem Through.next (h : Through opType w c plan last seq) (ht : Touches w w' q)
    (hop : plan[seq]? = some op) (hid : d.runId = c.runId)
    (hrow : ∀ row, w'.rows d.runId = some row → row.plan = plan)
    (hstep : ((d.runId,seq,op) ∈ w'.applied ∧ d.skippedByOpType = c.skippedByOpType) ∨
      ((d.runId,seq,op) ∈ w'.skipped ∧ d.skippedByOpType =
        c.skippedByOpType.set (opType op) (remaining c.skippedByOpType (opType op)+1))) :
    Through opType w' d plan last (seq+1) where
  row := hrow
  behind := by
    rw [hid]
    exact fun k op hk hop => ht.applied _ (h.behind k op hk hop)
  before := by
    intro k x hk hx
    by_cases hs : k < seq
    · rw [hid]
      exact (h.before k x hs hx).mono ht
    · obtain rfl : k = seq := by omega
      obtain rfl := Option.some.inj (hop.symm.trans hx)
      exact hstep.imp And.left And.left
  counts := by
    intro key
    have hold := h.counts key
    have hmono : appliedOf opType w c.runId (plan.take seq) key ≤
        appliedOf opType w' c.runId (plan.take seq) key := appliedOf_mono ht _ _ _
    rw [take_succ hop, List.countP_append, ← take_succ hop, appliedOf_succ _ _ hop, hid]
    rw [hid] at hstep
    by_cases hkey : opType op = key
    · subst hkey
      rcases hstep with ⟨ha, hs⟩ | ⟨-, hs⟩
      · simp only [hs, ha, and_self, if_true, List.countP_singleton, decide_true]
        omega
      · rw [hs, remaining_set, if_pos rfl]
        simp only [List.countP_singleton, decide_true, if_true]
        omega
    · have hsame : remaining d.skippedByOpType key = remaining c.skippedByOpType key := by
        rcases hstep with ⟨-, hs⟩ | ⟨-, hs⟩
        · rw [hs]
        · rw [hs, remaining_set, if_neg (Ne.symm hkey)]
      rw [hsame]
      simp only [List.countP_singleton, hkey, decide_false, Bool.false_eq_true, if_false,
        false_and]
      omega

/-- At the end of the plan the result counts what was applied. -/
theorem Through.counted (h : Through opType w c plan last plan.length) :
    Counted opType w c.runId (plan,buildResult opType .apply plan c.skippedByOpType) := by
  intro s hs
  have hcount := h.counts s.opType
  rw [List.take_length] at hcount
  rw [buildResult_applied opType plan _ s hs]
  change _ ≤ appliedOf opType w c.runId plan s.opType
  omega

end Counts

section Fit

def Stage.ahead : Stage κ Op → Bool
  | .releasing _ | .failing _ | .clearing _ | .done _ => false
  | _ => true

def Progress (opType : Op → κ) (w : World η κ Op) (c : Call κ Op η) : Prop :=
  match c.stage with
  | .reading plan => ∀ row, w.rows c.runId = some row → row.plan = plan ∧
      ∀ (k : ℕ) (op : Op), (k:ℤ) ≤ row.lastCommittedOpSeq → plan[k]? = some op →
        (c.runId,k,op) ∈ w.applied
  | .looping plan last seq => Through opType w c plan last seq
  | .recording plan last seq => Through opType w c plan last (seq+1)
  | .finalizing plan => c.cut = false → ∃ last, Through opType w c plan last plan.length
  | _ => True

/-- What a call relies on: its flag and its row are its own, and its loop has
accounted for what it has been over. -/
structure Fit (opType : Op → κ) (w : World η κ Op) (i : ℕ) (c : Call κ Op η) : Prop where
  registered : c.stage.live = true → w.cancelFlags c.runId = some i
  seen : c.stage.inside = true → w.rows c.runId = c.seen
  mode : c.stage.live = true → ∀ row, w.rows c.runId = some row → row.mode = c.mode
  asked : c.stage.live = true → c.asked = true → c.cancelFlag = true
  begun : c.begunAfter = 0
  unmarked : c.stage.ahead = true → c.marked = false
  cut : c.cut = true → c.marked = false ∧ c.stage.result = none
  result : ∀ r, c.stage.result = some r → Counted opType w c.runId r
  progress : c.mode = .apply → Progress opType w c

theorem Progress.mono (h : Progress opType w c) (ht : Touches w w' q)
    (hrow : w'.rows c.runId = w.rows c.runId) : Progress opType w' c := by
  unfold Progress at h ⊢
  split at h
  · rw [hrow]
    exact fun row hr => ⟨(h row hr).1, fun k op hk hop => ht.applied _ ((h row hr).2 k op hk hop)⟩
  · exact h.mono ht hrow
  · exact h.mono ht hrow
  · exact fun hc => (h hc).imp (fun _ hl => hl.mono ht hrow)
  · trivial

theorem Progress.same (h : Progress opType w c) (hid : d.runId = c.runId)
    (hstage : d.stage = c.stage) (hcut : d.cut = c.cut)
    (hskips : d.skippedByOpType = c.skippedByOpType) : Progress opType w d := by
  have hthrough : ∀ {plan : List Op} {last : ℤ} {seq : ℕ}, Through opType w c plan last seq →
      Through opType w d plan last seq := by
    intro plan last seq ht
    exact
      { row := by rw [hid]; exact ht.row
        behind := by rw [hid]; exact ht.behind
        before := by rw [hid]; exact ht.before
        counts := by rw [hid, hskips]; exact ht.counts }
  unfold Progress at h ⊢
  rw [hstage, hid, hcut]
  split at h
  · exact h
  · exact hthrough h
  · exact hthrough h
  · exact fun hc => (h hc).imp (fun _ hl => hthrough hl)
  · trivial

omit [DecidableEq κ] [DecidableEq Op] in
theorem inside_live {s : Stage κ Op} (h : s.inside = true) : s.live = true := by
  cases s <;> first | rfl | cases h

/-- A call of another run id is not concerned. -/
theorem Fit.frame (h : Fit opType w i c) (ht : Touches w w' q)
    (hid : c.stage.live = true → c.runId ≠ q) : Fit opType w' i c where
  registered := fun hl => (ht.cancelFlags _ (hid hl)).trans (h.registered hl)
  seen := fun hin => (ht.rows _ (hid (inside_live hin))).trans (h.seen hin)
  mode := by
    intro hl
    rw [ht.rows _ (hid hl)]
    exact h.mode hl
  asked := h.asked
  begun := h.begun
  unmarked := h.unmarked
  cut := h.cut
  result := fun r hr => (h.result r hr).mono ht
  progress := by
    intro hm
    cases hl : c.stage.live with
    | true => exact (h.progress hm).mono ht (ht.rows _ (hid hl))
    | false =>
      unfold Progress
      cases hs : c.stage <;> first | trivial | (rw [hs] at hl; cases hl)

structure Kept (opType : Op → κ) (w : World η κ Op) : Prop where
  completed : ∀ (id : ℕ) (row : Row Op), w.rows id = some row → row.state = .completed →
    row.mode = .apply → ∀ (k : ℕ) (op : Op), row.plan[k]? = some op → Accounted w id k op
  fit : ∀ (i : ℕ) (c : Call κ Op η), w.calls[i]? = some c → Fit opType w i c

theorem honest_of_kept (h : Kept opType w) : Honest opType w where
  completed := h.completed
  uncut := by
    intro c hc hcut
    obtain ⟨i, hi⟩ := List.mem_iff_getElem?.mp hc
    obtain ⟨hmarked, hres⟩ := (h.fit i c hi).cut hcut
    refine ⟨hmarked, fun r hr => ?_⟩
    rw [hr] at hres
    cases hres
  counted := by
    intro c hc r hr
    obtain ⟨i, hi⟩ := List.mem_iff_getElem?.mp hc
    exact (h.fit i c hi).result r (by rw [hr]; rfl)
  undisturbed := fun i c hi hin =>
    ⟨(h.fit i c hi).registered (inside_live hin), (h.fit i c hi).seen hin⟩
  observed := by
    intro c hc hasked hl
    obtain ⟨i, hi⟩ := List.mem_iff_getElem?.mp hc
    exact ⟨(h.fit i c hi).asked hl hasked, (h.fit i c hi).begun⟩

/-- Two live calls do not share a run id. -/
theorem Kept.apart (h : Kept opType w) {j : ℕ} (hi : w.calls[i]? = some c)
    (hj : w.calls[j]? = some d) (hc : c.stage.live = true) (hd : d.stage.live = true)
    (hid : d.runId = c.runId) : j = i := by
  have hreg := (h.fit j d hj).registered hd
  rw [hid, (h.fit i c hi).registered hc] at hreg
  exact (Option.some.inj hreg).symm

/-- A live call moves on and touches what is its own. -/
theorem kept_set (h : Kept opType w) (hi : w.calls[i]? = some c) (hlive : c.stage.live = true)
    (hcalls : w'.calls = w.calls.set i d) (ht : Touches w w' c.runId)
    (hfit : Fit opType w' i d)
    (hrow : ∀ row, w'.rows c.runId = some row → row.state = .completed → row.mode = .apply →
      ∀ (k : ℕ) (op : Op), row.plan[k]? = some op → Accounted w' c.runId k op) :
    Kept opType w' where
  completed := by
    intro id row hr
    by_cases hid : id = c.runId
    · subst hid
      exact hrow row hr
    · rw [ht.rows id hid] at hr
      exact fun hs hm k op hop => (h.completed id row hr hs hm k op hop).mono ht
  fit := by
    intro j b hj
    rw [hcalls] at hj
    rcases Calls.getElem?_set_cases hj with ⟨rfl, rfl⟩ | ⟨hne, hold⟩
    · exact hfit
    · exact (h.fit j b hold).frame ht (fun hl he => hne (h.apart hi hold hlive hl he))

structure Same (c d : Call κ Op η) : Prop where
  runId : d.runId = c.runId
  mode : d.mode = c.mode
  cancelFlag : d.cancelFlag = c.cancelFlag
  asked : d.asked = c.asked
  begunAfter : d.begunAfter = c.begunAfter

/-- A live call moves on and may rewrite its row, but not the row's mode. -/
theorem kept_advance (h : Kept opType w) (hi : w.calls[i]? = some c)
    (hlive : c.stage.live = true) (f : Row Op → Row Op)
    (hrows : w'.rows = Function.update w.rows c.runId ((w.rows c.runId).map f))
    (hf : ∀ row, (f row).mode = row.mode) (hflags : w'.cancelFlags = w.cancelFlags)
    (hcalls : w'.calls = w.calls.set i d) (ha : ∀ x ∈ w.applied, x ∈ w'.applied)
    (hs : ∀ x ∈ w.skipped, x ∈ w'.skipped) (hsame : Same c d)
    (hseen : d.stage.inside = true → d.seen = (w.rows c.runId).map f)
    (hmarked : d.stage.ahead = true → d.marked = false)
    (hcut : d.cut = true → d.marked = false ∧ d.stage.result = none)
    (hres : ∀ r, d.stage.result = some r → Counted opType w' c.runId r)
    (hprog : c.mode = .apply → Progress opType w' d)
    (hdone : ∀ row, w.rows c.runId = some row → (f row).state = .completed →
      row.mode = .apply → ∀ (k : ℕ) (op : Op), (f row).plan[k]? = some op →
        Accounted w' c.runId k op) : Kept opType w' := by
  have hrow : w'.rows c.runId = (w.rows c.runId).map f := by
    rw [hrows, Function.update_self]
  have ht : Touches w w' c.runId :=
    ⟨fun k hk => by rw [hrows, Function.update_of_ne hk], fun k _ => by rw [hflags], ha, hs⟩
  have hfit := h.fit i c hi
  refine kept_set h hi hlive hcalls ht ?_ ?_
  · exact
      { registered := fun _ => by rw [hsame.runId, hflags, hfit.registered hlive]
        seen := fun hin => by rw [hsame.runId, hrow, hseen hin]
        mode := by
          intro _ row hr
          rw [hsame.runId, hrow] at hr
          obtain ⟨old, hold, rfl⟩ := Option.map_eq_some_iff.mp hr
          rw [hf, hfit.mode hlive old hold, hsame.mode]
        asked := by
          intro _ hasked
          rw [hsame.cancelFlag]
          exact hfit.asked hlive (hsame.asked.symm.trans hasked)
        begun := hsame.begunAfter.trans hfit.begun
        unmarked := hmarked
        cut := hcut
        result := fun r hr => by
          rw [hsame.runId]
          exact hres r hr
        progress := fun hm => hprog (hsame.mode.symm.trans hm) }
  · intro row hr hc hm
    rw [hrow] at hr
    obtain ⟨old, hold, rfl⟩ := Option.map_eq_some_iff.mp hr
    rw [hf] at hm
    exact hdone old hold hc hm

/-- The call moves on and writes nothing that others read. -/
theorem kept_move (h : Kept opType w) (hi : w.calls[i]? = some c) (hlive : c.stage.live = true)
    (hrows : w'.rows = w.rows) (hflags : w'.cancelFlags = w.cancelFlags)
    (hcalls : w'.calls = w.calls.set i d) (ha : ∀ x ∈ w.applied, x ∈ w'.applied)
    (hs : ∀ x ∈ w.skipped, x ∈ w'.skipped) (hsame : Same c d)
    (hseen : d.stage.inside = true → d.seen = w.rows c.runId)
    (hmarked : d.stage.ahead = true → d.marked = false)
    (hcut : d.cut = true → d.marked = false ∧ d.stage.result = none)
    (hres : ∀ r, d.stage.result = some r → Counted opType w' c.runId r)
    (hprog : c.mode = .apply → Progress opType w' d) : Kept opType w' := by
  have hid : ∀ x : Option (Row Op), x.map (fun row => row) = x := fun x => by cases x <;> rfl
  refine kept_advance h hi hlive (fun row => row) ?_ (fun _ => rfl) hflags hcalls ha hs hsame ?_
    hmarked hcut hres hprog ?_
  · rw [hid, Function.update_eq_self, hrows]
  · intro hin
    rw [hid, hseen hin]
  · intro row hr hc hm k op hop
    exact (h.completed c.runId row hr hc hm k op hop).imp (ha _) (hs _)

end Fit

section Steps

variable {a : Answer Op} {o : Outcome}

omit [DecidableEq κ] [DecidableEq Op] in
theorem beginOp_eq (h : c.asked = false) : beginOp c = c := by
  cases c
  subst h
  rfl

omit [DecidableEq κ] [DecidableEq Op] in
theorem write_row (w : World η κ Op) (i : ℕ) (c : Call κ Op η) (row : Option (Row Op)) :
    (write w i c row).rows c.runId = row := by
  simp only [write, Function.update_self]

/-- No result is underway where the call still has steps inside the lock. -/
theorem cut_kept (h : Fit opType w i c) {s : Stage κ Op} (hs : s.result = none)
    (hc : c.cut = true) : c.marked = false ∧ s.result = none :=
  ⟨(h.cut hc).1, hs⟩

theorem kept_locked (h : Kept opType w) (hi : w.calls[i]? = some c) (hs : c.stage = .locking)
    (locks : η → Option ℕ) :
    Kept opType
      { write w i { c with stage := .initializing } (w.rows c.runId) with locks := locks } := by
  have hfit := h.fit i c hi
  refine kept_move h hi (by rw [hs]; rfl) (Function.update_eq_self _ _) rfl rfl
    (fun _ hx => hx) (fun _ hx => hx) ⟨rfl, rfl, rfl, rfl, rfl⟩ (fun _ => rfl)
    (fun _ => hfit.unmarked (by rw [hs]; rfl)) (cut_kept hfit rfl) (fun r hr => by cases hr)
    (fun _ => trivial)

theorem kept_initialized (h : Kept opType w) (hi : w.calls[i]? = some c)
    (hs : c.stage = .initializing) :
    Kept opType (write w i { c with stage := .planning }
      (if c.isResume then w.rows c.runId else recordRun c.mode (w.rows c.runId))) := by
  have hfit := h.fit i c hi
  have hlive : c.stage.live = true := by rw [hs]; rfl
  have hrow : ∀ row, (if c.isResume then w.rows c.runId
      else recordRun c.mode (w.rows c.runId)) = some row →
        w.rows c.runId = some row ∨ (row.mode = c.mode ∧ row.state = .planning) := by
    intro row hr
    split_ifs at hr
    · exact Or.inl hr
    · cases hold : w.rows c.runId with
      | some old =>
        rw [hold] at hr
        exact Or.inl hr
      | none =>
        rw [hold] at hr
        obtain rfl := Option.some.inj hr
        exact Or.inr ⟨rfl, rfl⟩
  have ht : Touches w (write w i { c with stage := .planning }
      (if c.isResume then w.rows c.runId else recordRun c.mode (w.rows c.runId)))
      c.runId :=
    ⟨fun k hk => Function.update_of_ne hk _ _, fun _ _ => rfl, fun _ hx => hx, fun _ hx => hx⟩
  refine kept_set h hi hlive rfl ht ?_ ?_
  · exact
      { registered := fun _ => hfit.registered hlive
        seen := fun _ => Function.update_self _ _ _
        mode := by
          intro _ row hr
          rcases hrow row ((write_row w i { c with stage := .planning } _).symm.trans hr) with
            hold | hnew
          · exact hfit.mode hlive row hold
          · exact hnew.1
        asked := fun _ => hfit.asked hlive
        begun := hfit.begun
        unmarked := fun _ => hfit.unmarked (by rw [hs]; rfl)
        cut := cut_kept hfit rfl
        result := fun r hr => by cases hr
        progress := fun _ => trivial }
  · intro row hr hc hm k op hop
    rcases hrow row ((write_row w i { c with stage := .planning } _).symm.trans hr) with
      hold | hnew
    · exact h.completed c.runId row hold hc hm k op hop
    · rw [hnew.2] at hc
      cases hc

theorem kept_planned (h : Kept opType w) (hi : w.calls[i]? = some c) (hs : c.stage = .planning)
    (hok : ∀ row, w.rows c.runId = some row → ∀ k < plan.length, ∀ op, plan[k]? = some op →
      ((k:ℤ) ≤ row.lastCommittedOpSeq → (c.runId,k,op) ∈ w.applied) ∧
        (row.state = .completed → Accounted w c.runId k op)) :
    Kept opType (write w i
      { c with
        stage := match c.mode with
          | .dryRun => .looping plan (-1) 0
          | .apply => .reading plan }
      ((w.rows c.runId).map (persistPlan plan))) := by
  have hfit := h.fit i c hi
  refine kept_advance h hi (by rw [hs]; rfl) (persistPlan plan) rfl (fun _ => rfl) rfl rfl
    (fun _ hx => hx) (fun _ hx => hx) ⟨rfl, rfl, rfl, rfl, rfl⟩ (fun _ => rfl)
    (fun _ => hfit.unmarked (by rw [hs]; rfl)) ?_ ?_ ?_ ?_
  · intro hc
    refine ⟨(hfit.cut hc).1, ?_⟩
    cases c.mode <;> rfl
  · intro r hr
    cases hm : c.mode <;> (rw [hm] at hr; cases hr)
  · intro hm
    simp only [Progress, hm]
    intro row hr
    obtain ⟨old, hold, rfl⟩ := Option.map_eq_some_iff.mp
      ((write_row w i { c with stage := .reading plan } _).symm.trans hr)
    exact ⟨rfl, fun k op hk hop =>
      (hok old hold k (List.getElem?_eq_some_iff.mp hop).1 op hop).1 hk⟩
  · intro row hr hc hm k op hop
    have hstate : row.state = .completed := by
      rw [persistPlan] at hc
      dsimp only at hc
      split_ifs at hc
      exact hc
    exact (hok row hr k (List.getElem?_eq_some_iff.mp hop).1 op hop).2 hstate

theorem kept_read (h : Kept opType w) (hi : w.calls[i]? = some c)
    (hs : c.stage = .reading plan) :
    Kept opType (move w i
      { c with
        stage := .looping plan
          (((w.rows c.runId).map (·.lastCommittedOpSeq)).getD (-1)) 0 }) := by
  have hfit := h.fit i c hi
  refine kept_move h hi (by rw [hs]; rfl) rfl rfl rfl (fun _ hx => hx) (fun _ hx => hx)
    ⟨rfl, rfl, rfl, rfl, rfl⟩ (fun _ => (hfit.seen (by rw [hs]; rfl)).symm)
    (fun _ => hfit.unmarked (by rw [hs]; rfl)) (cut_kept hfit rfl) (fun r hr => by cases hr)
    (fun hm => ?_)
  have hprog := hfit.progress hm
  rw [Progress, hs] at hprog
  exact
    { row := fun row hr => (hprog row hr).1
      behind := by
        intro k op hk hop
        cases hrow : w.rows c.runId with
        | none =>
          simp only [hrow, Option.map_none, Option.getD_none] at hk
          omega
        | some row =>
          simp only [hrow, Option.map_some, Option.getD_some] at hk
          exact (hprog row hrow).2 k op hk hop
      before := fun k op hk => by omega
      counts := fun key => by simp }

theorem Through.past (h : Through opType w c plan last seq) (hlen : plan.length ≤ seq) :
    Through opType w c plan last plan.length where
  row := h.row
  behind := h.behind
  before := fun k op hk hop => h.before k op (by omega) hop
  counts := by
    have hc := h.counts
    rwa [List.take_of_length_le hlen, ← List.take_length (l := plan)] at hc

/-- Passing over a position that was applied before. -/
theorem Through.over (h : Through opType w c plan last seq) (hle : (seq:ℤ) ≤ last)
    (hop : plan[seq]? = some op) : Through opType w c plan last (seq+1) :=
  h.next (q := c.runId) ⟨fun _ _ => rfl, fun _ _ => rfl, fun _ hx => hx, fun _ hx => hx⟩ hop rfl
    h.row (Or.inl ⟨h.behind seq op hle hop, rfl⟩)

theorem kept_at_end (h : Kept opType w) (hi : w.calls[i]? = some c)
    (hs : c.stage = .looping plan last seq) (hend : plan[seq]? = none) :
    Kept opType (move w i { c with stage := .finalizing plan }) := by
  have hfit := h.fit i c hi
  refine kept_move h hi (by rw [hs]; rfl) rfl rfl rfl (fun _ hx => hx) (fun _ hx => hx)
    ⟨rfl, rfl, rfl, rfl, rfl⟩ (fun _ => (hfit.seen (by rw [hs]; rfl)).symm)
    (fun _ => hfit.unmarked (by rw [hs]; rfl)) (cut_kept hfit rfl) (fun r hr => by cases hr)
    (fun hm _ => ?_)
  have hprog := hfit.progress hm
  rw [Progress, hs] at hprog
  have hpast := hprog.past (List.getElem?_eq_none_iff.mp hend)
  exact ⟨last, hpast.row, hpast.behind, hpast.before, hpast.counts⟩

theorem kept_cut_short (h : Kept opType w) (hi : w.calls[i]? = some c)
    (hs : c.stage = .looping plan last seq) :
    Kept opType (move w i
      { c with
        stage := .finalizing plan
        cut := true }) := by
  have hfit := h.fit i c hi
  exact kept_move h hi (by rw [hs]; rfl) rfl rfl rfl (fun _ hx => hx) (fun _ hx => hx)
    ⟨rfl, rfl, rfl, rfl, rfl⟩ (fun _ => (hfit.seen (by rw [hs]; rfl)).symm)
    (fun _ => hfit.unmarked (by rw [hs]; rfl))
    (fun _ => ⟨hfit.unmarked (by rw [hs]; rfl), rfl⟩) (fun r hr => by cases hr)
    (fun _ hc => by cases hc)

/-- The loop goes on: an operation is reported, passed over, or applied and not
yet recorded. -/
theorem kept_looping (h : Kept opType w) (hi : w.calls[i]? = some c) {n : ℕ} {s : Stage κ Op}
    (hs : c.stage = .looping plan last seq)
    (hnext : s = .looping plan last n ∨ s = .recording plan last seq)
    (hrows : w'.rows = w.rows) (hflags : w'.cancelFlags = w.cancelFlags)
    {skips : Record κ ℕ}
    (hcalls : w'.calls = w.calls.set i
      { c with
        stage := s
        skippedByOpType := skips })
    (ha : ∀ x ∈ w.applied, x ∈ w'.applied) (hsk : ∀ x ∈ w.skipped, x ∈ w'.skipped)
    (hprog : c.mode = .apply → Progress opType w'
      { c with
        stage := s
        skippedByOpType := skips }) : Kept opType w' := by
  have hfit := h.fit i c hi
  have hmarked : c.marked = false := hfit.unmarked (by rw [hs]; rfl)
  refine kept_move h hi (by rw [hs]; rfl) hrows hflags hcalls ha hsk ⟨rfl, rfl, rfl, rfl, rfl⟩
    (fun _ => (hfit.seen (by rw [hs]; rfl)).symm) (fun _ => hmarked) (fun _ => ⟨hmarked, ?_⟩) ?_
    hprog
  · rcases hnext with rfl | rfl <;> rfl
  · intro r hr
    rcases hnext with rfl | rfl <;> cases hr

/-- The checkpoint is advanced over an operation that is accounted for. -/
theorem kept_checkpointed (h : Kept opType w) (hi : w.calls[i]? = some c)
    (hs : c.stage = .looping plan last seq ∨ c.stage = .recording plan last seq)
    (hrows : w'.rows =
      Function.update w.rows c.runId ((w.rows c.runId).map (advanceCheckpoint seq)))
    (hflags : w'.cancelFlags = w.cancelFlags) {skips : Record κ ℕ}
    (hcalls : w'.calls = w.calls.set i
      { c with
        stage := .looping plan last (seq+1)
        skippedByOpType := skips
        seen := (w.rows c.runId).map (advanceCheckpoint seq) })
    (ha : ∀ x ∈ w.applied, x ∈ w'.applied) (hsk : ∀ x ∈ w.skipped, x ∈ w'.skipped)
    (hprog : c.mode = .apply → Progress opType w'
      { c with
        stage := .looping plan last (seq+1)
        skippedByOpType := skips
        seen := (w.rows c.runId).map (advanceCheckpoint seq) }) : Kept opType w' := by
  have hfit := h.fit i c hi
  have hmarked : c.marked = false := by
    rcases hs with hs | hs <;> exact hfit.unmarked (by rw [hs]; rfl)
  have hlive : c.stage.live = true := by rcases hs with hs | hs <;> (rw [hs]; rfl)
  refine kept_advance h hi hlive (advanceCheckpoint seq) hrows (fun _ => rfl) hflags hcalls ha hsk
    ⟨rfl, rfl, rfl, rfl, rfl⟩ (fun _ => rfl) (fun _ => hmarked) (fun _ => ⟨hmarked, rfl⟩)
    (fun r hr => by cases hr) hprog ?_
  intro row hr hc hm k op hop
  exact (h.completed c.runId row hr hc hm k op hop).imp (ha _) (hsk _)

omit [DecidableEq κ] [DecidableEq Op] in
theorem checkpointed_row (h : ∀ row, w.rows q = some row → row.plan = plan)
    (hrows : w'.rows = Function.update w.rows q ((w.rows q).map (advanceCheckpoint seq)))
    (row : Row Op) (hr : w'.rows q = some row) : row.plan = plan := by
  rw [hrows, Function.update_self] at hr
  obtain ⟨old, hold, rfl⟩ := Option.map_eq_some_iff.mp hr
  exact h old hold

theorem kept_applyOp (h : Kept opType w) (hi : w.calls[i]? = some c)
    (hs : c.stage = .looping plan last seq) (hop : plan[seq]? = some op)
    (hasked : c.asked = false) (hm : c.mode = .apply) :
    Kept opType (applyOp opType w i c plan last seq op o) := by
  have hprog : Through opType w c plan last seq := by
    have hp := (h.fit i c hi).progress hm
    rwa [Progress, hs] at hp
  have happ : ∀ x ∈ w.applied, x ∈ w.applied++[(c.runId,seq,op)] := fun _ hx =>
    List.mem_append_left _ hx
  have hskip : ∀ x ∈ w.skipped, x ∈ w.skipped++[(c.runId,seq,op)] := fun _ hx =>
    List.mem_append_left _ hx
  have hlast : ∀ xs : List (ℕ × ℕ × Op), (c.runId,seq,op) ∈ xs++[(c.runId,seq,op)] := fun _ =>
    List.mem_append_right _ (List.mem_singleton.mpr rfl)
  have hother : ∀ k, k ≠ c.runId → Function.update w.rows c.runId
      ((w.rows c.runId).map (advanceCheckpoint seq)) k = w.rows k := fun k hk =>
    Function.update_of_ne hk _ _
  cases o with
  | applied =>
    rw [applyOp, beginOp_eq hasked]
    refine kept_checkpointed h hi (Or.inl hs) rfl rfl rfl happ (fun _ hx => hx) (fun _ => ?_)
    exact hprog.next ⟨hother, fun _ _ => rfl, happ, fun _ hx => hx⟩ hop rfl
      (checkpointed_row hprog.row rfl) (Or.inl ⟨hlast _, rfl⟩)
  | appliedApart =>
    rw [applyOp, beginOp_eq hasked]
    refine kept_looping h hi (n := 0) hs (Or.inr rfl) rfl rfl rfl happ (fun _ hx => hx)
      (fun _ => ?_)
    exact hprog.next (q := c.runId) ⟨fun _ _ => rfl, fun _ _ => rfl, happ, fun _ hx => hx⟩ hop rfl
      hprog.row (Or.inl ⟨hlast _, rfl⟩)
  | throttled =>
    rw [applyOp, beginOp_eq hasked]
    refine kept_looping h hi hs (Or.inl rfl) rfl rfl rfl (fun _ hx => hx) hskip (fun _ => ?_)
    exact hprog.next (q := c.runId) ⟨fun _ _ => rfl, fun _ _ => rfl, fun _ hx => hx, hskip⟩ hop
      rfl hprog.row (Or.inr ⟨hlast _, rfl⟩)
  | unsupported =>
    rw [applyOp, beginOp_eq hasked]
    refine kept_checkpointed h hi (Or.inl hs) rfl rfl rfl (fun _ hx => hx) hskip (fun _ => ?_)
    exact hprog.next ⟨hother, fun _ _ => rfl, fun _ hx => hx, hskip⟩ hop rfl
      (checkpointed_row hprog.row rfl) (Or.inr ⟨hlast _, rfl⟩)

theorem kept_turn (h : Kept opType w) (hi : w.calls[i]? = some c)
    (hs : c.stage = .looping plan last seq) :
    Kept opType (turn opType w i c plan last seq o) := by
  have hfit := h.fit i c hi
  unfold turn
  split
  next hop => exact kept_at_end h hi hs hop
  next op hop =>
    split
    · exact kept_cut_short h hi hs
    next hflag =>
      have hasked : c.asked = false := by
        cases ha : c.asked with
        | false => rfl
        | true => exact absurd (hfit.asked (by rw [hs]; rfl) ha) hflag
      split
      next hm =>
        rw [beginOp_eq hasked]
        refine kept_looping h hi hs (Or.inl rfl) rfl rfl rfl (fun _ hx => hx) (fun _ hx => hx)
          (fun ha => ?_)
        rw [hm] at ha
        cases ha
      next hm =>
        split
        next hle =>
          have hp := hfit.progress hm
          rw [Progress, hs] at hp
          have hover := hp.over hle hop
          exact kept_looping h hi hs (Or.inl rfl) rfl rfl rfl (fun _ hx => hx) (fun _ hx => hx)
            (fun _ => ⟨hover.row, hover.behind, hover.before, hover.counts⟩)
        next => exact kept_applyOp h hi hs hop hasked hm

theorem kept_recorded (h : Kept opType w) (hi : w.calls[i]? = some c)
    (hs : c.stage = .recording plan last seq) :
    Kept opType (write w i { c with stage := .looping plan last (seq+1) }
      ((w.rows c.runId).map (advanceCheckpoint seq))) := by
  refine kept_checkpointed h hi (Or.inr hs) rfl rfl rfl (fun _ hx => hx) (fun _ hx => hx)
    (fun hm => ?_)
  have hp := (h.fit i c hi).progress hm
  rw [Progress, hs] at hp
  exact ⟨checkpointed_row hp.row rfl, hp.behind, hp.before, hp.counts⟩

omit [DecidableEq Op] in
theorem dryRun_applied (ops : List Op) (skips : Record κ ℕ)
    (summaries : Record κ (OpSummary κ)) (h0 : ∀ key, (current summaries key).applied = 0)
    (key : κ) :
    (current (countOps opType .dryRun ops skips summaries) key).applied = 0 := by
  induction ops generalizing skips summaries with
  | nil => exact h0 key
  | cons op ops ih =>
    refine ih _ _ (fun key => ?_)
    rw [current_set]
    split_ifs
    · exact h0 _
    · exact h0 key

/-- The loop is through: all positions are accounted for, and the result counts
what was applied. -/
theorem kept_finalized (h : Kept opType w) (hi : w.calls[i]? = some c)
    (hs : c.stage = .finalizing plan) (hcut : c.cut = false) :
    Kept opType (write w i
      { c with
        stage := .releasing (plan,buildResult opType c.mode plan c.skippedByOpType)
        marked := true }
      ((w.rows c.runId).map (finalizeRun .completed plan.length))) := by
  have hfit := h.fit i c hi
  have hlive : c.stage.live = true := by rw [hs]; rfl
  refine kept_advance h hi hlive (finalizeRun .completed plan.length) rfl (fun _ => rfl) rfl rfl
    (fun _ hx => hx) (fun _ hx => hx) ⟨rfl, rfl, rfl, rfl, rfl⟩ (fun _ => rfl)
    (fun ha => by cases ha) (fun hc => ?_) ?_ (fun _ => trivial) ?_
  · rw [hcut] at hc
    cases hc
  · intro r hr
    obtain rfl := Option.some.inj hr
    cases hm : c.mode with
    | apply =>
      have hp := hfit.progress hm
      rw [Progress, hs] at hp
      obtain ⟨last, hp⟩ := hp hcut
      exact hp.counted
    | dryRun =>
      intro s hsum
      obtain ⟨⟨key, x⟩, hmem, rfl⟩ := List.mem_map.mp hsum
      have hzero : (current (countOps opType .dryRun plan c.skippedByOpType ∅) key).applied =
        0 := dryRun_applied plan c.skippedByOpType ∅ (fun _ => rfl) key
      rw [current, (Record.mem_entries _ key x).mp hmem, Option.getD_some] at hzero
      rw [hzero]
      exact Nat.zero_le _
  · intro row hr _ hm k op hop
    have hmode : c.mode = .apply := (hfit.mode hlive row hr).symm.trans hm
    have hp := hfit.progress hmode
    rw [Progress, hs] at hp
    obtain ⟨last, hp⟩ := hp hcut
    have hop' : plan[k]? = some op := by rw [← hp.row row hr]; exact hop
    exact hp.before k op (List.getElem?_eq_some_iff.mp hop').1 hop'

theorem kept_failed (h : Kept opType w) (hi : w.calls[i]? = some c) {aborted : Bool}
    (hs : c.stage = .failing aborted) :
    Kept opType (write w i { c with stage := .clearing none }
      ((w.rows c.runId).map
        (finalizeRun (if aborted then .abortedSafety else .failed) 0))) := by
  have hfit := h.fit i c hi
  refine kept_advance h hi (by rw [hs]; rfl) _ rfl (fun _ => rfl) rfl rfl (fun _ hx => hx)
    (fun _ hx => hx) ⟨rfl, rfl, rfl, rfl, rfl⟩ (fun hin => by cases hin) (fun ha => by cases ha)
    (cut_kept hfit rfl) (fun r hr => by cases hr) (fun _ => trivial) ?_
  intro row _ hc
  rw [finalizeRun] at hc
  cases aborted <;> cases hc

theorem kept_cleared (h : Kept opType w) (hi : w.calls[i]? = some c)
    {result : Option (Result κ Op)} (hs : c.stage = .clearing result) :
    Kept opType
      { move w i { c with stage := .done result } with
        cancelFlags := Function.update w.cancelFlags c.runId none } := by
  have hfit := h.fit i c hi
  have hlive : c.stage.live = true := by rw [hs]; rfl
  have hres : c.stage.result = result := by rw [hs]; rfl
  refine kept_set h hi hlive rfl
    ⟨fun _ _ => rfl, fun k hk => Function.update_of_ne hk _ _, fun _ hx => hx, fun _ hx => hx⟩ ?_
    (fun row hr => h.completed c.runId row hr)
  exact
    { registered := fun hl => by cases hl
      seen := fun hin => by cases hin
      mode := fun hl => by cases hl
      asked := fun hl => by cases hl
      begun := hfit.begun
      unmarked := fun ha => by cases ha
      cut := fun hc => ⟨(hfit.cut hc).1, hres.symm.trans (hfit.cut hc).2⟩
      result := fun r hr => hfit.result r (hres.trans hr)
      progress := fun _ => trivial }

section Unlocking

variable [DecidableEq η]

theorem kept_released (h : Kept opType w) (hi : w.calls[i]? = some c) {result : Result κ Op}
    (hs : c.stage = .releasing result) :
    Kept opType (move (unlock w i c) i { c with stage := .clearing (some result) }) := by
  have hfit := h.fit i c hi
  have hres : c.stage.result = some result := by rw [hs]; rfl
  refine kept_move h hi (by rw [hs]; rfl) rfl rfl rfl (fun _ hx => hx) (fun _ hx => hx)
    ⟨rfl, rfl, rfl, rfl, rfl⟩ (fun hin => by cases hin) (fun ha => by cases ha) (fun hc => ?_)
    (fun r hr => hfit.result r (hres.trans hr)) (fun _ => trivial)
  cases hres.symm.trans (hfit.cut hc).2

omit [DecidableEq κ] [DecidableEq Op] [DecidableEq η] in
theorem raised_cases {s s' : Stage κ Op} {failure : Failure} (h : s.raised failure = some s') :
    s.live = true ∧ ((∃ aborted, s' = .failing aborted) ∨ s' = .clearing none ∨
      s' = .done none) := by
  cases s <;> cases failure <;> cases h <;> exact ⟨rfl, by simp⟩

theorem kept_raised (h : Kept opType w) (hi : w.calls[i]? = some c) {failure : Failure}
    {s : Stage κ Op} (hs : c.stage.raised failure = some s) :
    Kept opType (move (unlock w i c) i { c with stage := s }) := by
  have hfit := h.fit i c hi
  obtain ⟨hlive, hcases⟩ := raised_cases hs
  have hout : s.inside = false ∧ s.ahead = false ∧ s.result = none := by
    rcases hcases with ⟨aborted, rfl⟩ | rfl | rfl <;> exact ⟨rfl, rfl, rfl⟩
  obtain ⟨hin, hahead, hres⟩ := hout
  refine kept_move h hi hlive rfl rfl rfl (fun _ hx => hx) (fun _ hx => hx)
    ⟨rfl, rfl, rfl, rfl, rfl⟩ (fun hx => ?_) (fun hx => ?_) (cut_kept hfit hres) (fun r hr => ?_)
    (fun _ => ?_)
  · cases hin.symm.trans hx
  · cases hahead.symm.trans hx
  · cases hres.symm.trans hr
  · rcases hcases with ⟨aborted, rfl⟩ | rfl | rfl <;> trivial

end Unlocking

theorem kept_started (h : Kept opType w) {runId : ℕ} {mode : Mode}
    (hfree : ∀ c ∈ w.calls, c.stage.live = true → c.runId ≠ runId)
    (hmode : ∀ row, w.rows runId = some row → row.mode = mode) (ns : η) (isResume : Bool) :
    Kept opType
      { w with
        cancelFlags := Function.update w.cancelFlags runId (some w.calls.length)
        calls := w.calls++[Call.started runId ns mode isResume] } where
  completed := h.completed
  fit := by
    intro j b hj
    rw [List.getElem?_append] at hj
    split at hj
    · exact (h.fit j b hj).frame
        ⟨fun _ _ => rfl, fun k hk => Function.update_of_ne hk _ _, fun _ hx => hx,
          fun _ hx => hx⟩ (hfree b (List.mem_of_getElem? hj))
    next hlen =>
      rw [List.getElem?_singleton] at hj
      split at hj
      next hzero =>
        obtain rfl := Option.some.inj hj
        obtain rfl : j = w.calls.length := by omega
        exact
          { registered := fun _ => Function.update_self _ _ _
            seen := fun hin => by cases hin
            mode := fun _ => hmode
            asked := fun _ ha => by cases ha
            begun := rfl
            unmarked := fun _ => rfl
            cut := fun hc => by cases hc
            result := fun r hr => by cases hr
            progress := fun _ => trivial }
      · cases hj

/-- An accepted cancel request reaches the flag of the live call that holds the
run id. -/
theorem kept_cancelled (h : Kept opType w) {runId j : ℕ}
    (hj : w.cancelFlags runId = some j) :
    Kept opType { w with calls := cancelled w runId j } where
  completed := h.completed
  fit := by
    intro k b hk
    rw [cancelled, List.getElem?_mapIdx] at hk
    obtain ⟨c, hc, rfl⟩ := Option.map_eq_some_iff.mp hk
    have hfit := h.fit k c hc
    exact
      { registered := hfit.registered
        seen := hfit.seen
        mode := hfit.mode
        asked := by
          intro hl ha
          dsimp only at hl ha ⊢
          rcases Bool.or_eq_true _ _ ▸ ha with hold | hnew
          · rw [hfit.asked hl hold, Bool.true_or]
          · obtain ⟨hid, -⟩ := Bool.and_eq_true _ _ ▸ hnew
            have hreg := hfit.registered hl
            rw [of_decide_eq_true hid, hj] at hreg
            rw [decide_eq_true (Option.some.inj hreg).symm, Bool.or_true]
        begun := hfit.begun
        unmarked := hfit.unmarked
        cut := hfit.cut
        result := hfit.result
        progress := by
          intro hm
          refine Progress.same (c := c) ?_ rfl rfl rfl rfl
          have ht : Touches w { w with calls := cancelled w runId j } runId :=
            ⟨fun _ _ => rfl, fun _ _ => rfl, fun _ hx => hx, fun _ hx => hx⟩
          exact (hfit.progress hm).mono ht rfl }

variable [DecidableEq η]

theorem kept_act (h : Kept opType w) (hi : w.calls[i]? = some c) (hok : Allowed w c a)
    (hact : act opType w i c a = some w') : Kept opType w' := by
  unfold act at hact
  split at hact
  next hs =>
    split at hact
    · cases hact
      exact kept_locked h hi hs _
    · cases hact
  next hs =>
    cases hact
    exact kept_locked h hi hs w.locks
  next hs =>
    cases hact
    exact kept_initialized h hi hs
  next ops hs =>
    cases hact
    exact kept_planned h hi hs hok
  next plan hs =>
    cases hact
    exact kept_read h hi hs
  next plan last seq o hs =>
    cases hact
    exact kept_turn h hi hs
  next plan last seq hs =>
    cases hact
    exact kept_recorded h hi hs
  next plan hs =>
    cases hact
    refine kept_finalized h hi hs ?_
    cases hcut : c.cut with
    | false => rfl
    | true =>
      have hno := hok hcut
      rw [hs] at hno
      cases hno
  next result hs =>
    cases hact
    exact kept_released h hi hs
  next aborted hs =>
    cases hact
    exact kept_failed h hi hs
  next result hs =>
    cases hact
    exact kept_cleared h hi hs
  · cases hact

theorem kept_step (h : Kept opType w) (e : Event η Op) (hok : Orderly w e)
    (hw : step opType w e = some w') : Kept opType w' := by
  cases e with
  | start runId ns mode isResume =>
    simp only [step] at hw
    split at hw
    · cases hw
    · cases hw
      exact kept_started h hok.1 hok.2 ns isResume
  | advance i a =>
    obtain ⟨c, hi, hact⟩ := Option.bind_eq_some_iff.mp hw
    exact kept_act h hi (hok c hi) hact
  | fail i failure =>
    obtain ⟨c, hi, hw⟩ := Option.bind_eq_some_iff.mp hw
    obtain ⟨s, hs, rfl⟩ := Option.map_eq_some_iff.mp hw
    exact kept_raised h hi hs
  | requestCancel runId =>
    simp only [step] at hw
    split at hw
    · cases hw
      exact h
    next j hj =>
      cases hw
      exact kept_cancelled h hj

omit [DecidableEq η] in
theorem kept_initial : Kept opType (World.initial : World η κ Op) where
  completed := fun _ _ hr => by cases hr
  fit := fun _ _ hi => by cases hi

/-- Rows, flags and results are honest in every interleaving of runs, resumes,
cancel requests and failures in which no run id is held twice, resumes read
their checkpoint against the plan it was recorded for, and a loop that was cut
short does not go on to finalize. -/
theorem runs_honest (opType : Op → κ) (es : List (Event η Op))
    (hok : Machine.Meets (step opType) Orderly World.initial es) :
    Machine.Always (step opType) (Honest opType) World.initial es :=
  Machine.always_of_invariant (fun _ e _ h hk hw => kept_step h e hk hw)
    (fun _ h => honest_of_kept h) es _ kept_initial hok

end Steps

section Runs

instance (w : World η κ Op) (n k : ℕ) (op : Op) : Decidable (Accounted w n k op) :=
  inferInstanceAs (Decidable (_ ∨ _))

instance (w : World η κ Op) (c : Call κ Op η) : ∀ a, Decidable (Allowed w c a)
  | .plan ops => inferInstanceAs (Decidable (∀ row, w.rows c.runId = some row →
      ∀ k < ops.length, ∀ op, ops[k]? = some op →
        ((k:ℤ) ≤ row.lastCommittedOpSeq → (c.runId,k,op) ∈ w.applied) ∧
          (row.state = .completed → Accounted w c.runId k op)))
  | .ok | .locked _ | .turn _ =>
    inferInstanceAs (Decidable (c.cut = true → c.stage.finalizes = false))

instance (w : World η κ Op) : ∀ e, Decidable (Orderly w e)
  | .start runId _ mode _ => inferInstanceAs (Decidable
      ((∀ c ∈ w.calls, c.stage.live = true → c.runId ≠ runId) ∧
        ∀ row, w.rows runId = some row → row.mode = mode))
  | .advance i a => inferInstanceAs (Decidable (∀ c, w.calls[i]? = some c → Allowed w c a))
  | .fail _ _ | .requestCancel _ => isTrue trivial

omit [DecidableEq κ] [DecidableEq Op] in
/-- What holds of the answer of a run holds of the state it ends in. -/
theorem after_run {β : Type*} {x : Option (World η κ Op)} (hx : x = some w)
    (f : World η κ Op → β) {v : β} (h : x.map f = some v) : f w = v := by
  rw [hx] at h
  exact Option.some.inj h

def intoLoop (i : ℕ) (ops : List ℕ) : List (Event ℕ ℕ) :=
  [.advance i (.locked true), .advance i .ok, .advance i (.plan ops), .advance i .ok]

def failedAndResumed : List (Event ℕ ℕ) :=
  List.flatten
    [[.start 0 0 .apply false], intoLoop 0 [5,6],
      [.advance 0 (.turn .applied), .start 1 0 .apply false, .fail 1 .exception, .advance 1 .ok,
        .advance 1 .ok, .fail 0 .exception, .advance 0 .ok, .advance 0 .ok,
        .start 0 0 .apply true],
      intoLoop 2 [5,6],
      [.advance 2 (.turn .applied), .advance 2 (.turn .throttled), .advance 2 (.turn .applied),
        .requestCancel 0, .advance 2 .ok, .advance 2 .ok, .advance 2 .ok]]

theorem failed_and_resumed_honest :
    Machine.Always (step (id : ℕ → ℕ)) (Honest id) World.initial failedAndResumed :=
  runs_honest id failedAndResumed (by decide)

def cancelledHalfway : List (Event ℕ ℕ) :=
  List.flatten
    [[.start 0 0 .apply false], intoLoop 0 [5,6],
      [.advance 0 (.turn .applied), .requestCancel 0, .advance 0 (.turn .applied),
        .advance 0 .ok, .advance 0 .ok, .advance 0 .ok]]

def resumedUnderway : List (Event ℕ ℕ) :=
  List.flatten
    [[.start 0 0 .apply false], intoLoop 0 [5,6],
      [.start 0 0 .apply true, .fail 1 .exception, .requestCancel 0, .advance 1 .ok]]

/-- The run cancelled halfway is recorded as completed, and its result counts
both operations as applied; the run underway is recorded as failed by the caller
that was refused, and does not see the cancel request that was accepted. -/
theorem runs_not_honest :
    (∃ w, Machine.run (step (id : ℕ → ℕ)) World.initial cancelledHalfway = some w ∧
      (w.rows 0).map (fun row => (row.state,row.mode,row.plan)) =
        some (.completed,.apply,[5,6]) ∧
      (w.applied,w.skipped) = ([(0,0,5)],[]) ∧
      w.calls.map (fun c => c.stage.result.map (fun r => r.2.map (·.applied))) = [some [1,1]] ∧
      ¬ Honest id w) ∧
    ∃ w, Machine.run (step (id : ℕ → ℕ)) World.initial resumedUnderway = some w ∧
      (w.rows 0).map (·.state) = some .failed ∧ w.cancelFlags 0 = some 1 ∧
      w.calls[0]?.map (fun c => (c.runId,c.stage.inside,c.asked,c.cancelFlag)) =
        some (0,true,true,false) ∧ ¬ Honest id w := by
  constructor
  · obtain ⟨w, hw⟩ := Option.isSome_iff_exists.mp (show (Machine.run (step (id : ℕ → ℕ))
      World.initial cancelledHalfway).isSome = true by decide)
    have hrow := after_run hw (fun w => (w.rows 0).map (fun row => (row.state,row.mode,row.plan)))
      (show _ = some (some (.completed,.apply,[5,6])) by decide)
    have hops := after_run hw (fun w => (w.applied,w.skipped))
      (show _ = some ([(0,0,5)],[]) by decide)
    have hres := after_run hw
      (fun w => w.calls.map (fun c => c.stage.result.map (fun r => r.2.map (·.applied))))
      (show _ = some [some [1,1]] by decide)
    refine ⟨w, hw, hrow, hops, hres, fun h => ?_⟩
    obtain ⟨row, hr, hfields⟩ := Option.map_eq_some_iff.mp hrow
    simp only [Prod.mk.injEq] at hfields hops
    have hacc := h.completed 0 row hr hfields.1 hfields.2.1 1 6 (by rw [hfields.2.2]; rfl)
    rw [Accounted, hops.1, hops.2] at hacc
    exact absurd hacc (by decide)
  · obtain ⟨w, hw⟩ := Option.isSome_iff_exists.mp (show (Machine.run (step (id : ℕ → ℕ))
      World.initial resumedUnderway).isSome = true by decide)
    have hrow := after_run hw (fun w => (w.rows 0).map (·.state))
      (show _ = some (some .failed) by decide)
    have hflag := after_run hw (fun w => w.cancelFlags 0)
      (show _ = some (some 1) by decide)
    have hcall := after_run hw
      (fun w => w.calls[0]?.map (fun c => (c.runId,c.stage.inside,c.asked,c.cancelFlag)))
      (show _ = some (some (0,true,true,false)) by decide)
    refine ⟨w, hw, hrow, hflag, hcall, fun h => ?_⟩
    obtain ⟨c, hc, hfields⟩ := Option.map_eq_some_iff.mp hcall
    simp only [Prod.mk.injEq] at hfields
    have hreg := (h.undisturbed 0 c hc hfields.2.1).1
    rw [hfields.1, hflag] at hreg
    exact absurd hreg (by decide)

end Runs

end Uru.Dream.RunState
