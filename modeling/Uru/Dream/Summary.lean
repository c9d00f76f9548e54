import Uru.Lib.Record

/-!
# The counters a dream run reports

`_build_result` goes over the plan, not over what the loop did: an operation
counts as applied unless its kind still has a skip to its account. Whatever the
skips are, the counters of a kind add up to the operations planned of it.
-/

set_option autoImplicit false

namespace Uru.Dream

open Uru.Lib

structure OpSummary (κ : Type*) where
  opType : κ
  planned : ℕ := 0
  applied : ℕ := 0
  skipped : ℕ := 0
  failed : ℕ := 0
  deriving DecidableEq, Repr

inductive Mode where
  | dryRun
  | apply
  deriving DecidableEq, Repr

section Result

variable {κ Op : Type*} [DecidableEq κ] (opType : Op → κ) (mode : Mode)

def remaining (skippedRemaining : Record κ ℕ) (key : κ) : ℕ := (skippedRemaining.get key).getD 0

def current (summaries : Record κ (OpSummary κ)) (key : κ) : OpSummary κ :=
  (summaries.get key).getD { opType := key }

def wasSkipped (skippedRemaining : Record κ ℕ) (key : κ) : Bool :=
  decide (mode = .apply) && decide (0 < remaining skippedRemaining key)

def counted (cur : OpSummary κ) (key : κ) (skipped : Bool) : OpSummary κ where
  opType := key
  planned := cur.planned+1
  applied := cur.applied+(if mode = .apply ∧ skipped = false then 1 else 0)
  skipped := cur.skipped+(if skipped then 1 else 0)
  failed := cur.failed

def drained (skippedRemaining : Record κ ℕ) (key : κ) : Record κ ℕ :=
  if wasSkipped mode skippedRemaining key then
    skippedRemaining.set key (remaining skippedRemaining key-1)
  else skippedRemaining

def countOps : List Op → Record κ ℕ → Record κ (OpSummary κ) → Record κ (OpSummary κ)
  | [], _, summaries => summaries
  | op::ops, skippedRemaining, summaries =>
    let key := opType op
    countOps ops (drained mode skippedRemaining key)
      (summaries.set key
        (counted mode (current summaries key) key (wasSkipped mode skippedRemaining key)))

def buildResult (plan : List Op) (skippedByOpType : Record κ ℕ) : List (OpSummary κ) :=
  (countOps opType mode plan skippedByOpType ∅).values

end Result

section Counters

variable {κ Op : Type*} [DecidableEq κ] {opType : Op → κ} {mode : Mode}

theorem current_set (summaries : Record κ (OpSummary κ)) (key other : κ) (s : OpSummary κ) :
    current (summaries.set key s) other = if other = key then s else current summaries other := by
  rw [current, Record.get_set]
  split_ifs <;> rfl

theorem remaining_set (skips : Record κ ℕ) (key other : κ) (n : ℕ) :
    remaining (skips.set key n) other = if other = key then n else remaining skips other := by
  rw [remaining, Record.get_set]
  split_ifs <;> rfl

theorem current_planned (summaries : Record κ (OpSummary κ)) (key : κ) :
    (summaries.get key).elim 0 (·.planned) = (current summaries key).planned := by
  rw [current]
  cases summaries.get key <;> rfl

/-- Every planned operation adds one to what is planned. -/
theorem countOps_planned (plan : List Op) (skips : Record κ ℕ)
    (summaries : Record κ (OpSummary κ)) :
    ((countOps opType mode plan skips summaries).values.map (·.planned)).sum =
      (summaries.values.map (·.planned)).sum+plan.length := by
  induction plan generalizing skips summaries with
  | nil => rfl
  | cons op ops ih =>
    have hsum := Record.sum_set summaries (opType op)
      (counted mode (current summaries (opType op)) (opType op)
        (wasSkipped mode skips (opType op))) (·.planned)
    rw [current_planned] at hsum
    rw [countOps, ih, List.length_cons]
    simp only [counted] at hsum ⊢
    omega

def Balanced (s : OpSummary κ) : Prop := s.planned = s.applied+s.skipped+s.failed

omit [DecidableEq κ] in
theorem counted_balanced {cur : OpSummary κ} (h : Balanced cur) (key : κ) (skipped : Bool) :
    Balanced (counted .apply cur key skipped) := by
  unfold Balanced at h ⊢
  cases skipped <;> simp only [counted] <;> simp <;> omega

theorem countOps_balanced (plan : List Op) (skips : Record κ ℕ)
    (summaries : Record κ (OpSummary κ)) (h : ∀ s ∈ summaries.values, Balanced s) :
    ∀ s ∈ (countOps opType .apply plan skips summaries).values, Balanced s := by
  induction plan generalizing skips summaries with
  | nil => exact h
  | cons op ops ih =>
    have hcur : ∀ key, Balanced (current summaries key) := by
      intro key
      rw [current]
      cases hget : summaries.get key with
      | none => rfl
      | some s => exact h s (summaries.mem_values key s hget)
    refine ih _ _ (fun s hs => ?_)
    obtain ⟨⟨key, s⟩, hmem, rfl⟩ := List.mem_map.mp hs
    have hget := (Record.mem_entries _ key s).mp hmem
    rw [Record.get_set] at hget
    split_ifs at hget with hkey
    · rw [← Option.some.inj hget]
      exact counted_balanced (hcur _) _ _
    · exact h s (summaries.mem_values key s hget)

/-- The counters of every kind add up to what is planned of it, and together to
the plan. -/
theorem buildResult_adds_up (opType : Op → κ) (plan : List Op) (skips : Record κ ℕ) :
    ((buildResult opType .apply plan skips).map
        (fun s => s.applied+s.skipped+s.failed)).sum = plan.length ∧
      ∀ s ∈ buildResult opType .apply plan skips, Balanced s := by
  have hb : ∀ s ∈ buildResult opType .apply plan skips, Balanced s :=
    countOps_balanced plan skips ∅ (fun s hs => by cases hs)
  refine ⟨?_, hb⟩
  rw [← List.map_congr_left hb, buildResult, countOps_planned]
  exact Nat.zero_add _

/-- What is counted as applied of a kind: all that is planned of it, less the
skips of the kind. -/
theorem countOps_applied (plan : List Op) (skips : Record κ ℕ)
    (summaries : Record κ (OpSummary κ)) (key : κ) :
    (current (countOps opType .apply plan skips summaries) key).applied =
      (current summaries key).applied+
        (plan.countP (fun op => opType op = key)-remaining skips key) := by
  induction plan generalizing skips summaries with
  | nil => simp [countOps]
  | cons op ops ih =>
    rw [countOps, ih, current_set, drained, wasSkipped]
    by_cases hkey : opType op = key
    · subst hkey
      rw [List.countP_cons_of_pos (by simp)]
      by_cases hr : 0 < remaining skips (opType op)
      · simp [hr, remaining_set, counted]
        omega
      · simp [hr, counted]
        omega
    · rw [List.countP_cons_of_neg (by simpa using hkey), if_neg (Ne.symm hkey)]
      split_ifs
      · rw [remaining_set, if_neg (Ne.symm hkey)]
      · rfl

theorem countOps_keyed (plan : List Op) (skips : Record κ ℕ)
    (summaries : Record κ (OpSummary κ))
    (h : ∀ key s, summaries.get key = some s → s.opType = key) (key : κ) (s : OpSummary κ)
    (hs : (countOps opType mode plan skips summaries).get key = some s) : s.opType = key := by
  induction plan generalizing skips summaries with
  | nil => exact h key s hs
  | cons op ops ih =>
    refine ih _ _ (fun key s hs => ?_) hs
    rw [Record.get_set] at hs
    split_ifs at hs with hkey
    · rw [← Option.some.inj hs, hkey]
      rfl
    · exact h key s hs

theorem buildResult_applied (opType : Op → κ) (plan : List Op) (skips : Record κ ℕ)
    (s : OpSummary κ) (hs : s ∈ buildResult opType .apply plan skips) :
    s.applied = plan.countP (fun op => opType op = s.opType)-remaining skips s.opType := by
  obtain ⟨⟨key, x⟩, hmem, rfl⟩ := List.mem_map.mp hs
  have hget := (Record.mem_entries _ key x).mp hmem
  obtain rfl : x.opType = key :=
    countOps_keyed plan skips ∅ (fun key s hs => by cases hs) key x hget
  have happlied : (current (countOps opType .apply plan skips ∅) x.opType).applied =
      0+(plan.countP (fun op => opType op = x.opType)-remaining skips x.opType) :=
    countOps_applied plan skips ∅ x.opType
  rw [current, hget, Option.getD_some] at happlied
  rw [happlied]
  exact Nat.zero_add _

end Counters

end Uru.Dream
