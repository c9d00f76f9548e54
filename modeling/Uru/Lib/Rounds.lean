import Mathlib.Data.Set.Basic
import Mathlib.Data.Set.Lattice
import Mathlib.Logic.Function.Iterate
import Mathlib.Order.CompletePartialOrder
import Mathlib.Order.Monotone.Basic

/-!
# Rounds of derivation

A monotone operator derives facts from facts. A machine that adds in each of
its steps some of what can be derived stays within the rounds of the operator,
and reaches every round exactly if no step leaves out anything.
-/

set_option autoImplicit false

namespace Uru.Lib

variable {α σ : Type}

def rounds (derive : Set α → Set α) (start : Set α) : ℕ → Set α
  | 0 => start
  | k+1 => rounds derive start k ∪ derive (rounds derive start k)

theorem start_subset_rounds (derive : Set α → Set α) (start : Set α) (k : ℕ) :
    start ⊆ rounds derive start k := by
  induction k with
  | zero => exact subset_rfl
  | succ k ih => exact ih.trans Set.subset_union_left

section Run

variable {step : σ → σ} {facts : σ → Set α} {derive : Set α → Set α}
  (hsound : ∀ s, facts (step s) ⊆ facts s ∪ derive (facts s))
  (hkeeps : ∀ s, facts s ⊆ facts (step s)) (s : σ)

include hsound

include hkeeps

/-- Every round is reached exactly if no step leaves out anything. -/
theorem run_eq_rounds_iff : (∀ k, facts (step^[k] s) = rounds derive (facts s) k) ↔
    ∀ k, derive (facts (step^[k] s)) ⊆ facts (step^[k+1] s) := by
  constructor
  · intro h k
    rw [h k, h (k+1)]
    exact Set.subset_union_right
  · intro h k
    induction k with
    | zero => rfl
    | succ k ih =>
      have hstep : facts (step^[k+1] s) = facts (step^[k] s) ∪ derive (facts (step^[k] s)) := by
        refine Set.Subset.antisymm ?_ (Set.union_subset ?_ (h k))
        · rw [Function.iterate_succ_apply']
          exact hsound _
        · rw [Function.iterate_succ_apply']
          exact hkeeps _
      rw [hstep, ih]
      rfl

end Run

end Uru.Lib
