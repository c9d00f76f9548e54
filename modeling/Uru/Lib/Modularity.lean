import Mathlib.Algebra.BigOperators.Ring.Finset
import Mathlib.Algebra.Order.Ring.Rat
import Mathlib.Data.List.Perm.Basic
import Mathlib.Data.Prod.Lex
import Mathlib.Tactic

/-!
# Benefit within the blocks of a partition

A labelling splits points into blocks, and a symmetric benefit is summed over
the pairs within a block. Moving one point changes the sum by twice what the
point gains in its new block, less twice what it leaves in the old one.
-/

set_option autoImplicit false

namespace Uru.Lib

section Blocks

variable {ι κ R : Type*} [DecidableEq ι] [DecidableEq κ] [CommRing R]

/-- The benefit of all pairs of points with one label. -/
def blockSum (s : Finset ι) (B : ι → ι → R) (c : ι → κ) : R :=
  ∑ i ∈ s, ∑ j ∈ s, if c i = c j then B i j else 0

/-- The benefit of a point with the other points of one label. -/
def pull (s : Finset ι) (B : ι → ι → R) (c : ι → κ) (i : ι) (k : κ) : R :=
  ∑ j ∈ s.erase i, if c j = k then B i j else 0

variable {s : Finset ι} {B : ι → ι → R}

theorem blockSum_erase (hB : ∀ i j, B i j = B j i) (c : ι → κ) {i : ι} (hi : i ∈ s) :
    blockSum s B c = blockSum (s.erase i) B c+2*pull s B c i (c i)+B i i := by
  have hrow : ∀ f : ι → R, ∑ j ∈ s, f j = f i+∑ j ∈ s.erase i, f j :=
    fun f => (Finset.add_sum_erase s f hi).symm
  have hcol : ∑ j ∈ s.erase i, (if c j = c i then B j i else 0) = pull s B c i (c i) :=
    Finset.sum_congr rfl (fun j _ => by rw [hB j i])
  have hown : ∑ j ∈ s.erase i, (if c i = c j then B i j else 0) = pull s B c i (c i) :=
    Finset.sum_congr rfl (fun j _ => by simp only [eq_comm])
  unfold blockSum
  simp only [hrow, if_true, Finset.sum_add_distrib]
  rw [hcol, hown]
  ring

omit [DecidableEq ι] in
theorem blockSum_congr {c d : ι → κ} (h : ∀ i ∈ s, c i = d i) : blockSum s B c = blockSum s B d :=
  Finset.sum_congr rfl (fun i hi => Finset.sum_congr rfl (fun j hj => by rw [h i hi, h j hj]))

theorem pull_update (c : ι → κ) (i : ι) (k l : κ) :
    pull s B (Function.update c i k) i l = pull s B c i l :=
  Finset.sum_congr rfl (fun j hj => by rw [Function.update_of_ne (Finset.ne_of_mem_erase hj)])

/-- What moving one point does to the benefit within the blocks. -/
theorem blockSum_update (hB : ∀ i j, B i j = B j i) (c : ι → κ) {i : ι} (hi : i ∈ s) (k : κ) :
    blockSum s B (Function.update c i k) =
      blockSum s B c+2*(pull s B c i k-pull s B c i (c i)) := by
  have hrest : blockSum (s.erase i) B (Function.update c i k) = blockSum (s.erase i) B c :=
    blockSum_congr (fun j hj => Function.update_of_ne (Finset.ne_of_mem_erase hj) _ _)
  rw [blockSum_erase hB _ hi, blockSum_erase hB c hi, hrest, pull_update, Function.update_self]
  ring

end Blocks

section Best

variable {α β : Type*} [LinearOrder β] {rank : α → β} {step : α → α → α}

/-- A fold that keeps the candidate of the higher rank. -/
theorem rank_foldl (hstep : ∀ a b, rank (step a b) = max (rank a) (rank b)) (a : α) (xs : List α) :
    rank (xs.foldl step a) = (xs.map rank).foldl max (rank a) := by
  induction xs generalizing a with
  | nil => rfl
  | cons x xs ih => rw [List.foldl_cons, ih, hstep, List.map_cons, List.foldl_cons]

theorem foldl_best_perm (hrank : Function.Injective rank)
    (hstep : ∀ a b, rank (step a b) = max (rank a) (rank b)) (a : α) {xs ys : List α}
    (h : xs.Perm ys) : xs.foldl step a = ys.foldl step a := by
  refine hrank ?_
  rw [rank_foldl hstep, rank_foldl hstep]
  exact (h.map rank).foldl_op_eq

end Best

end Uru.Lib
