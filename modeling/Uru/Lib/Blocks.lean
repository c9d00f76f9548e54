import Mathlib.Order.Monotone.Basic
import Mathlib.Tactic

/-!
# Aligned blocks

A monotone sequence of marks cuts a line into pieces, and `k` pieces that start
at a multiple of `k` are a block. Two blocks of one size do not overlap, and a
block lies inside the block of a multiple of its size that it starts in.
-/

set_option autoImplicit false

namespace Uru.Lib

variable {α : Type*} [LinearOrder α] {f : ℕ → α}

theorem block_apart (hf : Monotone f) (k : ℕ) {i j : ℕ} (h : i ≠ j) :
    f (k*(i+1)) ≤ f (k*j) ∨ f (k*(j+1)) ≤ f (k*i) := by
  rcases Nat.lt_or_gt_of_ne h with hlt | hgt
  · exact .inl (hf (Nat.mul_le_mul_left k hlt))
  · exact .inr (hf (Nat.mul_le_mul_left k hgt))

theorem block_within (hf : Monotone f) (k j : ℕ) {d : ℕ} (hd : 0 < d) :
    f (k*d*(j/d)) ≤ f (k*j) ∧ f (k*(j+1)) ≤ f (k*d*(j/d+1)) := by
  have hlow : d*(j/d) ≤ j := Nat.mul_div_le j d
  have hhigh : j < d*(j/d+1) := Nat.lt_mul_div_succ j hd
  rw [Nat.mul_assoc, Nat.mul_assoc]
  exact ⟨hf (Nat.mul_le_mul_left k hlow), hf (Nat.mul_le_mul_left k hhigh)⟩

theorem block_inj (hf : StrictMono f) {k : ℕ} (hk : 0 < k) {i j : ℕ}
    (h : f (k*i) = f (k*j)) : i = j := Nat.eq_of_mul_eq_mul_left hk (hf.injective h)

end Uru.Lib
