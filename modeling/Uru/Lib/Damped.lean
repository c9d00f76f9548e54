import Mathlib.Algebra.BigOperators.Field
import Mathlib.Algebra.Order.BigOperators.Group.Finset
import Mathlib.LinearAlgebra.FiniteDimensional.Basic
import Mathlib.Logic.Relation
import Mathlib.Tactic

/-!
# Damped iteration

A vector is replaced by a mixture of a fixed vector and of its image under a
matrix whose columns sum to at most one. A step brings any two vectors closer
by the damping factor, so exactly one vector is left alone by it. The last
difference of an iteration bounds how far the iteration is from that vector.
-/

set_option autoImplicit false

namespace Uru.Lib.Damped
open Relation

section Vectors

variable {ι K : Type*} [Fintype ι] [Field K] [LinearOrder K] [IsStrictOrderedRing K]

/-- The sum of the differences, without their signs. -/
def distance (x y : ι → K) : K := ∑ i, |x i-y i|

def flow (m : ι → ι → K) (x : ι → K) (i : ι) : K := ∑ j, m i j*x j

def step (m : ι → ι → K) (d : K) (p x : ι → K) (i : ι) : K := (1-d)*p i+d*flow m x i

/-- No entry is negative, and no column sums to more than one. -/
structure Substochastic (m : ι → ι → K) : Prop where
  nonneg : ∀ i j, 0 ≤ m i j
  column : ∀ j, ∑ i, m i j ≤ 1

variable {m : ι → ι → K} {d : K} {p x y z : ι → K}

theorem distance_nonneg (x y : ι → K) : 0 ≤ distance x y :=
  Finset.sum_nonneg (fun i _ => abs_nonneg (x i-y i))

omit [IsStrictOrderedRing K] in
theorem distance_comm (x y : ι → K) : distance x y = distance y x :=
  Finset.sum_congr rfl (fun i _ => abs_sub_comm (x i) (y i))

theorem distance_triangle (x y z : ι → K) : distance x z ≤ distance x y+distance y z := by
  unfold distance
  rw [← Finset.sum_add_distrib]
  exact Finset.sum_le_sum (fun i _ => abs_sub_le (x i) (y i) (z i))

theorem distance_eq_zero (h : distance x y ≤ 0) : x = y := by
  have hzero : distance x y = 0 := le_antisymm h (distance_nonneg x y)
  have heach := (Finset.sum_eq_zero_iff_of_nonneg (fun i _ => abs_nonneg (x i-y i))).mp hzero
  funext i
  exact sub_eq_zero.mp (abs_eq_zero.mp (heach i (Finset.mem_univ i)))

theorem flow_nonneg (hm : Substochastic m) (hx : ∀ i, 0 ≤ x i) (i : ι) : 0 ≤ flow m x i :=
  Finset.sum_nonneg (fun j _ => mul_nonneg (hm.nonneg i j) (hx j))

omit [LinearOrder K] [IsStrictOrderedRing K] in
theorem flow_total (m : ι → ι → K) (x : ι → K) :
    ∑ i, flow m x i = ∑ j, (∑ i, m i j)*x j := by
  unfold flow
  rw [Finset.sum_comm]
  exact Finset.sum_congr rfl (fun j _ => (Finset.sum_mul ..).symm)

theorem flow_total_le (hm : Substochastic m) (hx : ∀ i, 0 ≤ x i) :
    ∑ i, flow m x i ≤ ∑ i, x i := by
  rw [flow_total]
  exact Finset.sum_le_sum (fun j _ => mul_le_of_le_one_left (hx j) (hm.column j))

/-- The matrix brings no two vectors further apart. -/
theorem flow_distance (hm : Substochastic m) (x y : ι → K) :
    distance (flow m x) (flow m y) ≤ distance x y := by
  have heach : ∀ i, |flow m x i-flow m y i| ≤ flow m (fun j => |x j-y j|) i := by
    intro i
    unfold flow
    rw [← Finset.sum_sub_distrib]
    refine (Finset.abs_sum_le_sum_abs _ _).trans (Finset.sum_le_sum (fun j _ => ?_))
    rw [← mul_sub, abs_mul, abs_of_nonneg (hm.nonneg i j)]
  calc distance (flow m x) (flow m y) ≤ ∑ i, flow m (fun j => |x j-y j|) i :=
        Finset.sum_le_sum (fun i _ => heach i)
    _ ≤ distance x y := flow_total_le hm (fun j => abs_nonneg (x j-y j))

theorem step_nonneg (hm : Substochastic m) (hd : 0 ≤ d) (hd' : d ≤ 1) (hp : ∀ i, 0 ≤ p i)
    (hx : ∀ i, 0 ≤ x i) (i : ι) : 0 ≤ step m d p x i :=
  add_nonneg (mul_nonneg (sub_nonneg.mpr hd') (hp i)) (mul_nonneg hd (flow_nonneg hm hx i))

omit [LinearOrder K] [IsStrictOrderedRing K] in
theorem step_total (m : ι → ι → K) (d : K) (p x : ι → K) :
    ∑ i, step m d p x i = (1-d)*∑ i, p i+d*∑ i, flow m x i := by
  unfold step
  rw [Finset.sum_add_distrib, Finset.mul_sum, Finset.mul_sum]

theorem step_total_le (hm : Substochastic m) (hd : 0 ≤ d) (hd' : d ≤ 1) (hp : ∑ i, p i ≤ 1)
    (hx : ∀ i, 0 ≤ x i) (hx' : ∑ i, x i ≤ 1) : ∑ i, step m d p x i ≤ 1 := by
  rw [step_total]
  have hflow := (flow_total_le hm hx).trans hx'
  calc (1-d)*∑ i, p i+d*∑ i, flow m x i ≤ (1-d)*1+d*1 :=
        add_le_add (mul_le_mul_of_nonneg_left hp (sub_nonneg.mpr hd'))
          (mul_le_mul_of_nonneg_left hflow hd)
    _ = 1 := by ring

/-- A step brings two vectors closer by the factor. -/
theorem step_distance (hm : Substochastic m) (hd : 0 ≤ d) (p x y : ι → K) :
    distance (step m d p x) (step m d p y) ≤ d*distance x y := by
  have heach : ∀ i, |step m d p x i-step m d p y i| = d*|flow m x i-flow m y i| := by
    intro i
    unfold step
    rw [add_sub_add_left_eq_sub, ← mul_sub, abs_mul, abs_of_nonneg hd]
  calc distance (step m d p x) (step m d p y) = d*distance (flow m x) (flow m y) := by
        unfold distance
        rw [Finset.mul_sum]
        exact Finset.sum_congr rfl (fun i _ => heach i)
    _ ≤ d*distance x y := mul_le_mul_of_nonneg_left (flow_distance hm x y) hd

theorem iterate_distance (hm : Substochastic m) (hd : 0 ≤ d) (p x y : ι → K) (n : ℕ) :
    distance ((step m d p)^[n] x) ((step m d p)^[n] y) ≤ d^n*distance x y := by
  induction n with
  | zero => simp
  | succ n ih =>
    rw [Function.iterate_succ_apply', Function.iterate_succ_apply', pow_succ']
    calc distance (step m d p ((step m d p)^[n] x)) (step m d p ((step m d p)^[n] y))
        ≤ d*distance ((step m d p)^[n] x) ((step m d p)^[n] y) := step_distance hm hd p _ _
      _ ≤ d*(d^n*distance x y) := mul_le_mul_of_nonneg_left ih hd
      _ = d*d^n*distance x y := by ring

/-- Exactly one vector is left alone by a step. -/
theorem exists_unique_fixed (hm : Substochastic m) (hd : 0 ≤ d) (hd' : d < 1) (p : ι → K) :
    ∃! x, step m d p x = x := by
  have hunique : ∀ x y, step m d p x = x → step m d p y = y → x = y := by
    intro x y hx hy
    have h := step_distance hm hd p x y
    rw [hx, hy] at h
    refine distance_eq_zero ?_
    nlinarith [distance_nonneg x y]
  let f : (ι → K) →ₗ[K] (ι → K) :=
    { toFun := fun x i => x i-d*flow m x i
      map_add' := fun x y => by
        funext i
        simp only [flow, Pi.add_apply, mul_add, Finset.sum_add_distrib]
        ring
      map_smul' := fun c x => by
        funext i
        simp only [flow, Pi.smul_apply, smul_eq_mul, RingHom.id_apply, mul_sub, Finset.mul_sum]
        congr 1
        exact Finset.sum_congr rfl (fun j _ => by ring) }
  -- the equations have one solution at most, hence one for each right hand side
  have hinjective : Function.Injective f := by
    refine (injective_iff_map_eq_zero f).mpr (fun x hx => ?_)
    have hfixed : step m d 0 x = x := by
      funext i
      have hi : x i-d*flow m x i = 0 := congrFun hx i
      simp only [step, Pi.zero_apply, mul_zero, zero_add]
      exact (sub_eq_zero.mp hi).symm
    have hzero : step m d 0 (0 : ι → K) = 0 := by
      funext i
      simp [step, flow]
    have h := step_distance hm hd 0 x 0
    rw [hfixed, hzero] at h
    refine distance_eq_zero ?_
    nlinarith [distance_nonneg x (0 : ι → K)]
  obtain ⟨x, hx⟩ := LinearMap.injective_iff_surjective.mp hinjective (fun i => (1-d)*p i)
  have hfixed : step m d p x = x := by
    funext i
    have hi : x i-d*flow m x i = (1-d)*p i := congrFun hx i
    unfold step
    rw [← hi, sub_add_cancel]
  exact ⟨x, hfixed, fun y hy => hunique y x hy hfixed⟩

theorem distance_zero (hx : ∀ i, 0 ≤ x i) : distance x 0 = ∑ i, x i := by
  refine Finset.sum_congr rfl (fun i _ => ?_)
  rw [Pi.zero_apply, sub_zero, abs_of_nonneg (hx i)]

/-- The vector left alone is no larger than the fixed part. -/
theorem fixed_size (hm : Substochastic m) (hd : 0 ≤ d) (hd' : d < 1) (hp : ∀ i, 0 ≤ p i)
    (hp' : ∑ i, p i ≤ 1) (hx : step m d p x = x) : distance x 0 ≤ 1 := by
  have hone : 0 < 1-d := sub_pos.mpr hd'
  have hsource : distance (step m d p 0) 0 ≤ 1-d := by
    have hnonneg : ∀ i, 0 ≤ step m d p 0 i :=
      step_nonneg hm hd hd'.le hp (fun _ => le_rfl)
    rw [distance_zero hnonneg, step_total]
    have hflow : ∑ i, flow m (0 : ι → K) i = 0 := by simp [flow]
    rw [hflow, mul_zero, add_zero]
    exact mul_le_of_le_one_right hone.le hp'
  have hclose : distance x (step m d p 0) ≤ d*distance x 0 := by
    have h := step_distance hm hd p x 0
    rwa [hx] at h
  have htriangle := distance_triangle x (step m d p 0) 0
  nlinarith

/-- What is not more than its own flow is nothing. -/
theorem below_flow (hm : Substochastic m) (hd : 0 ≤ d) (hd' : d < 1) (hx : ∀ i, 0 ≤ x i)
    (hflow : ∀ i, x i ≤ d*flow m x i) (i : ι) : x i = 0 := by
  have htotal : ∑ i, x i ≤ d*∑ i, x i := by
    calc ∑ i, x i ≤ ∑ i, d*flow m x i := Finset.sum_le_sum (fun i _ => hflow i)
      _ = d*∑ i, flow m x i := (Finset.mul_sum ..).symm
      _ ≤ d*∑ i, x i := mul_le_mul_of_nonneg_left (flow_total_le hm hx) hd
  have hnone : ∑ i, x i ≤ 0 := by
    have hnonneg : 0 ≤ ∑ i, x i := Finset.sum_nonneg (fun j _ => hx j)
    nlinarith
  have hi : x i ≤ ∑ i, x i := Finset.single_le_sum (fun j _ => hx j) (Finset.mem_univ i)
  exact le_antisymm (hi.trans hnone) (hx i)

/-- Nor has it a negative entry. -/
theorem fixed_nonneg (hm : Substochastic m) (hd : 0 ≤ d) (hd' : d < 1) (hp : ∀ i, 0 ≤ p i)
    (hx : step m d p x = x) (i : ι) : 0 ≤ x i := by
  -- the negative parts flow as the entries do, and nothing is added to them
  have heach : ∀ i, max 0 (-x i) ≤ d*flow m (fun j => max 0 (-x j)) i := by
    intro i
    apply max_le
    · exact mul_nonneg hd (flow_nonneg hm (fun j => le_max_left 0 (-x j)) i)
    · have hi : x i = (1-d)*p i+d*flow m x i := (congrFun hx i).symm
      have hbelow : -flow m x i ≤ flow m (fun j => max 0 (-x j)) i := by
        unfold flow
        rw [← Finset.sum_neg_distrib]
        apply Finset.sum_le_sum
        intro j _
        rw [← mul_neg]
        exact mul_le_mul_of_nonneg_left (le_max_right 0 (-x j)) (hm.nonneg i j)
      have hseed := mul_nonneg (sub_pos.mpr hd').le (hp i)
      calc -x i ≤ d*(-flow m x i) := by rw [hi]; linarith
        _ ≤ d*flow m (fun j => max 0 (-x j)) i := mul_le_mul_of_nonneg_left hbelow hd
  have hzero := below_flow hm hd hd' (fun j => le_max_left 0 (-x j)) heach i
  have hneg := le_max_right 0 (-x i)
  linarith

/-- What flows into an entry comes, over positive factors, from the fixed part. -/
def Supplied (m : ι → ι → K) (p : ι → K) (i : ι) : Prop :=
  ∃ s, 0 < p s ∧ ReflTransGen (fun a b => 0 < m b a) s i

omit [IsStrictOrderedRing K] in
theorem supplied_flow (hm : Substochastic m) {i j : ι} (hj : Supplied m p j)
    (hi : ¬ Supplied m p i) : m i j = 0 := by
  refine le_antisymm (not_lt.mp (fun h => hi ?_)) (hm.nonneg i j)
  obtain ⟨s, hs, hpath⟩ := hj
  exact ⟨s, hs, hpath.tail h⟩

omit [IsStrictOrderedRing K] in
theorem step_unsupplied (hm : Substochastic m) (hp : ∀ i, 0 ≤ p i)
    (hx : ∀ i, ¬ Supplied m p i → x i = 0) {i : ι} (hi : ¬ Supplied m p i) :
    step m d p x i = 0 := by
  have hseed : p i = 0 :=
    le_antisymm (not_lt.mp (fun h => hi ⟨i, h, ReflTransGen.refl⟩)) (hp i)
  have hflow : flow m x i = 0 := by
    refine Finset.sum_eq_zero (fun j _ => ?_)
    by_cases hj : Supplied m p j
    · rw [supplied_flow hm hj hi, zero_mul]
    · rw [hx j hj, mul_zero]
  rw [step, hseed, hflow, mul_zero, mul_zero, add_zero]

/-- The positive entries of the vector left alone are the supplied ones. -/
theorem fixed_pos_iff (hm : Substochastic m) (hd : 0 < d) (hd' : d < 1) (hp : ∀ i, 0 ≤ p i)
    (hx : step m d p x = x) (i : ι) : 0 < x i ↔ Supplied m p i := by
  have hnonneg := fixed_nonneg hm hd.le hd' hp hx
  have hi : ∀ i, x i = (1-d)*p i+d*flow m x i := fun i => (congrFun hx i).symm
  constructor
  · intro hpos
    by_contra hnot
    -- nothing flows from the supplied entries into the others
    classical
    let u : ι → K := fun j => if Supplied m p j then 0 else x j
    have hu : ∀ j, 0 ≤ u j := by
      intro j
      simp only [u]
      split_ifs
      · exact le_rfl
      · exact hnonneg j
    have hzero : u i = 0 := by
      apply below_flow hm hd.le hd' hu
      intro j
      by_cases hj : Supplied m p j
      · simp only [u, if_pos hj]
        exact mul_nonneg hd.le (flow_nonneg hm hu j)
      · have hseed : p j = 0 :=
          le_antisymm (not_lt.mp (fun h => hj ⟨j, h, ReflTransGen.refl⟩)) (hp j)
        have hflow : flow m x j = flow m u j := by
          refine Finset.sum_congr rfl (fun k _ => ?_)
          by_cases hk : Supplied m p k
          · rw [supplied_flow hm hk hj, zero_mul, zero_mul]
          · simp only [u, if_neg hk]
        have heq : u j = x j := if_neg hj
        rw [heq, hi j, hseed, hflow, mul_zero, zero_add]
    have heq : u i = x i := if_neg hnot
    rw [heq] at hzero
    exact hpos.ne' hzero
  · rintro ⟨s, hs, hpath⟩
    induction hpath with
    | refl =>
      rw [hi]
      exact add_pos_of_pos_of_nonneg (mul_pos (sub_pos.mpr hd') hs)
        (mul_nonneg hd.le (flow_nonneg hm hnonneg s))
    | @tail b c _ hstep ih =>
      have hterm : m c b*x b ≤ flow m x c :=
        Finset.single_le_sum (f := fun j => m c j*x j)
          (fun j _ => mul_nonneg (hm.nonneg c j) (hnonneg j)) (Finset.mem_univ b)
      rw [hi]
      have hflow : 0 < flow m x c := (mul_pos hstep ih).trans_le hterm
      exact add_pos_of_nonneg_of_pos (mul_nonneg (sub_pos.mpr hd').le (hp c))
        (mul_pos hd hflow)

/-- The last difference bounds the distance that is left. -/
theorem last_difference (hm : Substochastic m) (hd : 0 ≤ d) (hd' : d < 1)
    (hx : step m d p x = x) (y : ι → K) :
    distance (step m d p y) x ≤ d/(1-d)*distance (step m d p y) y := by
  have hone : 0 < 1-d := sub_pos.mpr hd'
  have hclose : distance (step m d p y) x ≤ d*distance y x := by
    have h := step_distance hm hd p y x
    rwa [hx] at h
  have htriangle : distance y x ≤ distance (step m d p y) y+distance (step m d p y) x := by
    have h := distance_triangle y (step m d p y) x
    rwa [distance_comm y (step m d p y)] at h
  rw [div_mul_eq_mul_div, le_div_iff₀ hone]
  nlinarith

end Vectors

section Until

variable {α : Type*} (close : α → α → Bool) (f : α → α)

/-- At most so many steps; a step that changes little is the last one. -/
def iterateUntil : ℕ → α → α
  | 0, x => x
  | n+1, x => if close (f x) x then f x else iterateUntil n (f x)

/-- Either no step changes little and all are made, or the last one changed little. -/
theorem iterateUntil_spec (n : ℕ) (x : α) :
    ((∀ j < n, close (f (f^[j] x)) (f^[j] x) = false) ∧ iterateUntil close f n x = f^[n] x) ∨
      ∃ j < n, close (f (f^[j] x)) (f^[j] x) = true ∧ iterateUntil close f n x = f^[j+1] x := by
  induction n generalizing x with
  | zero => exact Or.inl ⟨fun j hj => absurd hj (Nat.not_lt_zero j), rfl⟩
  | succ n ih =>
    rw [iterateUntil]
    split_ifs with hclose
    · exact Or.inr ⟨0, Nat.succ_pos n, hclose, rfl⟩
    · rcases ih (f x) with ⟨hopen, heq⟩ | ⟨j, hj, hj', heq⟩
      · refine Or.inl ⟨fun j hj => ?_, heq⟩
        cases j with
        | zero => exact Bool.eq_false_iff.mpr hclose
        | succ j => exact hopen j (Nat.lt_of_succ_lt_succ hj)
      · exact Or.inr ⟨j+1, Nat.succ_lt_succ hj, hj', heq⟩

/-- What a step keeps holds at the end. -/
theorem iterateUntil_keeps {P : α → Prop} (hstep : ∀ x, P x → P (f x)) (n : ℕ) {x : α}
    (hx : P x) : P (iterateUntil close f n x) := by
  induction n generalizing x with
  | zero => exact hx
  | succ n ih =>
    rw [iterateUntil]
    split_ifs
    · exact hstep x hx
    · exact ih (hstep x hx)

/-- Two iterations that start alike, step alike and stop alike end alike. -/
theorem iterateUntil_simulates {β : Type*} {close' : β → β → Bool} {g : β → β}
    {R : α → β → Prop} (hstep : ∀ x y, R x y → R (f x) (g y))
    (hclose : ∀ x y, R x y → close (f x) x = close' (g y) y) (n : ℕ) {x : α} {y : β}
    (hxy : R x y) : R (iterateUntil close f n x) (iterateUntil close' g n y) := by
  induction n generalizing x y with
  | zero => exact hxy
  | succ n ih =>
    rw [iterateUntil, iterateUntil, hclose x y hxy]
    split_ifs
    · exact hstep x y hxy
    · exact ih (hstep x y hxy)

end Until

end Uru.Lib.Damped
