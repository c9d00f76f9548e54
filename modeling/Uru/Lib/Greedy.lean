import Mathlib.Data.List.Sort
import Mathlib.Tactic
import Uru.Lib.SortOn

/-!
# Greedy selection

Round after round the candidate with the best score is taken, the earliest one
where several are best; the score may depend on what has been taken before. A
selection of more rounds extends one of fewer. Where the score does not depend
on the selection, it is the beginning of the stable sort by falling scores.
-/

set_option autoImplicit false

namespace Uru.Lib.Greedy
open Uru.Lib

variable {α K : Type} [LinearOrder K]

def better (f : α → K) : Option α → α → Option α
  | none, a => some a
  | some b, a => if f b < f a then some a else some b

def best (f : α → K) (l : List α) : Option α := l.foldl (better f) none

/-- A member that no other exceeds, and the earliest of these. -/
def IsBest (f : α → K) (l : List α) (a : α) : Prop :=
  ∃ before after, l = before++a::after ∧ (∀ b ∈ before, f b < f a) ∧ ∀ b ∈ after, f b ≤ f a

theorem IsBest.mem {f : α → K} {l : List α} {a : α} (h : IsBest f l a) : a ∈ l := by
  obtain ⟨before, after, rfl, -, -⟩ := h
  exact List.mem_append_right _ List.mem_cons_self

theorem IsBest.le {f : α → K} {l : List α} {a : α} (h : IsBest f l a) : ∀ b ∈ l, f b ≤ f a := by
  obtain ⟨before, after, rfl, hbefore, hafter⟩ := h
  intro b hb
  rcases List.mem_append.mp hb with hb | hb
  · exact (hbefore b hb).le
  · rcases List.mem_cons.mp hb with rfl | hb
    · exact le_rfl
    · exact hafter b hb

theorem best_append (f : α → K) (l : List α) (x : α) :
    best f (l++[x]) = better f (best f l) x := List.foldl_append

theorem best_spec (f : α → K) (l : List α) :
    (l = [] ∧ best f l = none) ∨ ∃ a, best f l = some a ∧ IsBest f l a := by
  induction l using List.reverseRecOn with
  | nil => exact Or.inl ⟨rfl, rfl⟩
  | append_singleton l x ih =>
    right
    rw [best_append]
    rcases ih with ⟨rfl, hnone⟩ | ⟨a, ha, before, after, rfl, hbefore, hafter⟩
    · rw [hnone]
      exact ⟨x, rfl, [], [], rfl, by simp, by simp⟩
    · rw [ha, better]
      have hle := IsBest.le ⟨before, after, rfl, hbefore, hafter⟩
      split_ifs with hx
      · exact ⟨x, rfl, before++a::after, [], rfl, fun b hb => (hle b hb).trans_lt hx, by simp⟩
      · refine ⟨a, rfl, before, after++[x], by simp, hbefore, fun b hb => ?_⟩
        rcases List.mem_append.mp hb with hb | hb
        · exact hafter b hb
        · rw [List.mem_singleton.mp hb]
          exact not_lt.mp hx

theorem best_isBest {f : α → K} {l : List α} {a : α} (h : best f l = some a) : IsBest f l a := by
  rcases best_spec f l with ⟨-, hnone⟩ | ⟨b, hb, hbest⟩
  · rw [hnone] at h
    cases h
  · rw [hb] at h
    cases h
    exact hbest

theorem best_none {f : α → K} {l : List α} : best f l = none ↔ l = [] := by
  constructor
  · intro h
    rcases best_spec f l with ⟨hnil, -⟩ | ⟨b, hb, -⟩
    · exact hnil
    · rw [hb] at h
      cases h
  · rintro rfl
    rfl

variable [DecidableEq α] (score : List α → α → K) (cands : List α)

def rest (selected : List α) : List α := cands.filter (fun a => a ∉ selected)

def select : ℕ → List α
  | 0 => []
  | k+1 =>
    match best (score (select k)) (rest cands (select k)) with
    | none => select k
    | some a => select k++[a]

variable {score cands}

theorem mem_rest {selected : List α} {a : α} : a ∈ rest cands selected ↔ a ∈ cands ∧ a ∉ selected := by
  rw [rest, List.mem_filter, decide_eq_true_eq]

theorem select_step (k : ℕ) :
    (rest cands (select score cands k) = [] ∧ select score cands (k+1) = select score cands k) ∨
    ∃ a, IsBest (score (select score cands k)) (rest cands (select score cands k)) a ∧
      select score cands (k+1) = select score cands k++[a] := by
  rw [select]
  rcases hbest : best (score (select score cands k)) (rest cands (select score cands k)) with _ | a
  · exact Or.inl ⟨best_none.mp hbest, rfl⟩
  · exact Or.inr ⟨a, best_isBest hbest, rfl⟩

theorem select_grows (k m : ℕ) : select score cands k <+: select score cands (k+m) := by
  induction m with
  | zero => exact List.prefix_rfl
  | succ m ih =>
    apply ih.trans
    rw [← Nat.add_assoc]
    rcases @select_step α K _ _ score cands (k+m) with ⟨-, h⟩ | ⟨a, -, h⟩
    · rw [h]
    · rw [h]
      exact List.prefix_append _ _

theorem select_nodup (k : ℕ) : (select score cands k).Nodup := by
  induction k with
  | zero => exact List.nodup_nil
  | succ k ih =>
    rcases @select_step α K _ _ score cands k with ⟨-, h⟩ | ⟨a, ha, h⟩
    · rw [h]
      exact ih
    · rw [h]
      apply ih.append (List.nodup_singleton a)
      intro b hb hab
      rw [List.mem_singleton.mp hab] at hb
      exact (mem_rest.mp ha.mem).2 hb

theorem select_subset (k : ℕ) : ∀ a ∈ select score cands k, a ∈ cands := by
  induction k with
  | zero => simp [select]
  | succ k ih =>
    intro b hb
    rcases @select_step α K _ _ score cands k with ⟨-, h⟩ | ⟨a, ha, h⟩
    · rw [h] at hb
      exact ih b hb
    · rw [h] at hb
      rcases List.mem_append.mp hb with hb | hb
      · exact ih b hb
      · rw [List.mem_singleton.mp hb]
        exact (mem_rest.mp ha.mem).1

theorem select_length (hn : cands.Nodup) (k : ℕ) :
    (select score cands k).length = min k cands.length := by
  induction k with
  | zero => simp [select]
  | succ k ih =>
    have hle : (select score cands (k+1)).length ≤ cands.length :=
      (List.subperm_of_subset (select_nodup (k+1)) (select_subset (k+1))).length_le
    rcases @select_step α K _ _ score cands k with ⟨hnil, h⟩ | ⟨a, -, h⟩
    · have hall : cands ⊆ select score cands k := by
        intro a ha
        by_contra hnot
        have hmem : a ∈ rest cands (select score cands k) := mem_rest.mpr ⟨ha, hnot⟩
        rw [hnil] at hmem
        cases hmem
      have hge := (List.subperm_of_subset hn hall).length_le
      rw [h]
      omega
    · rw [h, List.length_append, List.length_singleton] at hle ⊢
      omega

/-- Rounds beyond the number of candidates change nothing. -/
theorem select_bounded (hn : cands.Nodup) (k : ℕ) :
    select score cands (min k cands.length) = select score cands k := by
  obtain ⟨m, hm⟩ := Nat.exists_eq_add_of_le (Nat.min_le_left k cands.length)
  have hprefix := @select_grows α K _ _ score cands (min k cands.length) m
  rw [← hm] at hprefix
  apply hprefix.eq_of_length
  rw [select_length hn, select_length hn]
  omega

/-- Nor do rounds after the last candidate. -/
theorem select_done {k : ℕ} (h : rest cands (select score cands k) = []) (m : ℕ) :
    select score cands (k+m) = select score cands k := by
  induction m with
  | zero => rfl
  | succ m ih =>
    rw [← Nat.add_assoc, select, ih, h]
    rfl

/-- Each member was the best of what was left when it was taken. -/
theorem select_best (k i : ℕ) (hi : i < (select score cands k).length) :
    IsBest (score ((select score cands k).take i)) (rest cands ((select score cands k).take i))
      ((select score cands k)[i]) := by
  induction k with
  | zero => simp [select] at hi
  | succ k ih =>
    rcases @select_step α K _ _ score cands k with ⟨-, h⟩ | ⟨a, ha, h⟩
    · simp only [h] at hi ⊢
      exact ih hi
    · simp only [h] at hi ⊢
      by_cases hlt : i < (select score cands k).length
      · rw [List.take_append_of_le_length hlt.le, List.getElem_append_left hlt]
        exact ih hlt
      · have heq : i = (select score cands k).length := by
          rw [List.length_append, List.length_singleton] at hi
          omega
        subst heq
        rw [List.take_left, List.getElem_concat_length rfl]
        exact ha

/-- The scores of the selections count, and only on what is left. -/
theorem select_congr {score' : List α → α → K} (h : ∀ sel a, score sel a = score' sel a) (k : ℕ) :
    select score cands k = select score' cands k := by
  have heq : score = score' := funext (fun sel => funext (h sel))
  rw [heq]

section Constant

variable {f : α → K}

open OrderDual in
/-- By falling scores, the earlier one first where they are equal. -/
def falling (f : α → K) (l : List α) : List α := sortOn (fun a => toDual (f a)) l

omit [DecidableEq α] in
theorem falling_cons (f : α → K) (x : α) (l : List α) :
    falling f (x::l) = List.orderedInsert
      (fun a b => OrderDual.toDual (f a) ≤ OrderDual.toDual (f b)) x (falling f l) := rfl

theorem falling_best {l : List α} {a : α} (hn : l.Nodup) (h : IsBest f l a) :
    falling f l = a::falling f (l.erase a) := by
  obtain ⟨before, after, rfl, hbefore, hafter⟩ := h
  induction before with
  | nil =>
    rw [List.nil_append, List.erase_cons_head, falling_cons]
    cases hs : falling f after with
    | nil => rfl
    | cons b s =>
      have hb : b ∈ after := by
        apply (sortOn_perm (fun a => OrderDual.toDual (f a)) after).mem_iff.mp
        show b ∈ falling f after
        rw [hs]
        exact List.mem_cons_self
      rw [List.orderedInsert_cons, if_pos (OrderDual.toDual_le_toDual.mpr (hafter b hb))]
  | cons x before ih =>
    have hx : f x < f a := hbefore x List.mem_cons_self
    have hne : (x == a) = false := beq_false_of_ne (fun he => hx.ne (congrArg f he))
    have hrest := ih (List.nodup_cons.mp hn).2
      (fun b hb => hbefore b (List.mem_cons_of_mem x hb))
    rw [List.cons_append, List.erase_cons_tail (by rw [hne]; exact Bool.false_ne_true),
      falling_cons, falling_cons, hrest, List.orderedInsert_cons,
      if_neg (fun hle => not_le.mpr hx (OrderDual.toDual_le_toDual.mp hle))]

theorem rest_nodup (hn : cands.Nodup) (selected : List α) : (rest cands selected).Nodup := hn.filter _

theorem rest_append (selected : List α) (a : α) (hn : cands.Nodup) :
    rest cands (selected++[a]) = (rest cands selected).erase a := by
  rw [List.Nodup.erase_eq_filter (rest_nodup hn selected), rest, rest, List.filter_filter]
  apply List.filter_congr
  intro b _
  rw [bne, beq_eq_decide]
  simp [not_or, and_comm]

/-- The selection is the beginning of the stable sort. -/
theorem select_falling (hn : cands.Nodup) (k : ℕ) :
    select (fun _ => f) cands k++falling f (rest cands (select (fun _ => f) cands k)) =
      falling f cands := by
  induction k with
  | zero =>
    have hrest : rest cands [] = cands := by simp [rest]
    rw [select, hrest, List.nil_append]
  | succ k ih =>
    rcases @select_step α K _ _ (fun _ => f) cands k with ⟨-, h⟩ | ⟨a, ha, h⟩
    · rw [h]
      exact ih
    · rw [h, rest_append _ a hn, List.append_assoc, List.singleton_append,
        ← falling_best (rest_nodup hn _) ha]
      exact ih

theorem select_take (hn : cands.Nodup) (k : ℕ) :
    select (fun _ => f) cands k = (falling f cands).take k := by
  have happ := @select_falling α K _ _ cands f hn k
  have hlen := @select_length α K _ _ (fun _ => f) cands hn k
  by_cases hk : k ≤ cands.length
  · rw [min_eq_left hk] at hlen
    rw [← happ, List.take_append_of_le_length hlen.ge, List.take_of_length_le hlen.le]
  · have hempty : falling f (rest cands (select (fun _ => f) cands k)) = [] := by
      apply List.eq_nil_of_length_eq_zero
      have htotal := congrArg List.length happ
      rw [List.length_append, falling, falling, (sortOn_perm _ cands).length_eq, hlen] at htotal
      rw [falling]
      omega
    rw [← happ, hempty, List.append_nil, List.take_of_length_le]
    omega

end Constant

end Uru.Lib.Greedy
