import Mathlib.Data.List.Lex
import Mathlib.Data.List.Perm.Basic
import Mathlib.Data.List.Sort

/-!
# Sorting on a key

A stable sort of a list on a text computed from each element, and lookup in a
list of pairs. Where the keys tell the elements apart, the sorted list depends
on the elements alone, whatever their order; where the first components are
distinct, so does lookup.
-/

set_option autoImplicit false

namespace Uru.Lib

section Sorting

variable {α κ : Type} [LinearOrder κ]

def sortOn (key : α → κ) (l : List α) : List α := l.insertionSort (fun a b => key a ≤ key b)

theorem sortOn_perm (key : α → κ) (l : List α) : (sortOn key l).Perm l :=
  List.perm_insertionSort _ l

theorem mem_sortOn {key : α → κ} {l : List α} {a : α} : a ∈ sortOn key l ↔ a ∈ l :=
  (sortOn_perm key l).mem_iff

theorem sortOn_pairwise (key : α → κ) (l : List α) :
    (sortOn key l).Pairwise (fun a b => key a ≤ key b) := by
  have ht : Std.Total (fun a b : α => key a ≤ key b) := ⟨fun a b => le_total (key a) (key b)⟩
  have hr : IsTrans α (fun a b : α => key a ≤ key b) := ⟨fun _ _ _ => le_trans⟩
  exact List.pairwise_insertionSort _ l

theorem sortOn_congr {key : α → κ} {l m : List α} (h : l.Perm m)
    (hkey : ∀ a ∈ l, ∀ b ∈ l, key a = key b → a = b) : sortOn key l = sortOn key m := by
  refine List.Perm.eq_of_pairwise (fun a b ha hb hab hba => ?_) (sortOn_pairwise key l)
    (sortOn_pairwise key m) (((sortOn_perm key l).trans h).trans (sortOn_perm key m).symm)
  exact hkey a (mem_sortOn.mp ha) b (h.mem_iff.mpr (mem_sortOn.mp hb)) (le_antisymm hab hba)

theorem perm_of_sortOn {key : α → κ} {l m : List α} (h : sortOn key l = sortOn key m) : l.Perm m :=
  (sortOn_perm key l).symm.trans (h ▸ sortOn_perm key m)

/-- Lists with the same images up to order can be brought in an order in which
the images agree one by one. -/
theorem exists_perm_of_map {β γ : Type} {f : α → γ} {g : β → γ} {l : List α} {m : List β}
    (h : (l.map f).Perm (m.map g)) :
    ∃ m', m'.Perm m ∧ List.Forall₂ (fun a b => f a = g b) l m' := by
  have hg : List.Forall₂ (fun c b => c = g b) (m.map g) m := by
    rw [List.forall₂_map_left_iff]
    exact List.forall₂_same.mpr (fun _ _ => rfl)
  obtain ⟨m', hf, hp⟩ := List.perm_comp_forall₂ h hg
  exact ⟨m', hp, List.forall₂_map_left_iff.mp hf⟩

theorem forall₂_imp_mem {β : Type} {R S : α → β → Prop} {l : List α} {m : List β}
    (h : List.Forall₂ R l m) (hRS : ∀ a ∈ l, ∀ b ∈ m, R a b → S a b) : List.Forall₂ S l m := by
  induction h with
  | nil => exact .nil
  | cons hab _ ih =>
    exact .cons (hRS _ (by simp) _ (by simp) hab)
      (ih (fun a ha b hb => hRS a (by simp [ha]) b (by simp [hb])))

theorem map_eq_of_forall₂ {β γ : Type} {f : α → γ} {g : β → γ} {l : List α} {m : List β}
    (h : List.Forall₂ (fun a b => f a = g b) l m) : l.map f = m.map g := by
  induction h with
  | nil => rfl
  | cons hab _ ih => rw [List.map_cons, List.map_cons, hab, ih]

theorem forall₂_of_map_eq {β γ : Type} {f : α → γ} {g : β → γ} {l : List α} {m : List β}
    (h : l.map f = m.map g) : List.Forall₂ (fun a b => f a = g b) l m := by
  have heq : List.Forall₂ (· = ·) (l.map f) (m.map g) := by
    rw [List.forall₂_eq_eq_eq]
    exact h
  exact List.forall₂_map_right_iff.mp (List.forall₂_map_left_iff.mp heq)

end Sorting

section Lookup

variable {β κ : Type} [BEq κ]

theorem lookup_map {γ : Type} (f : β → γ) (l : List (κ × β)) (k : κ) :
    (l.map (fun p => (p.1,f p.2))).lookup k = (l.lookup k).map f := by
  induction l with
  | nil => rfl
  | cons p l ih =>
    obtain ⟨k', b⟩ := p
    by_cases h : (k == k') = true
    · simp [List.lookup_cons, h]
    · rw [Bool.not_eq_true] at h
      simpa [List.lookup_cons, h] using ih

variable [LawfulBEq κ]

theorem lookup_none {l : List (κ × β)} {k : κ} : l.lookup k = none ↔ k ∉ l.map Prod.fst := by
  induction l with
  | nil => simp
  | cons p l ih =>
    obtain ⟨k', b⟩ := p
    by_cases h : k = k'
    · subst h
      simp
    · have hb : (k == k') = false := by simpa using h
      simp [List.lookup_cons, hb, ih, h]

theorem mem_of_lookup {l : List (κ × β)} {k : κ} {b : β} (h : l.lookup k = some b) : (k,b) ∈ l := by
  induction l with
  | nil => cases h
  | cons p l ih =>
    obtain ⟨k', c⟩ := p
    by_cases hk : k = k'
    · subst hk
      rw [List.lookup_cons_self] at h
      cases h
      exact List.mem_cons_self
    · have hb : (k == k') = false := by simpa using hk
      rw [List.lookup_cons, hb] at h
      exact List.mem_cons_of_mem _ (ih h)

theorem lookup_some {l : List (κ × β)} (hl : (l.map Prod.fst).Nodup) {k : κ} {b : β} :
    l.lookup k = some b ↔ (k,b) ∈ l := by
  induction l with
  | nil => simp
  | cons p l ih =>
    obtain ⟨k', c⟩ := p
    rw [List.map_cons, List.nodup_cons] at hl
    by_cases h : k = k'
    · subst h
      have hn : (k,b) ∉ l := fun hm => hl.1 (List.mem_map.mpr ⟨_, hm, rfl⟩)
      simp [hn, eq_comm]
    · have hb : (k == k') = false := by simpa using h
      simp [List.lookup_cons, hb, ih hl.2, h]

theorem lookup_perm {l m : List (κ × β)} (h : l.Perm m) (hl : (l.map Prod.fst).Nodup) (k : κ) :
    l.lookup k = m.lookup k := by
  have hm : (m.map Prod.fst).Nodup := (h.map Prod.fst).nodup_iff.mp hl
  cases hk : l.lookup k with
  | none =>
    rw [lookup_none] at hk
    exact (lookup_none.mpr (fun hmem => hk ((h.map Prod.fst).mem_iff.mpr hmem))).symm
  | some b => exact ((lookup_some hm).mpr (h.mem_iff.mp ((lookup_some hl).mp hk))).symm

def Matched (R : β → β → Prop) (xs ys : List (κ × β)) : Prop :=
  ∀ k, xs.lookup k = none ∧ ys.lookup k = none ∨
    ∃ x y, xs.lookup k = some x ∧ ys.lookup k = some y ∧ R x y

theorem Matched.imp {R S : β → β → Prop} {xs ys : List (κ × β)} (h : Matched R xs ys)
    (hRS : ∀ p ∈ xs, ∀ y, R p.2 y → S p.2 y) : Matched S xs ys := by
  intro k
  rcases h k with hn | ⟨x, y, hx, hy, hxy⟩
  · exact .inl hn
  · exact .inr ⟨x, y, hx, hy, hRS (k,x) (mem_of_lookup hx) y hxy⟩

end Lookup

end Uru.Lib
