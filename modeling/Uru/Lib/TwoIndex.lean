import Mathlib.Data.List.Nodup
import Mathlib.Logic.Function.Basic
import Mathlib.Tactic

/-!
# Items in two indexes

Items are held twice: under their key, in the order in which they came, and
under their identity. An item is removed from the list of its own key only. The
two indexes agree when an identity finds an item just if the list of the item's
key has it.
-/

set_option autoImplicit false

namespace Uru.Lib

structure TwoIndex (κ ι α : Type*) where
  lists : κ → List α
  byId : ι → Option α

namespace TwoIndex

variable {κ ι α : Type*} [DecidableEq κ] [DecidableEq ι] (key : α → κ) (ident : α → ι)

def empty : TwoIndex κ ι α where
  lists := fun _ => []
  byId := fun _ => none

def add (x : α) (t : TwoIndex κ ι α) : TwoIndex κ ι α where
  lists := Function.update t.lists (key x) (t.lists (key x)++[x])
  byId := Function.update t.byId (ident x) (some x)

/-- The item of an identity leaves the list of its key. -/
def unlist (i : ι) (t : TwoIndex κ ι α) : TwoIndex κ ι α :=
  match t.byId i with
  | none => t
  | some x =>
    { t with
      lists := Function.update t.lists (key x)
        ((t.lists (key x)).filter (fun y => ident y ≠ i)) }

def remove (i : ι) (t : TwoIndex κ ι α) : TwoIndex κ ι α :=
  { unlist key ident i t with byId := Function.update t.byId i none }

/-- The item replaces the one of its identity, if there is one. -/
def put (x : α) (t : TwoIndex κ ι α) : TwoIndex κ ι α := add key ident x (unlist key ident (ident x) t)

structure Agree (t : TwoIndex κ ι α) : Prop where
  keyed : ∀ k, ∀ x ∈ t.lists k, key x = k
  found : ∀ i x, t.byId i = some x ↔ ident x = i ∧ x ∈ t.lists (key x)
  nodup : ∀ k, ((t.lists k).map ident).Nodup

variable {key ident} {t : TwoIndex κ ι α} {i : ι} {x : α}

omit [DecidableEq κ] [DecidableEq ι] in
theorem agree_empty : Agree key ident (empty : TwoIndex κ ι α) where
  keyed := by
    intro k x hx
    cases hx
  found := by
    intro i x
    constructor
    · intro h
      cases h
    · rintro ⟨-, hx⟩
      cases hx
  nodup := fun _ => List.nodup_nil

omit [DecidableEq κ] [DecidableEq ι] in
theorem Agree.mem_iff (h : Agree key ident t) (k : κ) :
    x ∈ t.lists k ↔ key x = k ∧ t.byId (ident x) = some x := by
  constructor
  · intro hx
    obtain rfl := h.keyed k x hx
    exact ⟨rfl, (h.found _ x).mpr ⟨rfl, hx⟩⟩
  · rintro ⟨rfl, hx⟩
    exact ((h.found _ x).mp hx).2

theorem unlist_lists (h : Agree key ident t) (k : κ) :
    (unlist key ident i t).lists k = (t.lists k).filter (fun y => ident y ≠ i) := by
  have hkeep : ∀ k', (∀ y ∈ t.lists k', ident y ≠ i) →
      t.lists k' = (t.lists k').filter (fun y => ident y ≠ i) := fun k' hk' =>
    (List.filter_eq_self.mpr (fun y hy => by simpa using hk' y hy)).symm
  have hfound : ∀ y ∈ t.lists k, ident y = i → t.byId i = some y := by
    intro y hy hi
    obtain rfl := h.keyed k y hy
    exact (h.found i y).mpr ⟨hi, hy⟩
  unfold unlist
  cases hi : t.byId i with
  | none =>
    refine hkeep k (fun y hy he => ?_)
    rw [hfound y hy he] at hi
    cases hi
  | some x =>
    by_cases hk : k = key x
    · subst hk
      exact Function.update_self _ _ _
    · simp only [Function.update_of_ne hk]
      refine hkeep k (fun y hy he => hk ?_)
      obtain rfl := Option.some.inj ((hfound y hy he).symm.trans hi)
      exact (h.keyed k y hy).symm

theorem unlist_byId : (unlist key ident i t).byId = t.byId := by
  unfold unlist
  split <;> rfl

@[simp] theorem remove_byId (j : ι) :
    (remove key ident i t).byId j = if j = i then none else t.byId j := by
  simp only [remove, Function.update_apply]

@[simp] theorem put_byId (j : ι) :
    (put key ident x t).byId j = if j = ident x then some x else t.byId j := by
  simp only [put, add, Function.update_apply, unlist_byId]

@[simp] theorem add_byId (j : ι) :
    (add key ident x t).byId j = if j = ident x then some x else t.byId j := by
  simp only [add, Function.update_apply]

theorem agree_remove (h : Agree key ident t) : Agree key ident (remove key ident i t) where
  keyed := by
    intro k x hx
    rw [remove, unlist_lists h] at hx
    exact h.keyed k x (List.mem_filter.mp hx).1
  found := by
    intro j x
    rw [remove_byId, remove, unlist_lists h, List.mem_filter]
    split_ifs with hj
    · subst hj
      constructor
      · intro hx
        cases hx
      · rintro ⟨hi, -, hne⟩
        exact absurd hi (by simpa using hne)
    · rw [h.found]
      constructor
      · rintro ⟨rfl, hx⟩
        exact ⟨rfl, hx, by simpa using hj⟩
      · rintro ⟨hi, hx, -⟩
        exact ⟨hi, hx⟩
  nodup := by
    intro k
    rw [remove, unlist_lists h]
    exact (h.nodup k).sublist (List.filter_sublist.map ident)

theorem put_lists (h : Agree key ident t) (k : κ) :
    (put key ident x t).lists k =
      (t.lists k).filter (fun y => ident y ≠ ident x)++(if k = key x then [x] else []) := by
  by_cases hk : k = key x
  · subst hk
    simp only [put, add, Function.update_self, unlist_lists h, if_true]
  · simp only [put, add, Function.update_of_ne hk, unlist_lists h, if_neg hk, List.append_nil]

theorem agree_put (h : Agree key ident t) : Agree key ident (put key ident x t) where
  keyed := by
    intro k y hy
    rw [put_lists h] at hy
    rcases List.mem_append.mp hy with hold | hnew
    · exact h.keyed k y (List.mem_filter.mp hold).1
    · split_ifs at hnew with hk
      · rw [List.mem_singleton.mp hnew, hk]
      · cases hnew
  found := by
    intro j y
    rw [put_byId, put_lists h, List.mem_append, List.mem_filter]
    by_cases hj : j = ident x
    · subst hj
      rw [if_pos rfl]
      constructor
      · intro hy
        obtain rfl := Option.some.inj hy
        exact ⟨rfl, Or.inr (by simp)⟩
      · rintro ⟨hid, hold | hnew⟩
        · exact absurd hid (by simpa using hold.2)
        · split_ifs at hnew
          · rw [List.mem_singleton.mp hnew]
          · cases hnew
    · rw [if_neg hj, h.found]
      constructor
      · rintro ⟨rfl, hy⟩
        exact ⟨rfl, Or.inl ⟨hy, by simpa using hj⟩⟩
      · rintro ⟨rfl, hold | hnew⟩
        · exact ⟨rfl, hold.1⟩
        · split_ifs at hnew
          · exact absurd (congrArg ident (List.mem_singleton.mp hnew)) hj
          · cases hnew
  nodup := by
    intro k
    rw [put_lists h, List.map_append, List.nodup_append]
    refine ⟨(h.nodup k).sublist (List.filter_sublist.map ident), ?_, ?_⟩
    · split_ifs <;> simp
    · intro a ha b hb hab
      subst hab
      obtain ⟨y, hy, rfl⟩ := List.mem_map.mp ha
      split_ifs at hb
      · exact absurd (List.mem_singleton.mp hb) (by simpa using (List.mem_filter.mp hy).2)
      · cases hb

/-- Adding an item whose identity is new is putting it. -/
theorem add_eq_put (hnew : t.byId (ident x) = none) : add key ident x t = put key ident x t := by
  rw [put, unlist, hnew]

theorem agree_put_all (xs : List α) (h : Agree key ident t) :
    Agree key ident (xs.foldl (fun t x => put key ident x t) t) := by
  induction xs generalizing t with
  | nil => exact h
  | cons x xs ih => exact ih (agree_put h)

theorem put_all_byId (xs : List α) (hn : (xs.map ident).Nodup) (i : ι) :
    (xs.foldl (fun t x => put key ident x t) t).byId i =
      (xs.find? (fun x => ident x = i)).or (t.byId i) := by
  induction xs generalizing t with
  | nil => rfl
  | cons x xs ih =>
    rw [List.map_cons, List.nodup_cons] at hn
    rw [List.foldl_cons, ih hn.2, put_byId]
    by_cases hi : ident x = i
    · have hnone : xs.find? (fun y => ident y = i) = none := by
        rw [List.find?_eq_none]
        intro y hy
        have hne : ident y ≠ i := by
          rintro rfl
          exact hn.1 (hi ▸ List.mem_map_of_mem hy)
        simpa using hne
      rw [hnone, if_pos hi.symm, List.find?_cons_of_pos (by simpa using hi)]
      rfl
    · rw [if_neg (fun h => hi h.symm), List.find?_cons_of_neg (by simpa using hi)]

/-- Among the items of a key that pass a test, an identity stands once if the
item it finds has the key and passes, and not at all otherwise. -/
theorem count_filter (h : Agree key ident t) (p : α → Bool) (k : κ) (i : ι) :
    (((t.lists k).filter p).map ident).count i =
      if (t.byId i).any (fun x => decide (key x = k) && p x) then 1 else 0 := by
  have hn : (((t.lists k).filter p).map ident).Nodup :=
    (h.nodup k).sublist (List.filter_sublist.map ident)
  rw [hn.count]
  refine if_congr ?_ rfl rfl
  simp only [List.mem_map, List.mem_filter, Option.any_eq_true, Bool.and_eq_true,
    decide_eq_true_eq]
  constructor
  · rintro ⟨x, ⟨hx, hp⟩, rfl⟩
    obtain ⟨hk, hid⟩ := h.mem_iff k |>.mp hx
    exact ⟨x, hid, hk, hp⟩
  · rintro ⟨x, hid, hk, hp⟩
    obtain ⟨rfl, hx⟩ := (h.found i x).mp hid
    exact ⟨x, ⟨hk ▸ hx, hp⟩, rfl⟩

end TwoIndex

end Uru.Lib
