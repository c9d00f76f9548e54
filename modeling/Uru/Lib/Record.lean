import Mathlib.Data.List.Basic
import Mathlib.Data.List.Nodup
import Mathlib.Tactic

/-!
# Insertion-ordered records

A record with distinct keys that remembers the order in which keys were first
written: writing a key that is present keeps its place, writing a new key puts
it last. A record whose keys repeat cannot be built.
-/

set_option autoImplicit false

namespace Uru.Lib

variable {κ β : Type*} [DecidableEq κ]

def assign : List (κ × β) → κ → β → List (κ × β)
  | [], k, v => [(k,v)]
  | (a,b)::es, k, v => if a = k then (k,v)::es else (a,b)::assign es k v

def find : List (κ × β) → κ → Option β
  | [], _ => none
  | (a,b)::es, k => if a = k then some b else find es k

theorem keys_assign (es : List (κ × β)) (k : κ) (v : β) :
    (assign es k v).map Prod.fst =
      if k ∈ es.map Prod.fst then es.map Prod.fst else es.map Prod.fst++[k] := by
  induction es with
  | nil => simp [assign]
  | cons e es ih =>
    obtain ⟨a, b⟩ := e
    by_cases h : a = k
    · subst h
      simp [assign]
    · simp only [assign, if_neg h, List.map_cons, ih, List.mem_cons, Ne.symm h, false_or]
      split_ifs <;> simp

theorem find_assign (es : List (κ × β)) (k k' : κ) (v : β) :
    find (assign es k v) k' = if k' = k then some v else find es k' := by
  induction es with
  | nil =>
    by_cases h : k' = k
    · simp [assign, find, h]
    · simp [assign, find, h, Ne.symm h]
  | cons e es ih =>
    obtain ⟨a, b⟩ := e
    by_cases h : a = k
    · subst h
      by_cases h' : a = k'
      · simp [assign, find, h']
      · simp [assign, find, h', Ne.symm h']
    · by_cases h' : a = k'
      · subst h'
        simp [assign, find, h]
      · simp [assign, find, h, h', ih]

theorem assign_new (es : List (κ × β)) (k : κ) (v : β) (h : k ∉ es.map Prod.fst) :
    assign es k v = es++[(k,v)] := by
  induction es with
  | nil => rfl
  | cons e es ih =>
    obtain ⟨a, b⟩ := e
    simp only [List.map_cons, List.mem_cons, not_or] at h
    simp [assign, Ne.symm h.1, ih h.2]

theorem find_filter (es : List (κ × β)) (k k' : κ) :
    find (es.filter (fun e => e.1 ≠ k)) k' = if k' = k then none else find es k' := by
  induction es with
  | nil => simp [find]
  | cons e es ih =>
    obtain ⟨a, b⟩ := e
    by_cases h : a = k
    · subst h
      rw [List.filter_cons_of_neg (by simp), ih]
      by_cases h' : k' = a
      · simp [h']
      · simp [find, h', Ne.symm h']
    · rw [List.filter_cons_of_pos (by simpa using h)]
      by_cases h' : a = k'
      · subst h'
        simp [find, h]
      · simpa [find, h'] using ih

theorem find_isSome (es : List (κ × β)) (k : κ) :
    (find es k).isSome ↔ k ∈ es.map Prod.fst := by
  induction es with
  | nil => simp [find]
  | cons e es ih =>
    obtain ⟨a, b⟩ := e
    by_cases h : a = k
    · simp [find, h]
    · simp [find, h, ih, Ne.symm h]

theorem find_filterEntries (es : List (κ × β)) (p : κ → β → Bool) (hn : (es.map Prod.fst).Nodup)
    (k : κ) : find (es.filter (fun e => p e.1 e.2)) k = (find es k).filter (p k) := by
  induction es with
  | nil => rfl
  | cons e es ih =>
    obtain ⟨a, b⟩ := e
    obtain ⟨ha, hn⟩ := List.nodup_cons.mp hn
    by_cases h : a = k
    · subst h
      cases hp : p a b with
      | true => simp [find, hp, Option.filter]
      | false =>
        have hnone : find es a = none := by
          by_contra hs
          exact ha ((find_isSome es a).mp (Option.isSome_iff_ne_none.mpr hs))
        rw [List.filter_cons_of_neg (by simp [hp]), ih hn, hnone]
        simp [find, hp, Option.filter]
    · cases hp : p a b <;> simp [hp, find, h, ih hn]

theorem find_mem (es : List (κ × β)) (k : κ) (v : β) (h : find es k = some v) : (k,v) ∈ es := by
  induction es with
  | nil => simp [find] at h
  | cons e es ih =>
    obtain ⟨a, b⟩ := e
    by_cases hk : a = k
    · simp only [find, if_pos hk, Option.some.injEq] at h
      simp [hk, h]
    · simp only [find, if_neg hk] at h
      exact List.mem_cons_of_mem _ (ih h)

theorem mem_find (es : List (κ × β)) (hn : (es.map Prod.fst).Nodup) (k : κ) (v : β)
    (h : (k,v) ∈ es) : find es k = some v := by
  induction es with
  | nil => simp at h
  | cons e es ih =>
    obtain ⟨a, b⟩ := e
    simp only [List.map_cons, List.nodup_cons] at hn
    rcases List.mem_cons.mp h with he | ht
    · cases he
      simp [find]
    · have hk : a ≠ k := fun hak => hn.1 (hak ▸ List.mem_map_of_mem ht)
      simp [find, hk, ih hn.2 ht]

theorem sum_assign (es : List (κ × β)) (k : κ) (v : β) (f : β → ℕ) :
    ((assign es k v).map (fun e => f e.2)).sum+(find es k).elim 0 f =
      (es.map (fun e => f e.2)).sum+f v := by
  induction es with
  | nil => simp [assign, find]
  | cons e es ih =>
    obtain ⟨a, b⟩ := e
    by_cases hk : a = k
    · simp only [assign, find, if_pos hk, List.map_cons, List.sum_cons, Option.elim_some]
      omega
    · simp only [assign, find, if_neg hk, List.map_cons, List.sum_cons]
      omega

theorem assign_assign (es : List (κ × β)) (k : κ) (v w : β) :
    assign (assign es k v) k w = assign es k w := by
  induction es with
  | nil => simp [assign]
  | cons e es ih =>
    obtain ⟨a, b⟩ := e
    by_cases h : a = k <;> simp [assign, h, ih]

/-- A filter that lets a key through commutes with writing it. -/
theorem filter_assign (es : List (κ × β)) (p : κ → β → Bool) (k : κ) (v : β)
    (hp : ∀ w, p k w = true) :
    (assign es k v).filter (fun e => p e.1 e.2) = assign (es.filter (fun e => p e.1 e.2)) k v := by
  induction es with
  | nil => simp [assign, hp]
  | cons e es ih =>
    obtain ⟨a, b⟩ := e
    by_cases h : a = k
    · subst h
      simp [assign, hp]
    · cases hb : p a b <;> simp [assign, h, hb, ih]

structure Record (κ β : Type*) where
  entries : List (κ × β)
  nodup : (entries.map Prod.fst).Nodup

namespace Record

omit [DecidableEq κ] in
@[ext] theorem ext {r s : Record κ β} (h : r.entries = s.entries) : r = s := by
  cases r; cases s; cases h; rfl

instance [DecidableEq β] : DecidableEq (Record κ β) := fun r s =>
  decidable_of_iff (r.entries = s.entries) ⟨ext, fun h => h ▸ rfl⟩

def empty : Record κ β := ⟨[], List.nodup_nil⟩

instance : EmptyCollection (Record κ β) := ⟨empty⟩

def keys (r : Record κ β) : List κ := r.entries.map Prod.fst

def get (r : Record κ β) (k : κ) : Option β := find r.entries k

def set (r : Record κ β) (k : κ) (v : β) : Record κ β where
  entries := assign r.entries k v
  nodup := by
    rw [keys_assign]
    split_ifs with h
    · exact r.nodup
    · exact List.nodup_append.mpr ⟨r.nodup, List.nodup_singleton k,
        fun a ha b hb => by rw [List.mem_singleton.mp hb]; exact fun he => h (he ▸ ha)⟩

def delete (r : Record κ β) (k : κ) : Record κ β where
  entries := r.entries.filter (fun e => e.1 ≠ k)
  nodup := r.nodup.sublist (List.filter_sublist.map Prod.fst)

def filter (r : Record κ β) (p : κ → β → Bool) : Record κ β where
  entries := r.entries.filter (fun e => p e.1 e.2)
  nodup := r.nodup.sublist (List.filter_sublist.map Prod.fst)

def values (r : Record κ β) : List β := r.entries.map Prod.snd

@[simp] theorem get_empty (k : κ) : (∅ : Record κ β).get k = none := rfl

@[simp] theorem get_set (r : Record κ β) (k k' : κ) (v : β) :
    (r.set k v).get k' = if k' = k then some v else r.get k' := find_assign _ _ _ _

@[simp] theorem get_delete (r : Record κ β) (k k' : κ) :
    (r.delete k).get k' = if k' = k then none else r.get k' := find_filter _ _ _

@[simp] theorem get_filter (r : Record κ β) (p : κ → β → Bool) (k : κ) :
    (r.filter p).get k = (r.get k).filter (p k) := find_filterEntries _ _ r.nodup _

theorem set_set (r : Record κ β) (k : κ) (v w : β) : (r.set k v).set k w = r.set k w :=
  ext (assign_assign r.entries k v w)

theorem filter_set (r : Record κ β) (p : κ → β → Bool) (k : κ) (v : β)
    (hp : ∀ w, p k w = true) : (r.set k v).filter p = (r.filter p).set k v :=
  ext (filter_assign r.entries p k v hp)

omit [DecidableEq κ] in
theorem filter_filter (r : Record κ β) (p : κ → β → Bool) : (r.filter p).filter p = r.filter p :=
  ext (by simp [filter])

theorem mem_keys (r : Record κ β) (k : κ) : k ∈ r.keys ↔ (r.get k).isSome :=
  (find_isSome r.entries k).symm

theorem mem_entries (r : Record κ β) (k : κ) (v : β) :
    (k,v) ∈ r.entries ↔ r.get k = some v :=
  ⟨mem_find r.entries r.nodup k v, find_mem r.entries k v⟩

theorem sum_set (r : Record κ β) (k : κ) (v : β) (f : β → ℕ) :
    ((r.set k v).values.map f).sum+(r.get k).elim 0 f = (r.values.map f).sum+f v := by
  rw [values, values, List.map_map, List.map_map]
  exact sum_assign r.entries k v f

theorem mem_values (r : Record κ β) (k : κ) (v : β) (h : r.get k = some v) : v ∈ r.values :=
  List.mem_map.mpr ⟨(k,v),(r.mem_entries k v).mpr h,rfl⟩

/-- The record that a list of writes leaves: a key written twice keeps its
first place and its last value. -/
def ofList (es : List (κ × β)) : Record κ β := es.foldl (fun r e => r.set e.1 e.2) ∅

theorem foldl_set_entries (es : List (κ × β)) (r : Record κ β)
    (hn : ((r.entries++es).map Prod.fst).Nodup) :
    (es.foldl (fun r e => r.set e.1 e.2) r).entries = r.entries++es := by
  induction es generalizing r with
  | nil => simp
  | cons e es ih =>
    have hk : e.1 ∉ r.entries.map Prod.fst := by
      rw [List.map_append, List.nodup_append] at hn
      exact fun hm => hn.2.2 _ hm _ (by simp) rfl
    have hs : (r.set e.1 e.2).entries = r.entries++[e] := assign_new _ _ _ hk
    rw [List.foldl_cons, ih, hs, List.append_assoc, List.singleton_append]
    rw [hs, List.append_assoc, List.singleton_append]
    exact hn

/-- What is written later under other keys makes no difference. -/
theorem get_ofList_append (es more : List (κ × β)) (k : κ) (h : ∀ e ∈ more, e.1 ≠ k) :
    (ofList (es++more)).get k = (ofList es).get k := by
  rw [ofList, List.foldl_append, ← ofList]
  generalize ofList es = r
  induction more generalizing r with
  | nil => rfl
  | cons e more ih =>
    rw [List.foldl_cons, ih (fun e' he' => h e' (List.mem_cons_of_mem e he')), get_set,
      if_neg (Ne.symm (h e List.mem_cons_self))]

theorem mem_of_ofList {es : List (κ × β)} {k : κ} {v : β} (h : (ofList es).get k = some v) :
    (k,v) ∈ es := by
  induction es using List.reverseRecOn with
  | nil => cases h
  | append_singleton es e ih =>
    rw [ofList, List.foldl_append, ← ofList, List.foldl_cons, List.foldl_nil, get_set] at h
    split_ifs at h with hk
    · cases h
      subst hk
      exact List.mem_append_right es (List.mem_singleton_self e)
    · exact List.mem_append_left _ (ih h)

theorem ofList_entries (r : Record κ β) : ofList r.entries = r :=
  ext ((foldl_set_entries r.entries ∅ r.nodup).trans (List.nil_append _))

end Record

end Uru.Lib
