import Mathlib.Data.List.Basic
import Mathlib.Tactic

/-!
# The query cache

A dictionary from keys to a time and a value. A value is handed out while it is
younger than the time-to-live; a full cache gives up its oldest entry before it
takes another.
-/

set_option autoImplicit false

namespace Uru.Query

structure QueryCache (κ α : Type*) where
  entries : List (κ × ℤ × α)
  maxSize : ℕ
  ttl : ℤ

namespace QueryCache

variable {κ α : Type*} [DecidableEq κ]

def empty (maxSize : ℕ) (ttl : ℤ) : QueryCache κ α := ⟨[], maxSize, ttl⟩

def lookup (c : QueryCache κ α) (key : κ) : Option (ℤ × α) :=
  (c.entries.find? (fun e => e.1 = key)).map (·.2)

def erase (c : QueryCache κ α) (key : κ) : QueryCache κ α :=
  { c with entries := c.entries.filter (fun e => e.1 ≠ key) }

/-- The key of the first entry with the least time. -/
def oldestKey : List (κ × ℤ × α) → Option κ
  | [] => none
  | e::es => some (es.foldl (fun m x => if x.2.1 < m.2.1 then x else m) e).1

def assign (c : QueryCache κ α) (key : κ) (now : ℤ) (result : α) : QueryCache κ α :=
  { c with
    entries := if c.entries.any (fun e => e.1 = key)
      then c.entries.map (fun e => if e.1 = key then (key,now,result) else e)
      else c.entries++[(key,now,result)] }

def get (c : QueryCache κ α) (key : κ) (now : ℤ) : Option α × QueryCache κ α :=
  match c.lookup key with
  | none => (none,c)
  | some (timestamp,result) =>
    if now-timestamp < c.ttl then (some result,c) else (none,c.erase key)

def set (c : QueryCache κ α) (key : κ) (now : ℤ) (result : α) : QueryCache κ α :=
  let evicted := if c.maxSize ≤ c.entries.length
    then (oldestKey c.entries).elim c c.erase else c
  evicted.assign key now result

variable {c : QueryCache κ α} {key : κ} {now : ℤ} {result : α} {e : κ × ℤ × α}

theorem lookup_mem {ts : ℤ} (h : c.lookup key = some (ts,result)) : (key,ts,result) ∈ c.entries := by
  obtain ⟨e, hfind, he⟩ := Option.map_eq_some_iff.mp h
  have hkey : e.1 = key := by simpa using List.find?_some hfind
  have hmem := List.mem_of_find?_eq_some hfind
  rwa [← hkey, ← he]

/-- What is handed out stands in the cache, and is young enough. -/
theorem get_some (h : (c.get key now).1 = some result) :
    ∃ ts, (key,ts,result) ∈ c.entries ∧ now-ts < c.ttl := by
  unfold get at h
  split at h
  · cases h
  · rename_i ts r hl
    split_ifs at h with hlt
    obtain rfl := Option.some.inj h
    exact ⟨ts, lookup_mem hl, hlt⟩

theorem erase_mem (h : e ∈ (c.erase key).entries) : e ∈ c.entries := (List.mem_filter.mp h).1

theorem get_mem (h : e ∈ (c.get key now).2.entries) : e ∈ c.entries := by
  unfold get at h
  split at h
  · exact h
  · split_ifs at h
    · exact h
    · exact erase_mem h

theorem assign_mem (h : e ∈ (c.assign key now result).entries) :
    e = (key,now,result) ∨ e ∈ c.entries := by
  unfold assign at h
  simp only at h
  split_ifs at h
  · obtain ⟨x, hx, rfl⟩ := List.mem_map.mp h
    split_ifs with hk
    · exact Or.inl rfl
    · exact Or.inr hx
  · rcases List.mem_append.mp h with h | h
    · exact Or.inr h
    · exact Or.inl (List.mem_singleton.mp h)

/-- A store adds its own entry and keeps no other that was not there. -/
theorem set_mem (h : e ∈ (c.set key now result).entries) :
    e = (key,now,result) ∨ e ∈ c.entries := by
  refine (assign_mem h).imp_right (fun hmem => ?_)
  split_ifs at hmem
  · cases ho : oldestKey c.entries with
    | none => rwa [ho] at hmem
    | some k =>
      rw [ho] at hmem
      exact erase_mem hmem
  · exact hmem

@[simp] theorem get_ttl : (c.get key now).2.ttl = c.ttl := by
  unfold get
  split
  · rfl
  · split_ifs <;> rfl

@[simp] theorem set_ttl : (c.set key now result).ttl = c.ttl := by
  unfold set assign
  simp only
  split_ifs
  · cases oldestKey c.entries <;> rfl
  · rfl

end QueryCache

end Uru.Query
