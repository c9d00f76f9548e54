import Mathlib.Data.List.Basic
import Mathlib.Data.List.Nodup

/-!
# Records as lists of set fields

A record with optional fields is emitted as the list of the fields that are
set, in a fixed order, and read back by looking each field up. Every field is
emitted at most once, so that what is read is what was emitted.
-/

set_option autoImplicit false

namespace Uru.Lib.Slots

variable {S V : Type} [DecidableEq S]

def lookup (kvs : List (S × V)) (s : S) : Option V := (kvs.find? (fun kv => kv.1 = s)).map Prod.snd

def emit (all : List S) (f : S → Option V) : List (S × V) :=
  all.filterMap (fun s => (f s).map (fun v => (s,v)))

omit [DecidableEq S] in
theorem mem_emit {all : List S} {f : S → Option V} {kv : S × V} :
    kv ∈ emit all f ↔ kv.1 ∈ all ∧ f kv.1 = some kv.2 := by
  rw [emit, List.mem_filterMap]
  constructor
  · rintro ⟨s, hs, hsome⟩
    obtain ⟨v, hv, rfl⟩ := Option.map_eq_some_iff.mp hsome
    exact ⟨hs, hv⟩
  · rintro ⟨hs, hv⟩
    exact ⟨kv.1, hs, by rw [hv]; rfl⟩

theorem lookup_eq_some {kvs : List (S × V)} (hnodup : (kvs.map Prod.fst).Nodup) {s : S} {v : V} :
    lookup kvs s = some v ↔ (s,v) ∈ kvs := by
  rw [lookup, Option.map_eq_some_iff]
  constructor
  · rintro ⟨kv, hfind, rfl⟩
    obtain rfl : kv.1 = s := by simpa using List.find?_some hfind
    exact List.mem_of_find?_eq_some hfind
  · intro hmem
    obtain ⟨kv, hkv⟩ : ∃ kv, kvs.find? (fun kv => kv.1 = s) = some kv :=
      Option.isSome_iff_exists.mp (List.find?_isSome.mpr ⟨(s,v), hmem, by simp⟩)
    have hs : kv.1 = s := by simpa using List.find?_some hkv
    have heq : kv = (s,v) :=
      List.inj_on_of_nodup_map hnodup (List.mem_of_find?_eq_some hkv) hmem hs
    exact ⟨kv, hkv, congrArg Prod.snd heq⟩

omit [DecidableEq S] in
theorem emit_nodup {all : List S} (hall : all.Nodup) (f : S → Option V) :
    ((emit all f).map Prod.fst).Nodup := by
  have hkeys : (emit all f).map Prod.fst = all.filter (fun s => (f s).isSome) := by
    rw [emit, List.map_filterMap, ← List.filterMap_eq_filter]
    refine List.filterMap_congr (fun s _ => ?_)
    rcases hf : f s with _ | v
    · simp [Option.guard, hf]
    · simp [Option.guard, hf]
  rw [hkeys]
  exact hall.filter _

/-- Looking the fields up returns the record that was emitted. -/
theorem lookup_emit {all : List S} (hall : all.Nodup) {f : S → Option V}
    (hmem : ∀ s v, f s = some v → s ∈ all) : lookup (emit all f) = f := by
  funext s
  refine Option.ext (fun v => ?_)
  rw [lookup_eq_some (emit_nodup hall f), mem_emit]
  exact and_iff_right_of_imp (hmem s v)

omit [DecidableEq S] in
theorem emit_map {W : Type} (all : List S) (f : S → Option V) (g : V → W) :
    emit all (fun s => (f s).map g) = (emit all f).map (fun kv => (kv.1,g kv.2)) := by
  rw [emit, emit, List.map_filterMap]
  refine List.filterMap_congr (fun s _ => ?_)
  rw [Option.map_map, Option.map_map]
  rfl

end Uru.Lib.Slots
