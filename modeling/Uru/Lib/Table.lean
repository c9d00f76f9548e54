import Mathlib.Data.List.Basic
import Mathlib.Data.List.Nodup
import Mathlib.Tactic

/-!
# Updates of a keyed table

An update addresses the row of one key, may ask a condition of it, and never
changes the key. A list of updates is run one after another over the whole
table; for each row this is the run of the same list over that row alone, and
only the updates that address the row matter.
-/

set_option autoImplicit false

namespace Uru.Lib.Table

variable {α κ : Type*}

/-- `UPDATE … SET set WHERE key = target AND guard`. -/
structure Update (key : α → κ) where
  target : κ
  guard : α → Bool
  set : α → α
  keeps : ∀ x, key (set x) = key x

/-- Two tables with the same keys show the same values under the same keys if
and only if rows with one key show the same. -/
theorem same_view_iff {β ν : Type*} (key : α → κ) (key' : β → κ) (view : α → Option ν)
    (view' : β → Option ν) {xs : List α} {ys : List β} (hx : (xs.map key).Nodup) (hy : (ys.map key').Nodup)
    (hxy : ∀ x ∈ xs, ∃ y ∈ ys, key' y = key x) (hyx : ∀ y ∈ ys, ∃ x ∈ xs, key x = key' y) :
    (∀ k v, (∃ x ∈ xs, key x = k ∧ view x = some v) ↔ ∃ y ∈ ys, key' y = k ∧ view' y = some v) ↔
      ∀ x ∈ xs, ∀ y ∈ ys, key' y = key x → view x = view' y := by
  constructor
  · intro h x hmx y hmy hk
    refine Option.ext (fun v => ⟨fun hv => ?_, fun hv => ?_⟩)
    · obtain ⟨z, hz, hzk, hzv⟩ := (h (key x) v).mp ⟨x, hmx, rfl, hv⟩
      rw [List.inj_on_of_nodup_map hy hmy hz (hk.trans hzk.symm)]
      exact hzv
    · obtain ⟨z, hz, hzk, hzv⟩ := (h (key x) v).mpr ⟨y, hmy, hk, hv⟩
      rw [List.inj_on_of_nodup_map hx hmx hz hzk.symm]
      exact hzv
  · intro h k v
    constructor
    · rintro ⟨x, hmx, rfl, hv⟩
      obtain ⟨y, hmy, hk⟩ := hxy x hmx
      exact ⟨y, hmy, hk, (h x hmx y hmy hk).symm.trans hv⟩
    · rintro ⟨y, hmy, rfl, hv⟩
      obtain ⟨x, hmx, hk⟩ := hyx y hmy
      exact ⟨x, hmx, hk, (h x hmx y hmy hk.symm).trans hv⟩

variable [DecidableEq κ] {key : α → κ}

namespace Update

def hits (u : Update key) (x : α) : Bool := key x = u.target && u.guard x

def on (u : Update key) (x : α) : α := if u.hits x then u.set x else x

theorem on_key (u : Update key) (x : α) : key (u.on x) = key x := by
  unfold on
  split
  · exact u.keeps x
  · rfl

theorem on_other {u : Update key} {x : α} (h : key x ≠ u.target) : u.on x = x := by
  simp [on, hits, h]

end Update

def onRow (us : List (Update key)) (x : α) : α := us.foldl (fun x u => u.on x) x

def run (us : List (Update key)) (xs : List α) : List α :=
  us.foldl (fun xs u => xs.map u.on) xs

def touched : List (Update key) → List α → Bool
  | [], _ => false
  | u::us, xs => xs.any u.hits || touched us (xs.map u.on)

@[simp]
theorem onRow_nil (x : α) : onRow ([] : List (Update key)) x = x := rfl

@[simp]
theorem onRow_cons (u : Update key) (us : List (Update key)) (x : α) :
    onRow (u::us) x = onRow us (u.on x) := rfl

theorem onRow_append (us vs : List (Update key)) (x : α) :
    onRow (us++vs) x = onRow vs (onRow us x) :=
  List.foldl_append

theorem onRow_key (us : List (Update key)) (x : α) : key (onRow us x) = key x := by
  induction us generalizing x with
  | nil => rfl
  | cons u us ih => exact (ih _).trans (u.on_key x)

theorem onRow_of_unaddressed {us : List (Update key)} {x : α}
    (h : ∀ u ∈ us, key x ≠ u.target) : onRow us x = x := by
  induction us with
  | nil => rfl
  | cons u us ih =>
    rw [onRow_cons, Update.on_other (h u (by simp))]
    exact ih (fun v hv => h v (by simp [hv]))

theorem run_eq_map (us : List (Update key)) (xs : List α) : run us xs = xs.map (onRow us) := by
  induction us generalizing xs with
  | nil => exact (List.map_id xs).symm
  | cons u us ih =>
    rw [run, List.foldl_cons]
    exact (ih _).trans (by simp [List.map_map, Function.comp_def])

theorem run_keys (us : List (Update key)) (xs : List α) :
    (run us xs).map key = xs.map key := by
  rw [run_eq_map, List.map_map]
  exact List.map_congr_left (fun x _ => onRow_key us x)

/-- One update for each selected row of a table: a row with the key of `r`
meets the update written for `r` and no other. -/
theorem onRow_selected {xs : List α} (hn : (xs.map key).Nodup) (p : α → Bool)
    (f : α → Update key) (hf : ∀ r, (f r).target = key r) {r : α} (hr : r ∈ xs) {x : α}
    (hx : key x = key r) :
    onRow ((xs.filter p).map f) x = if p r then (f r).on x else x := by
  induction xs with
  | nil => simp at hr
  | cons y ys ih =>
    obtain ⟨hy, hys⟩ := List.nodup_cons.mp hn
    have hrest : ∀ {z : α}, key z = key y → onRow ((ys.filter p).map f) z = z := by
      intro z hz
      refine onRow_of_unaddressed (fun u hu => ?_)
      obtain ⟨s, hs, rfl⟩ := List.mem_map.mp hu
      rw [hf, hz]
      intro h
      exact hy (h ▸ List.mem_map_of_mem (List.mem_filter.mp hs).1)
    rcases List.mem_cons.mp hr with rfl | hmem
    · cases hp : p r
      · rw [List.filter_cons_of_neg (by simp [hp]), hrest hx]
        simp
      · rw [List.filter_cons_of_pos hp, List.map_cons, onRow_cons,
          hrest (((f r).on_key x).trans hx)]
        simp
    · have hne : key x ≠ (f y).target := by
        rw [hf, hx]
        intro h
        exact hy (h ▸ List.mem_map_of_mem hmem)
      cases hp : p y
      · rw [List.filter_cons_of_neg (by simp [hp])]
        exact ih hys hmem
      · rw [List.filter_cons_of_pos hp, List.map_cons, onRow_cons, Update.on_other hne]
        exact ih hys hmem

/-- When all updates that address a row do the same idempotent thing to it,
only their presence matters, and neither their number nor their order. -/
theorem onRow_uniform {us : List (Update key)} {x : α} (f : α → α)
    (hf : ∀ u ∈ us, u.target = key x → ∀ y, key y = key x → u.on y = f y)
    (hkey : ∀ y, key (f y) = key y) (hid : ∀ y, f (f y) = f y) :
    (onRow us x = f x ∧ ∃ u ∈ us, u.target = key x) ∨
      (onRow us x = x ∧ ∀ u ∈ us, u.target ≠ key x) := by
  have hrun : ∀ (vs : List (Update key)) (y : α), (∀ u ∈ vs, u.target = key x →
      ∀ z, key z = key x → u.on z = f z) → key y = key x → onRow vs (f y) = f y := by
    intro vs
    induction vs with
    | nil => exact fun _ _ _ => rfl
    | cons u vs ih =>
      intro y hvs hy
      have hon : u.on (f y) = f y := by
        by_cases ht : u.target = key x
        · rw [hvs u (by simp) ht _ ((hkey y).trans hy), hid]
        · exact Update.on_other (fun h => ht (h.symm.trans ((hkey y).trans hy)))
      rw [onRow_cons, hon]
      exact ih y (fun v hv => hvs v (by simp [hv])) hy
  induction us with
  | nil => exact Or.inr ⟨rfl, by simp⟩
  | cons u us ih =>
    by_cases ht : u.target = key x
    · refine Or.inl ⟨?_, u, by simp, ht⟩
      rw [onRow_cons, hf u (by simp) ht x rfl]
      exact hrun us x (fun v hv => hf v (by simp [hv])) rfl
    · rw [onRow_cons, Update.on_other (fun h => ht h.symm)]
      rcases ih (fun v hv => hf v (by simp [hv])) with ⟨h, v, hv, hvt⟩ | ⟨h, hnone⟩
      · exact Or.inl ⟨h, v, by simp [hv], hvt⟩
      · exact Or.inr ⟨h, by simpa [ht] using hnone⟩

/-- One idempotent update for each key of a list. -/
theorem onRow_each (f : κ → Update key) (hf : ∀ k, (f k).target = k)
    (hid : ∀ k y, (f k).on ((f k).on y) = (f k).on y) (ks : List κ) (x : α) :
    onRow (ks.map f) x = if key x ∈ ks then (f (key x)).on x else x := by
  have huniform : ∀ u ∈ ks.map f, u.target = key x → ∀ y, key y = key x →
      u.on y = (f (key x)).on y := by
    intro u hu ht y _
    obtain ⟨k, -, rfl⟩ := List.mem_map.mp hu
    rw [hf] at ht
    rw [ht]
  rcases onRow_uniform _ huniform (fun y => (f (key x)).on_key y) (hid (key x)) with
    ⟨h, u, hu, ht⟩ | ⟨h, hnone⟩
  · obtain ⟨k, hk, rfl⟩ := List.mem_map.mp hu
    rw [hf] at ht
    rw [h, if_pos (ht ▸ hk)]
  · rw [h, if_neg (fun hk => hnone _ (List.mem_map_of_mem hk) (hf _))]

theorem run_of_not_touched {us : List (Update key)} {xs : List α} (h : touched us xs = false) :
    run us xs = xs := by
  induction us generalizing xs with
  | nil => rfl
  | cons u us ih =>
    obtain ⟨hu, hus⟩ := Bool.or_eq_false_iff.mp h
    have hxs : xs.map u.on = xs := by
      refine (List.map_congr_left (fun x hx => ?_)).trans (List.map_id xs)
      have := List.any_eq_false.mp hu x hx
      simp [Update.on, this]
    rw [run, List.foldl_cons]
    rw [hxs] at hus ⊢
    exact ih hus

theorem touched_of_mem {us : List (Update key)} {xs : List α} {u : Update key} (hu : u ∈ us)
    (hg : ∀ y, u.guard y = true) {x : α} (hx : x ∈ xs) (hk : key x = u.target) :
    touched us xs = true := by
  induction us generalizing xs x with
  | nil => simp at hu
  | cons v vs ih =>
    rw [touched, Bool.or_eq_true]
    rcases List.mem_cons.mp hu with rfl | hmem
    · exact Or.inl (List.any_eq_true.mpr ⟨x, hx, by simp [Update.hits, hk, hg]⟩)
    · exact Or.inr (ih hmem (List.mem_map_of_mem hx) ((v.on_key x).trans hk))

end Uru.Lib.Table
