import Mathlib.Data.List.Nodup
import Mathlib.Data.List.Sort
import Mathlib.Tactic
import Uru.Lib.Record
import Uru.Lib.SortOn

/-!
# Rankings

The order of two elements in a list without repetitions, and what a stable
sort on a key does to it: the keys decide, and the list before the sort where
they are equal. A record that is written key after key lists its keys in the
order in which they first appear.
-/

set_option autoImplicit false

namespace Uru.Lib

section Earlier

variable {α : Type*}

def Earlier (l : List α) (x y : α) : Prop := List.Sublist [x,y] l

theorem Earlier.mem {l : List α} {x y : α} (h : Earlier l x y) : x ∈ l ∧ y ∈ l :=
  ⟨h.subset (by simp), h.subset (by simp)⟩

theorem earlier_total {l : List α} {x y : α} (hx : x ∈ l) (hy : y ∈ l) (hne : x ≠ y) :
    Earlier l x y ∨ Earlier l y x := by
  induction l with
  | nil => cases hx
  | cons z l ih =>
    rcases List.mem_cons.mp hx with rfl | hx'
    · have hy' := (List.mem_cons.mp hy).resolve_left (Ne.symm hne)
      exact Or.inl ((List.singleton_sublist.mpr hy').cons_cons x)
    · rcases List.mem_cons.mp hy with rfl | hy'
      · exact Or.inr ((List.singleton_sublist.mpr hx').cons_cons y)
      · exact (ih hx' hy').imp (fun h => h.cons z) (fun h => h.cons z)

theorem earlier_asymm {l : List α} (hl : l.Nodup) {x y : α} (h : Earlier l x y) :
    ¬ Earlier l y x := by
  induction l with
  | nil => cases h
  | cons z l ih =>
    obtain ⟨hz, hl⟩ := List.nodup_cons.mp hl
    intro h'
    cases h with
    | cons _ h =>
      cases h' with
      | cons _ h' => exact ih hl h h'
      | cons_cons _ h' => exact hz (h.subset (by simp))
    | cons_cons _ h =>
      cases h' with
      | cons _ h' => exact hz (h'.subset (by simp))
      | cons_cons _ h' => exact hz (List.singleton_sublist.mp h)

theorem earlier_ne {l : List α} (hl : l.Nodup) {x y : α} (h : Earlier l x y) : x ≠ y := by
  rintro rfl
  exact earlier_asymm hl h h

theorem earlier_reverse {l : List α} {x y : α} : Earlier l.reverse x y ↔ Earlier l y x := by
  unfold Earlier
  rw [← List.reverse_sublist]
  simp

theorem earlier_map {β : Type*} (f : α → β) {l : List α} {x y : α} (h : Earlier l x y) :
    Earlier (l.map f) (f x) (f y) :=
  List.Sublist.map f h

theorem earlier_idxOf [DecidableEq α] {l : List α} (hl : l.Nodup) {x y : α} (h : Earlier l x y) :
    l.idxOf x < l.idxOf y := by
  induction l with
  | nil => cases h
  | cons z l ih =>
    obtain ⟨hz, hl⟩ := List.nodup_cons.mp hl
    cases h with
    | cons _ h =>
      have hx : z ≠ x := fun he => hz (he ▸ (Earlier.mem h).1)
      have hy : z ≠ y := fun he => hz (he ▸ (Earlier.mem h).2)
      rw [List.idxOf_cons_ne l hx, List.idxOf_cons_ne l hy]
      exact Nat.succ_lt_succ (ih hl h)
    | cons_cons _ h =>
      have hy : x ≠ y := fun he => hz (he ▸ List.singleton_sublist.mp h)
      rw [List.idxOf_cons_self, List.idxOf_cons_ne l hy]
      exact Nat.succ_pos _

/-- Images of elements in order come from elements in order. -/
theorem earlier_of_map {β : Type*} {f : α → β} {l : List α} (hl : (l.map f).Nodup) {x y : α}
    (hx : x ∈ l) (hy : y ∈ l) (h : Earlier (l.map f) (f x) (f y)) : Earlier l x y := by
  have hne : x ≠ y := fun he => earlier_ne hl h (congrArg f he)
  rcases earlier_total hx hy hne with hxy | hyx
  · exact hxy
  · exact absurd (earlier_map f hyx) (earlier_asymm hl h)

end Earlier

section Sorted

variable {α κ : Type} [LinearOrder κ]

/-- In a sorted list the keys decide, then the order before. -/
theorem sortOn_earlier (key : α → κ) {l : List α} (hl : l.Nodup) {x y : α} (hx : x ∈ l)
    (hy : y ∈ l) (hne : x ≠ y) :
    Earlier (sortOn key l) x y ↔ key x < key y ∨ key x = key y ∧ Earlier l x y := by
  have hsorted : (sortOn key l).Nodup := (sortOn_perm key l).nodup_iff.mpr hl
  have hle : ∀ {a b : α}, Earlier (sortOn key l) a b → key a ≤ key b := fun h =>
    List.pairwise_iff_forall_sublist.mp (sortOn_pairwise key l) h
  have hkeep : ∀ {a b : α}, key a ≤ key b → Earlier l a b → Earlier (sortOn key l) a b :=
    fun hab h => List.pair_sublist_insertionSort hab h
  have htotal := earlier_total (mem_sortOn.mpr hx : x ∈ sortOn key l) (mem_sortOn.mpr hy) hne
  constructor
  · intro h
    rcases (hle h).lt_or_eq with hlt | heq
    · exact Or.inl hlt
    · refine Or.inr ⟨heq, ?_⟩
      rcases earlier_total hx hy hne with hxy | hyx
      · exact hxy
      · exact absurd (hkeep heq.ge hyx) (earlier_asymm hsorted h)
  · rintro (hlt | ⟨heq, h⟩)
    · exact htotal.resolve_right (fun h => absurd (hle h) (not_le.mpr hlt))
    · exact hkeep heq.le h

/-- The keys of rows that are sorted by falling scores. -/
theorem sortOn_keys_earlier {ι : Type} (score : α → κ) (key : α → ι) {l : List α}
    (hl : (l.map key).Nodup) {a b : α} (ha : a ∈ l) (hb : b ∈ l) (hne : key a ≠ key b) :
    Earlier ((sortOn (fun r => OrderDual.toDual (score r)) l).map key) (key a) (key b) ↔
      score b < score a ∨ score b = score a ∧ Earlier (l.map key) (key a) (key b) := by
  have hab : a ≠ b := fun he => hne (congrArg key he)
  have hperm := sortOn_perm (fun r => OrderDual.toDual (score r)) l
  have hsort := sortOn_earlier (fun r => OrderDual.toDual (score r)) hl.of_map ha hb hab
  have hdown : Earlier (l.map key) (key a) (key b) ↔ Earlier l a b :=
    ⟨earlier_of_map hl ha hb, earlier_map key⟩
  have hup : Earlier ((sortOn (fun r => OrderDual.toDual (score r)) l).map key) (key a) (key b) ↔
      Earlier (sortOn (fun r => OrderDual.toDual (score r)) l) a b :=
    ⟨earlier_of_map ((hperm.map key).nodup_iff.mpr hl) (hperm.mem_iff.mpr ha)
      (hperm.mem_iff.mpr hb), earlier_map key⟩
  rw [hup, hsort, hdown, OrderDual.toDual_lt_toDual, OrderDual.toDual_inj, eq_comm]

end Sorted

section Firsts

variable {κ β γ : Type*} [DecidableEq κ]

/-- The distinct elements of a list, in the order of their first appearance. -/
def firsts (xs : List κ) : List κ :=
  xs.foldl (fun seen x => if x ∈ seen then seen else seen++[x]) []

theorem keys_set (r : Record κ β) (k : κ) (v : β) :
    (r.set k v).keys = if k ∈ r.keys then r.keys else r.keys++[k] :=
  keys_assign r.entries k v

/-- Whatever is written, the keys of a record come in the order in which they
are first written. -/
theorem keys_foldl (key : γ → κ) (value : Record κ β → γ → β) (es : List γ) (r : Record κ β) :
    (es.foldl (fun r e => r.set (key e) (value r e)) r).keys =
      (es.map key).foldl (fun seen x => if x ∈ seen then seen else seen++[x]) r.keys := by
  induction es generalizing r with
  | nil => rfl
  | cons e es ih => rw [List.foldl_cons, ih, keys_set, List.map_cons, List.foldl_cons]

theorem mem_firsts_from (xs seen : List κ) (x : κ) :
    x ∈ xs.foldl (fun seen x => if x ∈ seen then seen else seen++[x]) seen ↔
      x ∈ seen ∨ x ∈ xs := by
  induction xs generalizing seen with
  | nil => simp
  | cons y xs ih =>
    rw [List.foldl_cons, ih]
    by_cases hy : y ∈ seen
    · rw [if_pos hy, List.mem_cons]
      exact ⟨Or.imp_right Or.inr, fun h => h.elim Or.inl
        (fun h => h.elim (fun he => Or.inl (he ▸ hy)) Or.inr)⟩
    · simp [hy, or_assoc]

theorem mem_firsts {xs : List κ} {x : κ} : x ∈ firsts xs ↔ x ∈ xs := by
  rw [firsts, mem_firsts_from]
  simp

theorem firsts_nodup (xs : List κ) : (firsts xs).Nodup := by
  have h := keys_foldl (fun x : κ => x) (fun _ _ => ()) xs (∅ : Record κ Unit)
  rw [List.map_id'] at h
  rw [firsts]
  exact h ▸ Record.nodup _

end Firsts

end Uru.Lib
