import Mathlib.Data.List.Basic
import Mathlib.Data.List.Perm.Basic
import Mathlib.Tactic

/-!
# A pool of workers and its queue

Items wait in pages that are handed over as a whole, then in a queue, and are
taken from its head by workers. What is in the pool is counted: an item is
somewhere in it from the moment it enters until its worker lets it go, and a
count of one says that it is nowhere else.
-/

set_option autoImplicit false

namespace Uru.Lib

structure Pool (ι ω : Type*) where
  pages : List (List ι)
  queue : List ι
  workers : List ω

namespace Pool

variable {ι ω : Type*} (holds : ω → Option ι) (p : ι → Bool)

def tally (P : Pool ι ω) : ℕ :=
  P.pages.flatten.countP p+P.queue.countP p+P.workers.countP (fun w => (holds w).any p)

def put (items : List ι) (P : Pool ι ω) : Pool ι ω := { P with queue := P.queue++items }

def page (items : List ι) (P : Pool ι ω) : Pool ι ω := { P with pages := P.pages++[items] }

def release (i : ℕ) (P : Pool ι ω) : Option (Pool ι ω) :=
  P.pages[i]?.map (fun items =>
    { P with
      pages := P.pages.eraseIdx i
      queue := P.queue++items })

def set (i : ℕ) (w : ω) (P : Pool ι ω) : Pool ι ω := { P with workers := P.workers.set i w }

def take (i : ℕ) (f : ι → ω) (P : Pool ι ω) : Option (Pool ι ω) :=
  match P.queue with
  | [] => none
  | x::xs =>
    some
      { P with
        queue := xs
        workers := P.workers.set i (f x) }

variable {holds p} {P Q : Pool ι ω} {i : ℕ} {w v : ω} {x : ι}

theorem tally_mono {q : ι → Bool} (hpq : ∀ x, p x = true → q x = true) :
    P.tally holds p ≤ P.tally holds q := by
  have hworkers : P.workers.countP (fun w => (holds w).any p) ≤
      P.workers.countP (fun w => (holds w).any q) := by
    refine List.countP_mono_left (fun w _ hw => ?_)
    cases hx : holds w with
    | none =>
      rw [hx] at hw
      cases hw
    | some x =>
      rw [hx] at hw
      exact hpq x hw
  have hpages := List.countP_mono_left (l := P.pages.flatten) (fun x _ => hpq x)
  have hqueue := List.countP_mono_left (l := P.queue) (fun x _ => hpq x)
  simp only [tally]
  omega

def Has (holds : ω → Option ι) (P : Pool ι ω) (x : ι) : Prop :=
  x ∈ P.pages.flatten ∨ x ∈ P.queue ∨ ∃ w ∈ P.workers, holds w = some x

theorem tally_pos_iff : 0 < P.tally holds p ↔ ∃ x, P.Has holds x ∧ p x = true := by
  simp only [tally, Nat.add_pos_iff_pos_or_pos, List.countP_pos_iff]
  constructor
  · rintro ((⟨x, hx, hp⟩ | ⟨x, hx, hp⟩) | ⟨w, hw, hp⟩)
    · exact ⟨x, Or.inl hx, hp⟩
    · exact ⟨x, Or.inr (Or.inl hx), hp⟩
    · cases hx : holds w with
      | none =>
        rw [hx] at hp
        cases hp
      | some x =>
        rw [hx] at hp
        exact ⟨x, Or.inr (Or.inr ⟨w, hw, hx⟩), hp⟩
  · rintro ⟨x, hx | hx | ⟨w, hw, hx⟩, hp⟩
    · exact Or.inl (Or.inl ⟨x, hx, hp⟩)
    · exact Or.inl (Or.inr ⟨x, hx, hp⟩)
    · refine Or.inr ⟨w, hw, ?_⟩
      rw [hx]
      exact hp

theorem tally_put (items : List ι) :
    (P.put items).tally holds p = P.tally holds p+items.countP p := by
  simp only [tally, put, List.countP_append]
  omega

theorem tally_page (items : List ι) :
    (P.page items).tally holds p = P.tally holds p+items.countP p := by
  simp only [tally, page, List.flatten_append, List.flatten_singleton, List.countP_append]
  omega

theorem countP_flatten_eraseIdx {pages : List (List ι)} {items : List ι}
    (h : pages[i]? = some items) :
    (pages.eraseIdx i).flatten.countP p+items.countP p = pages.flatten.countP p := by
  induction pages generalizing i with
  | nil => cases h
  | cons page pages ih =>
    cases i with
    | zero =>
      obtain rfl := Option.some.inj h
      simp only [List.eraseIdx_cons_zero, List.flatten_cons, List.countP_append]
      omega
    | succ i =>
      have := ih (i := i) h
      simp only [List.eraseIdx_cons_succ, List.flatten_cons, List.countP_append]
      omega

variable (holds) in
theorem tally_release (h : P.release i = some Q) : Q.tally holds p = P.tally holds p := by
  obtain ⟨items, hi, rfl⟩ := Option.map_eq_some_iff.mp h
  have := countP_flatten_eraseIdx (p := p) hi
  simp only [tally, List.countP_append]
  omega

variable (holds) in
/-- A worker's count is exchanged for that of its next state. -/
theorem tally_set (h : P.workers[i]? = some w) :
    (P.set i v).tally holds p+(if (holds w).any p then 1 else 0) =
      P.tally holds p+(if (holds v).any p then 1 else 0) := by
  obtain ⟨hi, rfl⟩ := List.getElem?_eq_some_iff.mp h
  have hpos : (if (holds P.workers[i]).any p then 1 else 0) ≤
      P.workers.countP (fun w => (holds w).any p) := by
    split
    · rename_i hw
      exact List.countP_pos_iff.mpr ⟨_, List.getElem_mem hi, hw⟩
    · exact Nat.zero_le _
  simp only [tally, set, List.countP_set hi] at hpos ⊢
  omega

theorem tally_keep (h : P.workers[i]? = some w) (hv : holds v = holds w) :
    (P.set i v).tally holds p = P.tally holds p := by
  have := tally_set holds (p := p) (v := v) h
  rw [hv] at this
  exact Nat.add_right_cancel this

theorem tally_let_go (h : P.workers[i]? = some w) (hw : holds w = some x) (hv : holds v = none) :
    (P.set i v).tally holds p+(if p x then 1 else 0) = P.tally holds p := by
  have := tally_set holds (p := p) (v := v) h
  rwa [hw, hv] at this

variable (holds) in
theorem tally_take {f : ι → ω} (hf : ∀ x, holds (f x) = some x) (h : P.workers[i]? = some w)
    (hw : holds w = none) (ht : P.take i f = some Q) : Q.tally holds p = P.tally holds p := by
  rw [take] at ht
  split at ht
  · cases ht
  · rename_i x xs hq
    obtain rfl := Option.some.inj ht
    have hset := tally_set holds (p := p) (v := f x) h
    simp only [hw, hf, Option.any_none, Option.any_some, Bool.false_eq_true, if_false] at hset
    simp only [tally, set, hq, List.countP_cons] at hset ⊢
    omega

section Alone

variable (holds) in
theorem tally_pos_of_worker (h : P.workers[i]? = some w) (hw : (holds w).any p = true) :
    0 < P.tally holds p := by
  have : 0 < P.workers.countP (fun w => (holds w).any p) :=
    List.countP_pos_iff.mpr ⟨w, List.mem_of_getElem? h, hw⟩
  rw [tally]
  omega

variable (holds) in
/-- An item that a worker holds is counted there. -/
theorem alone_of_worker (hone : P.tally holds p ≤ 1) (h : P.workers[i]? = some w)
    (hw : (holds w).any p = true) :
    (∀ y ∈ P.pages.flatten, p y = false) ∧ (∀ y ∈ P.queue, p y = false) ∧
      ∀ (j : ℕ) (v : ω), P.workers[j]? = some v → (holds v).any p = true → j = i := by
  have hpos : 0 < P.workers.countP (fun w => (holds w).any p) :=
    List.countP_pos_iff.mpr ⟨w, List.mem_of_getElem? h, hw⟩
  rw [tally] at hone
  refine ⟨fun y hy => ?_, fun y hy => ?_, fun j v hj hv => ?_⟩
  · refine Bool.eq_false_of_not_eq_true (fun hp => ?_)
    have : 0 < P.pages.flatten.countP p := List.countP_pos_iff.mpr ⟨y, hy, hp⟩
    omega
  · refine Bool.eq_false_of_not_eq_true (fun hp => ?_)
    have : 0 < P.queue.countP p := List.countP_pos_iff.mpr ⟨y, hy, hp⟩
    omega
  · by_contra hne
    obtain ⟨hi, rfl⟩ := List.getElem?_eq_some_iff.mp h
    have hother : v ∈ P.workers.eraseIdx i := List.mem_eraseIdx_iff_getElem?.mpr ⟨j, hne, hj⟩
    have htwo := (List.getElem_cons_eraseIdx_perm hi).countP_eq (fun w => (holds w).any p)
    rw [List.countP_cons_of_pos (p := fun w => (holds w).any p) hw] at htwo
    have : 0 < (P.workers.eraseIdx i).countP (fun w => (holds w).any p) :=
      List.countP_pos_iff.mpr ⟨v, hother, hv⟩
    omega

end Alone

end Pool

end Uru.Lib
