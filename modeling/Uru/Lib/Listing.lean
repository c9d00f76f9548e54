import Mathlib.Data.List.Perm.Basic
import Mathlib.Data.List.Sort
import Mathlib.Order.Lattice
import Mathlib.Tactic

/-!
# Listings of rows

A listing keeps the rows within some bounds on their times, orders them by one
of the times and cuts out a part. Rows that the order does not tell apart may
come in any arrangement, so that a listing has several answers. Rows without a
time come first in ascending order, and satisfy a bound only where it lets them
in.

The times are compared through a key. Two keys that give each pair of the times
involved the same order have the same answers.
-/

set_option autoImplicit false

namespace Uru.Lib

section Page

variable {α : Type} (le : α → α → Prop)

/-- The rows in an order, ties in any arrangement. -/
def Arranged (xs l : List α) : Prop := l.Perm xs ∧ l.Pairwise le

/-- A page of the rows: an arrangement of them from an offset, up to a limit. -/
def Page (xs : List α) (limit offset : ℕ) (out : List α) : Prop :=
  ∃ l, Arranged le xs l ∧ out = (l.drop offset).take limit

variable {le}

theorem page_length {xs out : List α} {limit offset : ℕ} (h : Page le xs limit offset out) :
    out.length = min limit (xs.length-offset) := by
  obtain ⟨l, hl, rfl⟩ := h
  rw [List.length_take, List.length_drop, hl.1.length_eq]

theorem page_subset {xs out : List α} {limit offset : ℕ} (h : Page le xs limit offset out) :
    ∀ x ∈ out, x ∈ xs := by
  obtain ⟨l, hl, rfl⟩ := h
  intro x hx
  exact hl.1.mem_iff.mp (List.mem_of_mem_drop (List.mem_of_mem_take hx))

/-- The whole list, in an order. -/
theorem page_whole {xs out : List α} {limit : ℕ} (hlen : xs.length ≤ limit) :
    Page le xs limit 0 out ↔ Arranged le xs out := by
  constructor
  · rintro ⟨l, hl, rfl⟩
    rw [List.drop_zero, List.take_of_length_le (by rw [hl.1.length_eq]; exact hlen)]
    exact hl
  · intro h
    exact ⟨out, h, by rw [List.drop_zero, List.take_of_length_le (by rw [h.1.length_eq]; exact hlen)]⟩

/-- Two rows, in the order given. -/
theorem page_pair {x y : α} : Arranged le [x,y] [x,y] ↔ le x y := by
  simp [Arranged]

/-- Pages of the same rows agree on the keys they are ordered by. -/
theorem page_keys {κ : Type} [LinearOrder κ] (key : α → κ) {xs out out' : List α}
    {limit offset : ℕ} (h : Page (fun a b => key a ≤ key b) xs limit offset out)
    (h' : Page (fun a b => key a ≤ key b) xs limit offset out') : out.map key = out'.map key := by
  obtain ⟨l, hl, rfl⟩ := h
  obtain ⟨l', hl', rfl⟩ := h'
  have hkeys : l.map key = l'.map key := by
    apply List.Perm.eq_of_pairwise (fun a b _ _ hab hba => le_antisymm hab hba)
    · exact List.pairwise_map.mpr hl.2
    · exact List.pairwise_map.mpr hl'.2
    · exact (hl.1.trans hl'.1.symm).map key
  rw [List.map_take, List.map_drop, List.map_take, List.map_drop, hkeys]

/-- Naming the rows of a page, when each has a name. -/
theorem filterMap_take {β : Type} {g : α → Option β} {l : List α}
    (h : ∀ x ∈ l, (g x).isSome) (n : ℕ) : (l.take n).filterMap g = (l.filterMap g).take n := by
  induction l generalizing n with
  | nil => simp
  | cons x l ih =>
    obtain ⟨y, hy⟩ := Option.isSome_iff_exists.mp (h x List.mem_cons_self)
    cases n with
    | zero => rfl
    | succ n =>
      rw [List.take_succ_cons, List.filterMap_cons_some hy, List.filterMap_cons_some hy,
        List.take_succ_cons, ih (fun x hx => h x (List.mem_cons_of_mem _ hx))]

theorem arranged_congr {le' : α → α → Prop} {xs l : List α}
    (h : ∀ x ∈ xs, ∀ y ∈ xs, (le x y ↔ le' x y)) : Arranged le xs l ↔ Arranged le' xs l := by
  unfold Arranged
  refine and_congr_right (fun hp => ?_)
  have hmem : ∀ x ∈ l, x ∈ xs := fun x hx => hp.mem_iff.mp hx
  constructor
  · exact fun hl => hl.imp_of_mem (fun hx hy hxy => (h _ (hmem _ hx) _ (hmem _ hy)).mp hxy)
  · exact fun hl => hl.imp_of_mem (fun hx hy hxy => (h _ (hmem _ hx) _ (hmem _ hy)).mpr hxy)

theorem page_congr {le' : α → α → Prop} {xs : List α} {limit offset : ℕ} {out : List α}
    (h : ∀ x ∈ xs, ∀ y ∈ xs, (le x y ↔ le' x y)) :
    Page le xs limit offset out ↔ Page le' xs limit offset out :=
  exists_congr (fun _ => and_congr_left' (arranged_congr h))

end Page

section Window

variable {α : Type} {le : α → α → Prop}

theorem exists_arranged [IsTrans α le] [Std.Total le] (xs : List α) : ∃ l, Arranged le xs l := by
  classical
  exact ⟨xs.insertionSort le, List.perm_insertionSort _ xs, List.pairwise_insertionSort _ xs⟩

/-- In a sorted list, as many rows as come before some element come first. -/
theorem take_before [IsTrans α le] [DecidableRel le] {k : List α} (hk : k.Pairwise le) {b : α} {n : ℕ}
    (h : n ≤ k.countP (fun y => le y b)) : ∀ a ∈ k.take n, le a b := by
  intro a ha
  by_contra hab
  obtain ⟨k₁, k₂, he⟩ := List.append_of_mem ha
  have hk' : k = k₁++a::(k₂++k.drop n) := by
    rw [← List.cons_append, ← List.append_assoc, ← he, List.take_append_drop]
  have hlen : k₁.length < n := by
    have hle : (k₁++a::k₂).length ≤ n := by rw [← he]; exact List.length_take_le n k
    rw [List.length_append, List.length_cons] at hle
    omega
  rw [hk'] at hk h
  have hafter := (List.pairwise_cons.mp (List.pairwise_append.mp hk).2.1).1
  have hzero : (k₂++k.drop n).countP (fun y => le y b) = 0 := by
    rw [List.countP_eq_zero]
    exact fun y hy hyb => hab (IsTrans.trans a y b (hafter y hy) (of_decide_eq_true hyb))
  rw [List.countP_append, List.countP_cons, hzero] at h
  have hcount := List.countP_le_length (p := fun y => decide (le y b)) (l := k₁)
  simp only [hab, decide_false, Bool.false_eq_true, if_false] at h
  omega

/-- Two arrangements begin with the same rows, when the one puts each of the
first rows strictly before each of the others. -/
theorem mem_take_of_clear {xs l m : List α} (hx : xs.Nodup) (hl : Arranged le xs l)
    (hm : Arranged le xs m) {n : ℕ} (hclear : ∀ a ∈ l.take n, ∀ b ∈ l.drop n, ¬ le b a) :
    ∀ a ∈ l.take n, a ∈ m.take n := by
  intro a ha
  by_contra hnot
  have hlm : l.Perm m := hl.1.trans hm.1.symm
  have ham : a ∈ m.drop n := by
    have hmem := hlm.mem_iff.mp (List.mem_of_mem_take ha)
    rw [← List.take_append_drop n m, List.mem_append] at hmem
    exact hmem.resolve_left hnot
  have hsub : a::m.take n ⊆ l.take n := by
    intro b hb
    rcases List.mem_cons.mp hb with rfl | hb
    · exact ha
    · have hsorted := hm.2
      rw [← List.take_append_drop n m] at hsorted
      have hle := (List.pairwise_append.mp hsorted).2.2 b hb a ham
      have hbl := hlm.mem_iff.mpr (List.mem_of_mem_take hb)
      rw [← List.take_append_drop n l, List.mem_append] at hbl
      exact hbl.resolve_right (fun hdrop => hclear a ha b hdrop hle)
  have hnodup : (a::m.take n).Nodup :=
    List.nodup_cons.mpr ⟨hnot, (hm.1.nodup_iff.mpr hx).sublist (List.take_sublist n m)⟩
  have hlen := (hnodup.subperm hsub).length_le
  have hdrop := List.length_pos_of_mem ham
  rw [List.length_cons, List.length_take, List.length_take, hlm.length_eq] at hlen
  rw [List.length_drop] at hdrop
  omega

theorem arranged_of_take [IsTrans α le] [Std.Total le] {ys t : List α} (hy : ys.Nodup) (ht : t.Nodup)
    (hsub : ∀ a ∈ t, a ∈ ys) (hs : t.Pairwise le) (h : ∀ a ∈ t, ∀ b ∈ ys, b ∉ t → le a b) :
    ∃ m, Arranged le ys m ∧ m.take t.length = t := by
  classical
  obtain ⟨r, hr⟩ : ∃ r, Arranged le (ys.filter (fun b => b ∉ t)) r := exists_arranged _
  refine ⟨t++r, ⟨?_, ?_⟩, by simp⟩
  · refine (List.perm_ext_iff_of_nodup ?_ hy).mpr (fun a => ?_)
    · refine List.nodup_append.mpr ⟨ht, hr.1.nodup_iff.mpr (hy.filter _), ?_⟩
      rintro a ha b hb rfl
      simpa [ha] using List.mem_filter.mp (hr.1.mem_iff.mp hb)
    · rw [List.mem_append, hr.1.mem_iff, List.mem_filter]
      by_cases ha : a ∈ t
      · simp [ha, hsub a ha]
      · simp [ha]
  · refine List.pairwise_append.mpr ⟨hs, hr.2, fun a ha b hb => ?_⟩
    obtain ⟨hb, hbt⟩ := List.mem_filter.mp (hr.1.mem_iff.mp hb)
    exact h a ha b hb (of_decide_eq_true hbt)

/-- Of the rows that satisfy a filter some are kept, in order, and cut at a
limit. The result is a page of the rows that satisfy the filter exactly when
each of them that is not kept comes after as many kept ones as the limit
allows. -/
theorem kept_page_iff [IsTrans α le] [Std.Total le] [DecidableRel le] {xs k : List α}
    (hx : xs.Nodup) {sat : α → Bool} (hsorted : k.Pairwise le) (hnodup : k.Nodup)
    (hkept : ∀ x ∈ k, x ∈ xs ∧ sat x = true) (n : ℕ) :
    Page le (xs.filter sat) n 0 (k.take n) ↔
      ∀ x ∈ xs, sat x = true → x ∉ k → n ≤ k.countP (fun y => le y x) := by
  have hmem : ∀ x ∈ k, x ∈ xs.filter sat := fun x hxk => List.mem_filter.mpr (hkept x hxk)
  have hS : (xs.filter sat).Nodup := hx.filter _
  constructor
  · rintro ⟨m, hm, he⟩ x hxs hsat hxk
    rw [List.drop_zero] at he
    have hxm : x ∈ m := hm.1.mem_iff.mpr (List.mem_filter.mpr ⟨hxs, hsat⟩)
    rcases Nat.lt_or_ge k.length n with hlt | hge
    · rw [List.take_of_length_le hlt.le] at he
      have hlen : m.length ≤ n := by
        by_contra hgt
        rw [he, List.length_take, min_eq_left (not_le.mp hgt).le] at hlt
        exact lt_irrefl _ hlt
      rw [List.take_of_length_le hlen] at he
      exact absurd (he ▸ hxm) hxk
    · have hdrop : x ∈ m.drop n := by
        rw [← List.take_append_drop n m, List.mem_append] at hxm
        exact hxm.resolve_left (fun h => hxk (List.mem_of_mem_take (he ▸ h)))
      have hbefore : ∀ a ∈ k.take n, le a x := by
        rw [he]
        have hm' := hm.2
        rw [← List.take_append_drop n m] at hm'
        exact fun a ha => (List.pairwise_append.mp hm').2.2 a ha x hdrop
      have hcount : (k.take n).countP (fun y => le y x) = n := by
        rw [List.countP_eq_length.mpr (fun a ha => decide_eq_true (hbefore a ha)), List.length_take,
          min_eq_left hge]
      exact hcount ▸ List.Sublist.countP_le (List.take_sublist n k)
  · intro h
    by_cases hmiss : ∃ x ∈ xs, sat x = true ∧ x ∉ k
    · obtain ⟨x, hxs, hsat, hxk⟩ := hmiss
      have hn : n ≤ k.length := (h x hxs hsat hxk).trans List.countP_le_length
      obtain ⟨m, hm, ht⟩ := arranged_of_take hS (hnodup.sublist (List.take_sublist n k))
        (fun a ha => hmem a (List.mem_of_mem_take ha)) (hsorted.sublist (List.take_sublist n k))
        (by
          intro a ha b hb hbt
          by_cases hbk : b ∈ k
          · rw [← List.take_append_drop n k, List.mem_append] at hbk
            rw [← List.take_append_drop n k] at hsorted
            exact (List.pairwise_append.mp hsorted).2.2 a ha b (hbk.resolve_left hbt)
          · obtain ⟨hbx, hbs⟩ := List.mem_filter.mp hb
            exact take_before hsorted (h b hbx hbs hbk) a ha)
      refine ⟨m, hm, ?_⟩
      rw [List.length_take, min_eq_left hn] at ht
      rw [List.drop_zero, ht]
    · refine ⟨k, ⟨(List.perm_ext_iff_of_nodup hnodup hS).mpr (fun a => ⟨hmem a, fun ha => ?_⟩),
        hsorted⟩, by rw [List.drop_zero]⟩
      obtain ⟨hax, has⟩ := List.mem_filter.mp ha
      by_contra hak
      exact hmiss ⟨a, hax, has, hak⟩

end Window

inductive Rel
  | lt
  | le
  | gt
  | ge
deriving DecidableEq

def Rel.holds {κ : Type} [LinearOrder κ] : Rel → κ → κ → Bool
  | .lt, a, b => a < b
  | .le, a, b => a ≤ b
  | .gt, a, b => b < a
  | .ge, a, b => b ≤ a

structure Bound (ρ τ : Type) where
  axis : ρ → Option τ
  rel : Rel
  time : τ

/-- `WHERE`, `ORDER BY`, `LIMIT` and `OFFSET`. The other conditions on a row
decide which bounds it must meet, and exclude it with `none`. -/
structure Listing (ρ τ : Type) where
  bounds : ρ → Option (List (Bound ρ τ))
  order : ρ → Option τ
  descending : Bool
  limit : Option ℕ
  offset : ℕ

section Keys

variable {ρ τ κ μ : Type} [LinearOrder κ] [LinearOrder μ]

def Bound.holds (key : τ → κ) (b : Bound ρ τ) (r : ρ) : Bool :=
  match b.axis r with
  | none => false
  | some t => b.rel.holds (key t) (key b.time)

/-- The order of optional times, with the absent ones first. -/
def optionLe (key : τ → κ) : Option τ → Option τ → Prop
  | none, _ => True
  | some _, none => False
  | some s, some t => key s ≤ key t

instance optionLeDecidable (key : τ → κ) : DecidableRel (optionLe key)
  | none, _ => .isTrue trivial
  | some _, none => .isFalse id
  | some s, some t => inferInstanceAs (Decidable (key s ≤ key t))

theorem optionLe_trans (key : τ → κ) : ∀ {s t u : Option τ}, optionLe key s t → optionLe key t u →
    optionLe key s u
  | none, _, _, _, _ => trivial
  | some _, some _, some _, h, h' => le_trans (α := κ) h h'
  | some _, none, _, h, _ => h.elim
  | some _, some _, none, _, h => h.elim

theorem optionLe_total (key : τ → κ) : ∀ s t : Option τ, optionLe key s t ∨ optionLe key t s
  | none, _ => .inl trivial
  | some _, none => .inr trivial
  | some s, some t => le_total (key s) (key t)

namespace Listing

def keeps (key : τ → κ) (l : Listing ρ τ) (r : ρ) : Bool :=
  (l.bounds r).elim false (fun bs => bs.all (fun b => b.holds key r))

def precedes (key : τ → κ) (l : Listing ρ τ) (r s : ρ) : Prop :=
  if l.descending then optionLe key (l.order s) (l.order r) else optionLe key (l.order r) (l.order s)

def cut (l : Listing ρ τ) (n : ℕ) : ℕ := l.limit.getD n

def Answer (key : τ → κ) (l : Listing ρ τ) (rows out : List ρ) : Prop :=
  Page (l.precedes key) (rows.filter (l.keeps key)) (l.cut rows.length) l.offset out

theorem exists_answer (key : τ → κ) (l : Listing ρ τ) (rows : List ρ) :
    ∃ out, l.Answer key rows out := by
  have htrans : IsTrans ρ (l.precedes key) := by
    refine ⟨fun r s t h h' => ?_⟩
    unfold precedes at h h' ⊢
    split_ifs at h h' ⊢
    · exact optionLe_trans key h' h
    · exact optionLe_trans key h h'
  have htotal : Std.Total (l.precedes key) := by
    refine ⟨fun r s => ?_⟩
    unfold precedes
    split_ifs
    · exact optionLe_total key _ _
    · exact optionLe_total key _ _
  obtain ⟨m, hm⟩ : ∃ m, Arranged (l.precedes key) (rows.filter (l.keeps key)) m :=
    exists_arranged _
  exact ⟨_, m, hm, rfl⟩

def Times (l : Listing ρ τ) (T : Set τ) (rows : List ρ) : Prop :=
  ∀ r ∈ rows, (∀ t, l.order r = some t → t ∈ T) ∧
    ∀ bs, l.bounds r = some bs → ∀ b ∈ bs, b.time ∈ T ∧ ∀ t, b.axis r = some t → t ∈ T

end Listing

/-- `MAX` over an optional time: null where no row has one. -/
def IsMax (key : τ → κ) (axis : ρ → Option τ) (rows : List ρ) : Option τ → Prop
  | none => ∀ r ∈ rows, axis r = none
  | some t => (∃ r ∈ rows, axis r = some t) ∧ ∀ r ∈ rows, ∀ u, axis r = some u → key u ≤ key t

/-- Two keys give a pair of times the same order. -/
def SameOrder (f : τ → κ) (g : τ → μ) (s t : τ) : Prop :=
  (f s < f t ↔ g s < g t) ∧ (f t < f s ↔ g t < g s)

theorem SameOrder.symm {f : τ → κ} {g : τ → μ} {s t : τ} (h : SameOrder f g s t) :
    SameOrder f g t s := ⟨h.2, h.1⟩

theorem SameOrder.le {f : τ → κ} {g : τ → μ} {s t : τ} (h : SameOrder f g s t) :
    f s ≤ f t ↔ g s ≤ g t := by
  rw [← not_lt, ← not_lt, h.2]

theorem sameOrder_of_le {f : τ → κ} {g : τ → μ} {s t : τ} (h : f s ≤ f t ↔ g s ≤ g t)
    (h' : f t ≤ f s ↔ g t ≤ g s) : SameOrder f g s t := by
  constructor
  · rw [← not_le, ← not_le, h']
  · rw [← not_le, ← not_le, h]

variable {f : τ → κ} {g : τ → μ} {T : Set τ}

theorem rel_congr {s t : τ} (h : SameOrder f g s t) (r : Rel) :
    r.holds (f s) (f t) = r.holds (g s) (g t) := by
  cases r with
  | lt => exact decide_eq_decide.mpr h.1
  | le => exact decide_eq_decide.mpr h.le
  | gt => exact decide_eq_decide.mpr h.2
  | ge => exact decide_eq_decide.mpr h.symm.le

theorem optionLe_congr {s t : Option τ} (h : ∀ a, s = some a → ∀ b, t = some b → SameOrder f g a b) :
    optionLe f s t ↔ optionLe g s t := by
  rcases s with _ | a
  · rfl
  · rcases t with _ | b
    · rfl
    · exact (h a rfl b rfl).le

namespace Listing

theorem keeps_congr (hT : ∀ s ∈ T, ∀ t ∈ T, SameOrder f g s t) {l : Listing ρ τ} {rows : List ρ}
    (h : l.Times T rows) : ∀ r ∈ rows, l.keeps f r = l.keeps g r := by
  intro r hr
  unfold keeps
  rcases hb : l.bounds r with _ | bs
  · rfl
  · have hold : ∀ b ∈ bs, b.holds f r = b.holds g r := by
      intro b hbm
      obtain ⟨ht, haxis⟩ := (h r hr).2 bs hb b hbm
      unfold Bound.holds
      rcases ha : b.axis r with _ | t
      · rfl
      · exact rel_congr (hT t (haxis t ha) _ ht) b.rel
    rw [Option.elim, Option.elim, Bool.eq_iff_iff, List.all_eq_true, List.all_eq_true]
    exact forall₂_congr (fun b hbm => by rw [hold b hbm])

/-- Keys that order the times alike give the listing the same answers. -/
theorem answer_congr (hT : ∀ s ∈ T, ∀ t ∈ T, SameOrder f g s t) {l : Listing ρ τ} {rows : List ρ}
    (h : l.Times T rows) (out : List ρ) : l.Answer f rows out ↔ l.Answer g rows out := by
  unfold Answer
  rw [List.filter_congr (keeps_congr hT h)]
  refine page_congr (fun r hr s hs => ?_)
  have hrs : ∀ r ∈ rows.filter (l.keeps g), ∀ t, l.order r = some t → t ∈ T :=
    fun r hr => (h r (List.mem_of_mem_filter hr)).1
  unfold precedes
  split
  · exact optionLe_congr (fun a ha b hb => hT a (hrs s hs a ha) b (hrs r hr b hb))
  · exact optionLe_congr (fun a ha b hb => hT a (hrs r hr a ha) b (hrs s hs b hb))

end Listing

theorem isMax_congr (hT : ∀ s ∈ T, ∀ t ∈ T, SameOrder f g s t) {axis : ρ → Option τ} {rows : List ρ}
    (h : ∀ r ∈ rows, ∀ t, axis r = some t → t ∈ T) (m : Option τ) :
    IsMax f axis rows m ↔ IsMax g axis rows m := by
  cases m with
  | none => rfl
  | some t =>
    refine and_congr_right (fun ⟨r, hr, ht⟩ => ?_)
    refine forall₂_congr (fun s hs => forall₂_congr (fun u hu => ?_))
    exact (hT u (h s hs u hu) t (h r hr t ht)).le

end Keys

end Uru.Lib
