import Mathlib.Logic.Function.Basic
import Mathlib.Logic.Relation
import Mathlib.Order.Lattice.Nat
import Mathlib.Order.Nat

/-!
# Disjoint sets

A forest of parent pointers with path compression and union by size. Two
elements are joined when they have one root: a find changes no root, a union
joins the two classes of its arguments, and joining a list of pairs leaves the
classes of the equivalence that the pairs generate. The same holds of a find
that halves its path and of a union that hangs one tree below the other without
looking at sizes.
-/

set_option autoImplicit false

namespace Uru.Lib

/-- Parent pointers that end at a root, and the size kept at each root. -/
structure Forest (α : Type) where
  parent : α → α
  size : α → ℕ
  acyclic : ∃ depth : α → ℕ, ∀ x, parent x ≠ x → depth (parent x) < depth x

theorem of_rel {α : Type} {r s : α → α → Prop} (h : ∀ a b, r a b → Relation.EqvGen s a b)
    {x y : α} (hxy : Relation.EqvGen r x y) : Relation.EqvGen s x y := by
  induction hxy with
  | rel a b hab => exact h a b hab
  | refl a => exact .refl a
  | symm a b _ ih => exact ih.symm
  | trans a b c _ _ hab hbc => exact hab.trans _ _ _ hbc

namespace Forest

variable {α : Type} [DecidableEq α]

def singletons (α : Type) : Forest α where
  parent := id
  size := fun _ => 1
  acyclic := ⟨fun _ => 0, fun _ h => (h rfl).elim⟩

section Root

variable (f : Forest α)

def root (x : α) : α := if f.parent x = x then x else root (f.parent x)
termination_by f.acyclic.choose x
decreasing_by exact f.acyclic.choose_spec x ‹_›

/-- The elements below the root on the way up from `x`. -/
def path (x : α) : List α := if f.parent x = x then [] else x::path (f.parent x)
termination_by f.acyclic.choose x
decreasing_by exact f.acyclic.choose_spec x ‹_›

theorem root_of_root {x : α} (h : f.parent x = x) : f.root x = x := by
  rw [root, if_pos h]

theorem root_of_parent (x : α) : f.root (f.parent x) = f.root x := by
  by_cases h : f.parent x = x
  · rw [h]
  · rw [root.eq_def f x, if_neg h]

/-- Induction from the roots down. -/
theorem climb {P : α → Prop} (hroot : ∀ x, f.parent x = x → P x)
    (hup : ∀ x, f.parent x ≠ x → P (f.parent x) → P x) (x : α) : P x := by
  obtain ⟨depth, hd⟩ := f.acyclic
  induction hn : depth x using Nat.strongRecOn generalizing x with
  | ind n ih =>
    by_cases h : f.parent x = x
    · exact hroot x h
    · exact hup x h (ih _ (hn ▸ hd x h) _ rfl)

theorem parent_root (x : α) : f.parent (f.root x) = f.root x := by
  induction x using f.climb with
  | hroot x h => rw [f.root_of_root h, h]
  | hup x h ih => rwa [f.root_of_parent] at ih

theorem root_root (x : α) : f.root (f.root x) = f.root x := f.root_of_root (f.parent_root x)

theorem path_spec {x y : α} (h : y ∈ f.path x) : f.parent y ≠ y ∧ f.root y = f.root x := by
  induction x using f.climb with
  | hroot x hx =>
    rw [path, if_pos hx] at h
    cases h
  | hup x hx ih =>
    rw [path, if_neg hx] at h
    rcases List.mem_cons.mp h with rfl | hy
    · exact ⟨hx, rfl⟩
    · obtain ⟨hp, hr⟩ := ih hy
      exact ⟨hp, hr.trans (f.root_of_parent x)⟩

/-- The root of an element lies less deep than the element. -/
theorem depth_root {depth : α → ℕ} (hd : ∀ x, f.parent x ≠ x → depth (f.parent x) < depth x)
    (x : α) : depth (f.root x) ≤ depth x := by
  induction x using f.climb with
  | hroot x h => exact le_of_eq (congrArg depth (f.root_of_root h))
  | hup x h ih =>
    rw [f.root_of_parent] at ih
    exact ih.trans (hd x h).le

theorem depth_root_lt {depth : α → ℕ} (hd : ∀ x, f.parent x ≠ x → depth (f.parent x) < depth x)
    {x : α} (h : f.parent x ≠ x) : depth (f.root x) < depth x := by
  have hle : depth (f.root (f.parent x)) ≤ depth (f.parent x) := f.depth_root hd _
  rw [f.root_of_parent] at hle
  exact hle.trans_lt (hd x h)

/-- A second forest has the roots that `r` gives if `r` fixes them and is
unchanged along its pointers. -/
theorem root_eq (r : α → α) (hfix : ∀ x, f.parent x = x → r x = x)
    (hup : ∀ x, r (f.parent x) = r x) (x : α) : f.root x = r x := by
  induction x using f.climb with
  | hroot x h => rw [f.root_of_root h, hfix x h]
  | hup x h ih => rw [← f.root_of_parent, ih, hup]

end Root

section Find

def compressed (f : Forest α) (x y : α) : α := if y ∈ f.path x then f.root x else f.parent y

theorem compressed_depth (f : Forest α) (x : α) {depth : α → ℕ}
    (hd : ∀ y, f.parent y ≠ y → depth (f.parent y) < depth y) (y : α)
    (h : compressed f x y ≠ y) : depth (compressed f x y) < depth y := by
  unfold compressed at h ⊢
  split_ifs at h ⊢ with hy
  · obtain ⟨hp, hr⟩ := f.path_spec hy
    rw [← hr]
    exact f.depth_root_lt hd hp
  · exact hd y h

/-- Point every element on the way up at the root. -/
def compress (f : Forest α) (x : α) : Forest α where
  parent := compressed f x
  size := f.size
  acyclic := f.acyclic.imp (fun _ hd => compressed_depth f x hd)

def find (f : Forest α) (x : α) : α × Forest α := (f.root x, compress f x)

theorem compress_root (f : Forest α) (x y : α) : (compress f x).root y = f.root y := by
  apply root_eq
  · intro z hz
    change compressed f x z = z at hz
    unfold compressed at hz
    split_ifs at hz with hp
    · rw [← (f.path_spec hp).2] at hz
      exact hz
    · exact f.root_of_root hz
  · intro z
    change f.root (compressed f x z) = f.root z
    unfold compressed
    split_ifs with hp
    · rw [f.root_root, (f.path_spec hp).2]
    · exact f.root_of_parent z

end Find

section Union

/-- Hang the tree of `rb` below `ra`. -/
def link (f : Forest α) (ra rb : α) (ha : f.root ra ≠ rb) (hb : f.root rb = rb) : Forest α where
  parent := Function.update f.parent rb ra
  size := Function.update f.size ra (f.size ra+f.size rb)
  acyclic := by
    obtain ⟨depth, hd⟩ := f.acyclic
    refine ⟨fun y => if f.root y = rb then depth y+depth ra+1 else depth y, fun y hy => ?_⟩
    by_cases h : y = rb
    · subst h
      simp only [Function.update_self, if_neg ha, if_pos hb]
      omega
    · simp only [Function.update_of_ne h, f.root_of_parent] at hy ⊢
      have hlt : depth (f.parent y) < depth y := hd y hy
      split_ifs <;> omega

theorem link_root (f : Forest α) {ra rb : α} (ha : f.root ra ≠ rb) (hb : f.root rb = rb) (y : α) :
    (link f ra rb ha hb).root y = if f.root y = rb then f.root ra else f.root y := by
  apply root_eq (link f ra rb ha hb) (fun y => if f.root y = rb then f.root ra else f.root y)
  · intro z hz
    change Function.update f.parent rb ra z = z at hz
    by_cases h : z = rb
    · subst h
      rw [Function.update_self] at hz
      exact absurd (hz ▸ hb) ha
    · rw [Function.update_of_ne h] at hz
      rw [f.root_of_root hz, if_neg h]
  · intro z
    change (if f.root (Function.update f.parent rb ra z) = rb then f.root ra
      else f.root (Function.update f.parent rb ra z)) = _
    by_cases h : z = rb
    · subst h
      rw [Function.update_self, if_neg ha, if_pos hb]
    · rw [Function.update_of_ne h, f.root_of_parent]

theorem found_roots (f : Forest α) (a b : α) :
    (((f.find a).2.find b).2.root (f.find a).1 = (f.find a).1) ∧
      ((f.find a).2.find b).2.root ((f.find a).2.find b).1 = ((f.find a).2.find b).1 := by
  simp only [find, compress_root, root_root, and_self]

/-- Join two classes, the smaller tree below the larger. -/
def union (f : Forest α) (a b : α) : Forest α :=
  let ra := (f.find a).1
  let rb := ((f.find a).2.find b).1
  let f' := ((f.find a).2.find b).2
  have hroots : f'.root ra = ra ∧ f'.root rb = rb := found_roots f a b
  if h : ra = rb then f'
  else if f'.size ra < f'.size rb then
    f'.link rb ra (by rw [hroots.2]; exact Ne.symm h) hroots.1
  else f'.link ra rb (by rw [hroots.1]; exact h) hroots.2

/-- Two elements have one root after a union if they had one before or if the
union joins their classes. -/
theorem union_same (f : Forest α) (a b x y : α) :
    (f.union a b).root x = (f.union a b).root y ↔ f.root x = f.root y ∨
      (f.root x = f.root a ∧ f.root y = f.root b) ∨
      (f.root x = f.root b ∧ f.root y = f.root a) := by
  have hra : (f.find a).1 = f.root a := rfl
  have hrb : ((f.find a).2.find b).1 = f.root b := compress_root f a b
  have hroot : ∀ z, ((f.find a).2.find b).2.root z = f.root z := fun z =>
    (compress_root _ b z).trans (compress_root f a z)
  unfold union
  simp only
  split_ifs with h hsize
  · rw [hroot, hroot]
    rw [hra, hrb] at h
    grind
  · simp only [link_root, hroot, hra, hrb, root_root] at h ⊢
    grind
  · simp only [link_root, hroot, hra, hrb, root_root] at h ⊢
    grind

end Union

section Attach

/-- Join two classes, the tree of the first below the root of the second. -/
def attach (f : Forest α) (a b : α) : Forest α :=
  let ra := (f.find a).1
  let rb := ((f.find a).2.find b).1
  let f' := ((f.find a).2.find b).2
  have hroots : f'.root ra = ra ∧ f'.root rb = rb := found_roots f a b
  if h : ra = rb then f' else f'.link rb ra (by rw [hroots.2]; exact Ne.symm h) hroots.1

theorem attach_same (f : Forest α) (a b x y : α) :
    (f.attach a b).root x = (f.attach a b).root y ↔ f.root x = f.root y ∨
      (f.root x = f.root a ∧ f.root y = f.root b) ∨
      (f.root x = f.root b ∧ f.root y = f.root a) := by
  have hra : (f.find a).1 = f.root a := rfl
  have hrb : ((f.find a).2.find b).1 = f.root b := compress_root f a b
  have hroot : ∀ z, ((f.find a).2.find b).2.root z = f.root z := fun z =>
    (compress_root _ b z).trans (compress_root f a z)
  unfold attach
  simp only
  split_ifs with h
  · rw [hroot, hroot]
    rw [hra, hrb] at h
    grind
  · simp only [link_root, hroot, hra, hrb, root_root] at h ⊢
    grind

end Attach

section Halving

theorem halve_depth (f : Forest α) (x : α) {depth : α → ℕ}
    (hd : ∀ y, f.parent y ≠ y → depth (f.parent y) < depth y) (y : α)
    (hy : Function.update f.parent x (f.parent (f.parent x)) y ≠ y) :
    depth (Function.update f.parent x (f.parent (f.parent x)) y) < depth y := by
  by_cases h : y = x
  · subst h
    rw [Function.update_self] at hy ⊢
    by_cases hp : f.parent y = y
    · exact absurd (by rw [hp, hp]) hy
    · by_cases hpp : f.parent (f.parent y) = f.parent y
      · rw [hpp]
        exact hd y hp
      · exact (hd _ hpp).trans (hd y hp)
  · rw [Function.update_of_ne h] at hy ⊢
    exact hd y hy

/-- Point an element at the parent of its parent. -/
def halve (f : Forest α) (x : α) : Forest α where
  parent := Function.update f.parent x (f.parent (f.parent x))
  size := f.size
  acyclic := f.acyclic.imp (fun _ hd => halve_depth f x hd)

theorem parent_of_grandparent (f : Forest α) {x : α} (h : f.parent (f.parent x) = x) :
    f.parent x = x := by
  obtain ⟨depth, hd⟩ := f.acyclic
  by_contra hp
  have hup := hd x hp
  have hback := hd (f.parent x) (by rw [h]; exact Ne.symm hp)
  rw [h] at hback
  omega

theorem halve_root (f : Forest α) (x y : α) : (halve f x).root y = f.root y := by
  apply root_eq
  · intro z hz
    change Function.update f.parent x (f.parent (f.parent x)) z = z at hz
    by_cases h : z = x
    · subst h
      rw [Function.update_self] at hz
      exact f.root_of_root (f.parent_of_grandparent hz)
    · rw [Function.update_of_ne h] at hz
      exact f.root_of_root hz
  · intro z
    change f.root (Function.update f.parent x (f.parent (f.parent x)) z) = f.root z
    by_cases h : z = x
    · subst h
      rw [Function.update_self, f.root_of_parent, f.root_of_parent]
    · rw [Function.update_of_ne h, f.root_of_parent]

/-- The least depth that an element can be given. -/
noncomputable def leastDepth (f : Forest α) (x : α) : ℕ :=
  sInf {n | ∃ depth : α → ℕ, (∀ y, f.parent y ≠ y → depth (f.parent y) < depth y) ∧ depth x = n}

theorem halve_leastDepth (f : Forest α) {x : α} (h : f.parent x ≠ x) :
    (halve f x).leastDepth ((halve f x).parent x) < f.leastDepth x := by
  obtain ⟨depth, hd⟩ := f.acyclic
  have hne : {n | ∃ depth : α → ℕ, (∀ y, f.parent y ≠ y → depth (f.parent y) < depth y) ∧
      depth x = n}.Nonempty := ⟨depth x, depth, hd, rfl⟩
  obtain ⟨least, hl, hx⟩ := Nat.sInf_mem hne
  have hvalid : ∀ y, (halve f x).parent y ≠ y → least ((halve f x).parent y) < least y :=
    halve_depth f x hl
  have hle : (halve f x).leastDepth ((halve f x).parent x) ≤ least ((halve f x).parent x) :=
    Nat.sInf_le ⟨least, hvalid, rfl⟩
  have hlt : least ((halve f x).parent x) < least x := by
    refine hvalid x ?_
    change Function.update f.parent x (f.parent (f.parent x)) x ≠ x
    rw [Function.update_self]
    exact fun hp => h (f.parent_of_grandparent hp)
  exact (hle.trans_lt hlt).trans_eq hx

def findHalving (f : Forest α) (x : α) : α × Forest α :=
  if f.parent x = x then (x,f) else findHalving (halve f x) ((halve f x).parent x)
termination_by f.leastDepth x
decreasing_by exact f.halve_leastDepth ‹_›

theorem findHalving_spec (f : Forest α) (x : α) : (f.findHalving x).1 = f.root x ∧
    ∀ y, (f.findHalving x).2.root y = f.root y := by
  induction f, x using findHalving.induct with
  | case1 f x h =>
    rw [findHalving, if_pos h]
    exact ⟨(f.root_of_root h).symm, fun _ => rfl⟩
  | case2 f x h ih =>
    rw [findHalving, if_neg h]
    refine ⟨ih.1.trans ?_, fun y => (ih.2 y).trans (halve_root f x y)⟩
    rw [root_of_parent, halve_root]

def hang (f : Forest α) (a b : α) : Forest α :=
  let fa := f.findHalving a
  let fb := fa.2.findHalving b
  have hroots : fb.2.root fa.1 = fa.1 ∧ fb.2.root fb.1 = fb.1 := by
    obtain ⟨ha, hra⟩ := f.findHalving_spec a
    obtain ⟨hb, hrb⟩ := fa.2.findHalving_spec b
    constructor
    · rw [hrb, hra, ha, root_root]
    · rw [hrb, hb, root_root]
  if h : fa.1 = fb.1 then fb.2
  else fb.2.link fb.1 fa.1 (by rw [hroots.2]; exact Ne.symm h) hroots.1

theorem hang_same (f : Forest α) (a b x y : α) :
    (f.hang a b).root x = (f.hang a b).root y ↔ f.root x = f.root y ∨
      (f.root x = f.root a ∧ f.root y = f.root b) ∨
      (f.root x = f.root b ∧ f.root y = f.root a) := by
  obtain ⟨ha, hra⟩ := f.findHalving_spec a
  obtain ⟨hb, hrb⟩ := (f.findHalving a).2.findHalving_spec b
  have hroot : ∀ z, ((f.findHalving a).2.findHalving b).2.root z = f.root z :=
    fun z => (hrb z).trans (hra z)
  rw [hra] at hb
  unfold hang
  simp only
  split_ifs with h
  · rw [hroot, hroot]
    rw [ha, hb] at h
    grind
  · simp only [link_root, hroot, ha, hb, root_root] at h ⊢
    grind

end Halving

section Classes

open Relation

def unions (f : Forest α) (pairs : List (α × α)) : Forest α :=
  pairs.foldl (fun f p => f.union p.1 p.2) f

def hangs (f : Forest α) (pairs : List (α × α)) : Forest α :=
  pairs.foldl (fun f p => f.hang p.1 p.2) f

def attaches (f : Forest α) (pairs : List (α × α)) : Forest α :=
  pairs.foldl (fun f p => f.attach p.1 p.2) f

/-- Joining pairs one after the other, by any operation that joins two classes. -/
theorem joins_from {join : Forest α → α → α → Forest α}
    (hjoins : ∀ f a b x y, (join f a b).root x = (join f a b).root y ↔ f.root x = f.root y ∨
      (f.root x = f.root a ∧ f.root y = f.root b) ∨ (f.root x = f.root b ∧ f.root y = f.root a))
    (f : Forest α) (pairs : List (α × α)) (x y : α) :
    (pairs.foldl (fun f p => join f p.1 p.2) f).root x =
        (pairs.foldl (fun f p => join f p.1 p.2) f).root y ↔
      EqvGen (fun a b => f.root a = f.root b ∨ (a,b) ∈ pairs) x y := by
  induction pairs generalizing f with
  | nil =>
    have heq : Equivalence (fun a b => f.root a = f.root b) :=
      ⟨fun _ => rfl, Eq.symm, Eq.trans⟩
    change f.root x = f.root y ↔ _
    simpa only [List.not_mem_nil, or_false] using heq.eqvGen_iff.symm
  | cons p pairs ih =>
    have hjoin : EqvGen (fun a b => f.root a = f.root b ∨ (a,b) ∈ p::pairs) p.1 p.2 :=
      .rel _ _ (.inr List.mem_cons_self)
    have hsame : ∀ a b, f.root a = f.root b →
        EqvGen (fun a b => f.root a = f.root b ∨ (a,b) ∈ p::pairs) a b :=
      fun a b h => .rel _ _ (.inl h)
    refine (ih (join f p.1 p.2)).trans ⟨of_rel (fun a b h => ?_), of_rel (fun a b h => ?_)⟩
    · rcases h with h | h
      · rcases (hjoins f p.1 p.2 a b).mp h with h | ⟨ha, hb⟩ | ⟨ha, hb⟩
        · exact hsame a b h
        · exact ((hsame _ _ ha).trans _ _ _ hjoin).trans _ _ _ (hsame _ _ hb.symm)
        · exact ((hsame _ _ ha).trans _ _ _ hjoin.symm).trans _ _ _ (hsame _ _ hb.symm)
      · exact .rel _ _ (.inr (List.mem_cons_of_mem _ h))
    · refine .rel _ _ ?_
      rcases h with h | h
      · exact .inl ((hjoins f p.1 p.2 a b).mpr (.inl h))
      · rcases List.mem_cons.mp h with rfl | h
        · exact .inl ((hjoins f a b a b).mpr (.inr (.inl ⟨rfl, rfl⟩)))
        · exact .inr h

theorem joins_same {join : Forest α → α → α → Forest α}
    (hjoins : ∀ f a b x y, (join f a b).root x = (join f a b).root y ↔ f.root x = f.root y ∨
      (f.root x = f.root a ∧ f.root y = f.root b) ∨ (f.root x = f.root b ∧ f.root y = f.root a))
    (pairs : List (α × α)) (x y : α) :
    (pairs.foldl (fun f p => join f p.1 p.2) (singletons α)).root x =
        (pairs.foldl (fun f p => join f p.1 p.2) (singletons α)).root y ↔
      EqvGen (fun a b => (a,b) ∈ pairs) x y := by
  refine (joins_from hjoins (singletons α) pairs x y).trans
    ⟨of_rel (fun a b h => ?_), of_rel (fun a b h => .rel _ _ (.inr h))⟩
  rcases h with h | h
  · rw [root_of_root _ rfl, root_of_root _ rfl] at h
    exact h ▸ .refl a
  · exact .rel _ _ h

/-- Joining pairs from singletons leaves the classes that the pairs generate. -/
theorem unions_same (pairs : List (α × α)) (x y : α) :
    ((singletons α).unions pairs).root x = ((singletons α).unions pairs).root y ↔
      EqvGen (fun a b => (a,b) ∈ pairs) x y := joins_same union_same pairs x y

theorem attaches_same (pairs : List (α × α)) (x y : α) :
    ((singletons α).attaches pairs).root x = ((singletons α).attaches pairs).root y ↔
      EqvGen (fun a b => (a,b) ∈ pairs) x y := joins_same attach_same pairs x y

theorem hangs_same (pairs : List (α × α)) (x y : α) :
    ((singletons α).hangs pairs).root x = ((singletons α).hangs pairs).root y ↔
      EqvGen (fun a b => (a,b) ∈ pairs) x y := joins_same hang_same pairs x y

end Classes

section Calls

theorem path_cons (f : Forest α) {x : α} (h : f.parent x ≠ x) :
    f.path x = x::f.path (f.parent x) := by
  rw [path, if_neg h]

theorem path_depth (f : Forest α) {depth : α → ℕ}
    (hd : ∀ x, f.parent x ≠ x → depth (f.parent x) < depth x) (x : α) :
    ∀ y ∈ f.path x, depth y ≤ depth x := by
  induction x using f.climb with
  | hroot x h =>
    rw [path, if_pos h]
    exact fun y hy => absurd hy List.not_mem_nil
  | hup x h ih =>
    rw [f.path_cons h]
    intro y hy
    rcases List.mem_cons.mp hy with rfl | hy
    · exact le_rfl
    · exact (ih y hy).trans (hd x h).le

theorem path_nodup (f : Forest α) (x : α) : (f.path x).Nodup := by
  obtain ⟨depth, hd⟩ := f.acyclic
  induction x using f.climb with
  | hroot x h =>
    rw [path, if_pos h]
    exact List.nodup_nil
  | hup x h ih =>
    rw [f.path_cons h]
    refine List.nodup_cons.mpr ⟨fun hx => ?_, ih⟩
    exact absurd (f.path_depth hd _ x hx) (not_le.mpr (hd x h))

/-- A recursive find calls itself for each element of the path and for the root. -/
def calls (f : Forest α) (x : α) : ℕ := (f.path x).length+1

def Within (s : List α) (f : Forest α) : Prop := ∀ x, f.parent x ≠ x → x ∈ s ∧ f.parent x ∈ s

variable {s : List α} {f : Forest α}

omit [DecidableEq α] in
theorem within_singletons (s : List α) : Within s (singletons α) := fun _ h => absurd rfl h

theorem Within.root (h : Within s f) {x : α} (hx : x ∈ s) : f.root x ∈ s := by
  induction x using f.climb with
  | hroot x hroot => rwa [f.root_of_root hroot]
  | hup x hup ih =>
    rw [← f.root_of_parent]
    exact ih (h x hup).2

theorem Within.calls_le (h : Within s f) {x : α} (hx : x ∈ s) : f.calls x ≤ s.length := by
  have hnodup : (f.root x::f.path x).Nodup :=
    List.nodup_cons.mpr ⟨fun hr => (f.path_spec hr).1 (f.parent_root x), f.path_nodup x⟩
  refine (hnodup.subperm (fun y hy => ?_)).length_le
  rcases List.mem_cons.mp hy with rfl | hy
  · exact h.root hx
  · exact (h y (f.path_spec hy).1).1

theorem Within.compress (h : Within s f) (x : α) : Within s (f.compress x) := by
  intro y hy
  change compressed f x y ≠ y at hy
  change y ∈ s ∧ compressed f x y ∈ s
  unfold compressed at hy ⊢
  split_ifs at hy ⊢ with hp
  · obtain ⟨hmoved, hroot⟩ := f.path_spec hp
    have hmem := (h y hmoved).1
    exact ⟨hmem, hroot ▸ h.root hmem⟩
  · exact h y hy

theorem Within.link (h : Within s f) {ra rb : α} (hra : ra ∈ s) (hrb : rb ∈ s)
    (ha : f.root ra ≠ rb) (hb : f.root rb = rb) : Within s (f.link ra rb ha hb) := by
  intro y hy
  change Function.update f.parent rb ra y ≠ y at hy
  change y ∈ s ∧ Function.update f.parent rb ra y ∈ s
  by_cases hyb : y = rb
  · subst hyb
    rw [Function.update_self]
    exact ⟨hrb, hra⟩
  · rw [Function.update_of_ne hyb] at hy ⊢
    exact h y hy

theorem Within.attach (h : Within s f) {a b : α} (ha : a ∈ s) (hb : b ∈ s) :
    Within s (f.attach a b) := by
  have hfound : Within s ((f.find a).2.find b).2 := (h.compress a).compress b
  unfold Forest.attach
  simp only
  split_ifs
  · exact hfound
  · exact hfound.link ((h.compress a).root hb) (h.root ha) _ _

section Limit

variable (limit : ℕ)

def attachesWithin (f : Forest α) (pairs : List (α × α)) : Option (Forest α) :=
  pairs.foldlM (fun f p =>
    if f.calls p.1 ≤ limit ∧ (f.find p.1).2.calls p.2 ≤ limit then some (f.attach p.1 p.2)
    else none) f

def findsWithin (f : Forest α) (xs : List α) : Option (Forest α) :=
  xs.foldlM (fun f x => if f.calls x ≤ limit then some (f.find x).2 else none) f

variable {limit}

theorem attachesWithin_eq {pairs : List (α × α)} {g : Forest α}
    (h : f.attachesWithin limit pairs = some g) : g = f.attaches pairs := by
  induction pairs generalizing f with
  | nil => exact (Option.some.inj h).symm
  | cons p pairs ih =>
    rw [attachesWithin, List.foldlM_cons] at h
    split_ifs at h
    · exact ih h
    · cases h

/-- No find has more calls than there are elements. -/
theorem attachesWithin_some (h : Within s f) (hs : s.length ≤ limit) {pairs : List (α × α)}
    (hpairs : ∀ p ∈ pairs, p.1 ∈ s ∧ p.2 ∈ s) :
    f.attachesWithin limit pairs = some (f.attaches pairs) ∧ Within s (f.attaches pairs) := by
  induction pairs generalizing f with
  | nil => exact ⟨rfl, h⟩
  | cons p pairs ih =>
    obtain ⟨ha, hb⟩ := hpairs p List.mem_cons_self
    have hcalls : f.calls p.1 ≤ limit ∧ (f.find p.1).2.calls p.2 ≤ limit :=
      ⟨(h.calls_le ha).trans hs, ((h.compress p.1).calls_le hb).trans hs⟩
    rw [attachesWithin, List.foldlM_cons, if_pos hcalls]
    exact ih (h.attach ha hb) (fun q hq => hpairs q (List.mem_cons_of_mem p hq))

theorem findsWithin_some (h : Within s f) (hs : s.length ≤ limit) {xs : List α} (hxs : xs ⊆ s) :
    ∃ g, f.findsWithin limit xs = some g := by
  induction xs generalizing f with
  | nil => exact ⟨f, rfl⟩
  | cons x xs ih =>
    rw [findsWithin, List.foldlM_cons, if_pos ((h.calls_le (hxs List.mem_cons_self)).trans hs)]
    exact ih (h.compress x) (fun y hy => hxs (List.mem_cons_of_mem x hy))

end Limit

end Calls

end Forest

end Uru.Lib
