import Uru.Lib.Formula

/-!
# Splitting a tree for push-down

A store can test only some of the leaves of a tree. The split of the tree
keeps a disjunction or a negation only when the store can test all of its
leaves, and puts the empty conjunction in its place otherwise; a conjunction
is split child by child. What the split accepts includes all that the tree
accepts, whatever the nesting, and when the store can test every leaf the
split is the tree itself.
-/

set_option autoImplicit false

namespace Uru.Lib.Formula

variable {α : Type}

def UnaryNots (f : Formula α) : Prop := f.AtNodes (fun op fs => op = .not → fs.length = 1)

def everything : Formula α := .node .and []

def consumable (p : α → Bool) : Formula α → Bool
  | .leaf a => p a
  | .node _ fs => all fs
where
  all : List (Formula α) → Bool
    | [] => true
    | f::fs => consumable p f && all fs

def split (p : α → Bool) : Formula α → Formula α
  | .leaf a => if p a then .leaf a else everything
  | .node .and fs => .node .and (all fs)
  | .node op fs => if consumable p (.node op fs) then .node op fs else everything
where
  all : List (Formula α) → List (Formula α)
    | [] => []
    | f::fs => split p f::all fs

variable (p : α → Bool)

theorem consumable_all (fs : List (Formula α)) :
    consumable.all p fs = true ↔ ∀ f ∈ fs, f.consumable p = true := by
  induction fs with
  | nil => simp [consumable.all]
  | cons f fs ih => simp [consumable.all, ih]

theorem consumable_node (op : Connective) (fs : List (Formula α)) :
    (node op fs).consumable p = true ↔ ∀ f ∈ fs, f.consumable p = true := by
  rw [consumable, consumable_all]

theorem consumable_iff (f : Formula α) : f.consumable p = true ↔ ∀ a ∈ f.leaves, p a = true := by
  induction f using Formula.ind with
  | hleaf a => simp [consumable]
  | hnode op fs ih =>
    rw [consumable_node, leaves_node]
    constructor
    · intro h a ha
      obtain ⟨f, hf, haf⟩ := List.mem_flatMap.mp ha
      exact (ih f hf).mp (h f hf) a haf
    · intro h f hf
      exact (ih f hf).mpr (fun a ha => h a (List.mem_flatMap.mpr ⟨f, hf, ha⟩))

theorem split_all (fs : List (Formula α)) : split.all p fs = fs.map (split p) := by
  induction fs with
  | nil => rfl
  | cons f fs ih => simp [split.all, ih]

theorem split_and (fs : List (Formula α)) :
    (node .and fs).split p = .node .and (fs.map (split p)) := by
  rw [split, split_all]

theorem split_of_ne {op : Connective} (h : op ≠ .and) (fs : List (Formula α)) :
    (node op fs).split p = if (node op fs).consumable p then .node op fs else everything := by
  cases op with
  | and => exact absurd rfl h
  | or => rfl
  | not => rfl

theorem split_of_consumable (f : Formula α) (h : f.consumable p = true) : f.split p = f := by
  induction f using Formula.ind with
  | hleaf a => exact if_pos h
  | hnode op fs ih =>
    by_cases hop : op = .and
    · subst hop
      have hmap : fs.map (split p) = fs := by
        conv_rhs => rw [← List.map_id fs]
        exact List.map_congr_left (fun f hf => ih f hf ((consumable_node p .and fs).mp h f hf))
      rw [split_and, hmap]
    · rw [split_of_ne p hop, if_pos h]

/-- The leaves of the split are leaves of the tree that the store can test. -/
theorem split_leaves (f : Formula α) : ∀ a ∈ (f.split p).leaves, a ∈ f.leaves ∧ p a = true := by
  induction f using Formula.ind with
  | hleaf a =>
    intro b hb
    by_cases hp : p a = true
    · rw [split, if_pos hp] at hb
      rw [List.mem_singleton.mp hb]
      exact ⟨List.mem_singleton.mpr rfl, hp⟩
    · rw [split, if_neg hp] at hb
      exact absurd hb List.not_mem_nil
  | hnode op fs ih =>
    intro b hb
    by_cases hop : op = .and
    · subst hop
      rw [split_and, leaves_node, List.flatMap_map] at hb
      obtain ⟨f, hf, hbf⟩ := List.mem_flatMap.mp hb
      rw [leaves_node]
      exact ⟨List.mem_flatMap.mpr ⟨f, hf, (ih f hf b hbf).1⟩, (ih f hf b hbf).2⟩
    · rw [split_of_ne p hop] at hb
      by_cases hc : (node op fs).consumable p = true
      · rw [if_pos hc] at hb
        exact ⟨hb, (consumable_iff p _).mp hc b hb⟩
      · rw [if_neg hc] at hb
        exact absurd hb List.not_mem_nil

variable {p} {v w : α → Option Bool}

theorem kleene_map_total {op : Connective} {fs : List (Formula α)}
    (h : ∀ f ∈ fs, f.truth w = f.run v ∧ ∃ b, f.run v = some b) :
    kleene op (fs.map (truth w)) = combine op (fs.map (run v)) := by
  obtain ⟨bs, hbs⟩ : ∃ bs : List Bool, fs.map (run v) = bs.map some := by
    refine ⟨fs.map (fun f => (f.run v).getD false), ?_⟩
    rw [List.map_map]
    refine List.map_congr_left (fun f hf => ?_)
    obtain ⟨b, hb⟩ := (h f hf).2
    simp [hb]
  rw [List.map_congr_left (fun f hf => (h f hf).1), hbs, kleene_total]

theorem combine_total {op : Connective} {fs : List (Formula α)} (ho : op = .not → fs.length = 1)
    (h : ∀ f ∈ fs, ∃ b, f.run v = some b) : ∃ b, combine op (fs.map (run v)) = some b := by
  have hbs : fs.map (run v) = (fs.map (fun f => (f.run v).getD false)).map some := by
    rw [List.map_map]
    refine List.map_congr_left (fun f hf => ?_)
    obtain ⟨b, hb⟩ := h f hf
    simp [hb]
  rw [hbs]
  cases op with
  | and => exact ⟨_, allOf_total _⟩
  | or => exact ⟨_, anyOf_total _⟩
  | not =>
    obtain ⟨f, rfl⟩ := List.length_eq_one_iff.mp (ho rfl)
    exact ⟨_, rfl⟩

/-- On leaves that answer, and answer alike, both readings of the tree answer,
and answer alike. -/
theorem truth_eq_run (f : Formula α) (hu : f.UnaryNots)
    (h : ∀ a ∈ f.leaves, w a = v a ∧ ∃ b, v a = some b) :
    f.truth w = f.run v ∧ ∃ b, f.run v = some b := by
  induction f using Formula.ind with
  | hleaf a => exact h a (List.mem_singleton.mpr rfl)
  | hnode op fs ih =>
    have hn := (atNodes_node _ _ _).mp hu
    have hfs : ∀ f ∈ fs, f.truth w = f.run v ∧ ∃ b, f.run v = some b := by
      intro f hf
      refine ih f hf (hn.2 f hf) (fun a ha => h a ?_)
      rw [leaves_node]
      exact List.mem_flatMap.mpr ⟨f, hf, ha⟩
    rw [truth_node, run_node, kleene_map_total hfs]
    exact ⟨rfl, combine_total hn.1 (fun f hf => (hfs f hf).2)⟩

/-- Whatever the tree accepts, the split accepts, when the store tests the
leaves of the split as the program does. -/
theorem split_accepts (f : Formula α) (hu : f.UnaryNots)
    (h : ∀ a ∈ (f.split p).leaves, w a = v a ∧ ∃ b, v a = some b) (hf : f.run v = some true) :
    (f.split p).truth w = some true := by
  induction f using Formula.ind with
  | hleaf a =>
    by_cases hp : p a = true
    · rw [split, if_pos hp] at h ⊢
      exact (h a (List.mem_singleton.mpr rfl)).1.trans hf
    · rw [split, if_neg hp]
      rfl
  | hnode op fs ih =>
    have hn := (atNodes_node _ _ _).mp hu
    by_cases hop : op = .and
    · subst hop
      rw [run_node] at hf
      have hall := (allOf_true _).mp hf
      rw [split_and, truth_node]
      refine (kleeneAnd_true _).mpr (fun x hx => ?_)
      rw [List.map_map] at hx
      obtain ⟨f, hfm, rfl⟩ := List.mem_map.mp hx
      refine ih f hfm (hn.2 f hfm) (fun a ha => h a ?_) (hall _ (List.mem_map_of_mem hfm))
      rw [split_and, leaves_node]
      exact List.mem_flatMap.mpr ⟨f.split p, List.mem_map_of_mem hfm, ha⟩
    · rw [split_of_ne p hop] at h ⊢
      by_cases hc : (node op fs).consumable p = true
      · rw [if_pos hc] at h ⊢
        rw [(truth_eq_run _ hu h).1]
        exact hf
      · rw [if_neg hc]
        rfl

/-- When the store can test every leaf, the split accepts what the tree
accepts and nothing else. -/
theorem split_exact (f : Formula α) (hu : f.UnaryNots) (hc : f.consumable p = true)
    (h : ∀ a ∈ f.leaves, w a = v a ∧ ∃ b, v a = some b) : (f.split p).truth w = f.run v := by
  rw [split_of_consumable p f hc]
  exact (truth_eq_run f hu h).1

end Uru.Lib.Formula
