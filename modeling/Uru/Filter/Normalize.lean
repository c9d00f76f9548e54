import Uru.Filter.Ast

/-!
# Normal trees

Normalization flattens nodes of the same operator and keeps a node around one
child only when that child is a clause. The result is a normal tree, normal
trees stay as they are, and neither the meaning nor the clauses of a tree
change.
-/

set_option autoImplicit false

namespace Uru.Filter

open Uru.Lib

def Unary (a : Ast) : Prop := a.AtNodes (fun op fs => op = .not → fs.length = 1)

/-- No conjunction has a conjunction among its children, and no disjunction a
disjunction. -/
def Flat (a : Ast) : Prop :=
  a.AtNodes (fun op fs => op ≠ .not → ∀ f ∈ fs, ∀ gs, f ≠ .node op gs)

def NormalNode : Connective → List Ast → Prop
  | .not, fs => fs.length = 1
  | op, fs => (∀ f ∈ fs, ∀ gs, f ≠ .node op gs) ∧
      (fs.length = 1 → op = .and ∧ ∃ c, fs = [.leaf c])

def Normal (a : Ast) : Prop := a.AtNodes NormalNode

/-- The part of `Normal` that holds of every normalized tree. -/
def SettledNode (op : Connective) (fs : List Ast) : Prop :=
  op ≠ .not → (∀ f ∈ fs, ∀ gs, f ≠ .node op gs) ∧
    (fs.length = 1 → op = .and ∧ ∃ c, fs = [.leaf c])

def Settled (a : Ast) : Prop := a.AtNodes SettledNode

theorem normalNode_iff (op : Connective) (fs : List Ast) :
    NormalNode op fs ↔ (op = .not → fs.length = 1) ∧ SettledNode op fs := by
  cases op <;> simp [NormalNode, SettledNode]

theorem normal_iff (a : Ast) : Normal a ↔ Unary a ∧ Settled a := by
  refine ⟨fun h => ⟨?_, ?_⟩, fun ⟨hu, hs⟩ => ?_⟩
  · exact Formula.AtNodes.mono (fun op fs hn => ((normalNode_iff op fs).mp hn).1) a h
  · exact Formula.AtNodes.mono (fun op fs hn => ((normalNode_iff op fs).mp hn).2) a h
  · exact Formula.AtNodes.mono (fun op fs hn => (normalNode_iff op fs).mpr hn) a
      (Formula.AtNodes.and a hu hs)

theorem Normal.unary {a : Ast} (h : Normal a) : Unary a := ((normal_iff a).mp h).1

theorem Normal.settled {a : Ast} (h : Normal a) : Settled a := ((normal_iff a).mp h).2

theorem Normal.flat {a : Ast} (h : Normal a) : Flat a :=
  Formula.AtNodes.mono (fun _ _ hn ho => (hn ho).1) a h.settled

theorem normalizeAll_eq (fs : List Ast) : normalize.normalizeAll fs = fs.map normalize := by
  induction fs with
  | nil => rfl
  | cons f fs ih => exact congrArg (normalize f::·) ih

theorem normalize_not (fs : List Ast) :
    normalize (.node .not fs) = .node .not (fs.map normalize) := by
  rw [← normalizeAll_eq]
  rfl

theorem normalize_node {op : Connective} (h : op ≠ .not) (fs : List Ast) :
    normalize (.node op fs) = collapsed op ((fs.map normalize).flatMap (spliced op)) := by
  rw [← normalizeAll_eq]
  cases op with
  | not => exact absurd rfl h
  | and => rfl
  | or => rfl

theorem normalize_root (op : Connective) (fs : List Ast) :
    ∃ op' gs, normalize (.node op fs) = .node op' gs := by
  by_cases h : op = .not
  · subst h
    exact ⟨_, _, normalize_not fs⟩
  · rw [normalize_node h]
    unfold collapsed
    split
    · exact ⟨_, _, rfl⟩
    · exact ⟨_, _, rfl⟩
    · exact ⟨_, _, rfl⟩

theorem collapsed_of_length {op : Connective} {fs : List Ast} (h : fs.length ≠ 1) :
    collapsed op fs = .node op fs := by
  rcases fs with _ | ⟨f, _ | ⟨g, fs⟩⟩
  · rfl
  · exact absurd rfl h
  · cases f <;> rfl

theorem spliced_settled {op : Connective} (ho : op ≠ .not) {a : Ast} (h : Settled a) :
    ∀ f ∈ spliced op a, Settled f ∧ ∀ gs, f ≠ .node op gs := by
  intro f hf
  cases a with
  | leaf c =>
    obtain rfl := List.mem_singleton.mp hf
    exact ⟨h, fun gs he => nomatch he⟩
  | node op' fs =>
    have hn := (Formula.atNodes_node _ _ _).mp h
    by_cases hop : op' = op
    · subst hop
      rw [spliced, if_pos rfl] at hf
      exact ⟨hn.2 f hf, (hn.1 ho).1 f hf⟩
    · rw [spliced, if_neg hop, List.mem_singleton] at hf
      subst hf
      refine ⟨h, fun gs he => hop ?_⟩
      injection he

theorem collapsed_settled {op : Connective} {fs : List Ast}
    (h : ∀ f ∈ fs, Settled f ∧ ∀ gs, f ≠ .node op gs) : Settled (collapsed op fs) := by
  by_cases hl : fs.length = 1
  · obtain ⟨f, rfl⟩ := List.length_eq_one_iff.mp hl
    cases f with
    | leaf c =>
      refine (Formula.atNodes_node _ _ _).mpr ⟨fun _ => ⟨?_, fun _ => ⟨rfl, c, rfl⟩⟩, ?_⟩
      · intro f hf gs he
        rw [List.mem_singleton.mp hf] at he
        cases he
      · intro f hf
        rw [List.mem_singleton.mp hf]
        trivial
    | node op' gs => exact (h (.node op' gs) (by simp)).1
  · rw [collapsed_of_length hl]
    exact (Formula.atNodes_node _ _ _).mpr
      ⟨fun _ => ⟨fun f hf => (h f hf).2, fun he => absurd he hl⟩, fun f hf => (h f hf).1⟩

theorem normalize_settled (a : Ast) : Settled (normalize a) := by
  induction a using Formula.ind with
  | hleaf c => trivial
  | hnode op fs ih =>
    by_cases ho : op = .not
    · subst ho
      rw [normalize_not]
      refine (Formula.atNodes_node _ _ _).mpr ⟨fun he => absurd rfl he, fun f hf => ?_⟩
      obtain ⟨g, hg, rfl⟩ := List.mem_map.mp hf
      exact ih g hg
    · rw [normalize_node ho]
      refine collapsed_settled (fun f hf => ?_)
      obtain ⟨b, hb, hfb⟩ := List.mem_flatMap.mp hf
      obtain ⟨g, hg, rfl⟩ := List.mem_map.mp hb
      exact spliced_settled ho (ih g hg) f hfb

theorem spliced_unary {op : Connective} {a : Ast} (h : Unary a) : ∀ f ∈ spliced op a, Unary f := by
  intro f hf
  cases a with
  | leaf c =>
    obtain rfl := List.mem_singleton.mp hf
    exact h
  | node op' fs =>
    by_cases hop : op' = op
    · rw [spliced, if_pos hop] at hf
      exact ((Formula.atNodes_node _ _ _).mp h).2 f hf
    · rw [spliced, if_neg hop, List.mem_singleton] at hf
      subst hf
      exact h

theorem collapsed_unary {op : Connective} (ho : op ≠ .not) {fs : List Ast} (h : ∀ f ∈ fs, Unary f) :
    Unary (collapsed op fs) := by
  by_cases hl : fs.length = 1
  · obtain ⟨f, rfl⟩ := List.length_eq_one_iff.mp hl
    cases f with
    | leaf c => exact (Formula.atNodes_node _ _ _).mpr ⟨fun _ => rfl, h⟩
    | node op' gs => exact h (.node op' gs) (by simp)
  · rw [collapsed_of_length hl]
    exact (Formula.atNodes_node _ _ _).mpr ⟨fun he => absurd he ho, h⟩

theorem normalize_unary (a : Ast) (h : Unary a) : Unary (normalize a) := by
  induction a using Formula.ind with
  | hleaf c => trivial
  | hnode op fs ih =>
    have hu := (Formula.atNodes_node _ _ _).mp h
    have hmap : ∀ f ∈ fs.map normalize, Unary f := by
      intro f hf
      obtain ⟨g, hg, rfl⟩ := List.mem_map.mp hf
      exact ih g hg (hu.2 g hg)
    by_cases ho : op = .not
    · subst ho
      rw [normalize_not]
      exact (Formula.atNodes_node _ _ _).mpr ⟨fun _ => by simpa using hu.1 rfl, hmap⟩
    · rw [normalize_node ho]
      refine collapsed_unary ho (fun f hf => ?_)
      obtain ⟨g, hg, hfg⟩ := List.mem_flatMap.mp hf
      exact spliced_unary (hmap g hg) f hfg

theorem normalize_normal (a : Ast) (h : Unary a) : Normal (normalize a) :=
  (normal_iff _).mpr ⟨normalize_unary a h, normalize_settled a⟩

theorem spliced_self {op : Connective} {a : Ast} (h : ∀ gs, a ≠ .node op gs) : spliced op a = [a] := by
  cases a with
  | leaf c => rfl
  | node op' fs => exact if_neg (fun he => h fs (by rw [he]))

theorem normalize_of_settled (a : Ast) (h : Settled a) : normalize a = a := by
  induction a using Formula.ind with
  | hleaf c => rfl
  | hnode op fs ih =>
    have hn := (Formula.atNodes_node _ _ _).mp h
    have hmap : fs.map normalize = fs := by
      conv_rhs => rw [← List.map_id fs]
      exact List.map_congr_left (fun f hf => ih f hf (hn.2 f hf))
    by_cases ho : op = .not
    · subst ho
      rw [normalize_not, hmap]
    · have hflat := hn.1 ho
      have hsplice : fs.flatMap (spliced op) = fs := by
        conv_rhs => rw [← List.flatMap_singleton' fs]
        exact List.flatMap_congr (fun f hf => spliced_self (hflat.1 f hf))
      rw [normalize_node ho, hmap, hsplice]
      by_cases hl : fs.length = 1
      · obtain ⟨rfl, c, rfl⟩ := hflat.2 hl
        rfl
      · exact collapsed_of_length hl

theorem normalize_normalize (a : Ast) : normalize (normalize a) = normalize a :=
  normalize_of_settled _ (normalize_settled a)

theorem collapsed_run (v : FilterClause → Option Bool) {op : Connective} (ho : op ≠ .not)
    (fs : List Ast) : (collapsed op fs).run v = Formula.combine op (fs.map (Formula.run v)) := by
  by_cases hl : fs.length = 1
  · obtain ⟨f, rfl⟩ := List.length_eq_one_iff.mp hl
    have hone : Formula.combine op [f.run v] = f.run v := by
      cases op with
      | not => exact absurd rfl ho
      | and => exact Formula.allOf_singleton _
      | or => exact Formula.anyOf_singleton _
    rw [List.map_singleton, hone]
    cases f with
    | leaf c =>
      rw [collapsed, Formula.run_node]
      exact Formula.allOf_singleton _
    | node op' gs => rfl
  · rw [collapsed_of_length hl, Formula.run_node]

theorem spliced_run (v : FilterClause → Option Bool) {op : Connective} (ho : op ≠ .not) (a : Ast) :
    Formula.combine op ((spliced op a).map (Formula.run v)) = a.run v := by
  have hone : Formula.combine op [a.run v] = a.run v := by
    cases op with
    | not => exact absurd rfl ho
    | and => exact Formula.allOf_singleton _
    | or => exact Formula.anyOf_singleton _
  cases a with
  | leaf c => exact hone
  | node op' fs =>
    by_cases hop : op' = op
    · subst hop
      rw [spliced, if_pos rfl, Formula.run_node]
    · rw [spliced, if_neg hop]
      exact hone

theorem normalize_run (v : FilterClause → Option Bool) (a : Ast) : (normalize a).run v = a.run v := by
  induction a using Formula.ind with
  | hleaf c => rfl
  | hnode op fs ih =>
    have hmap : (fs.map normalize).map (Formula.run v) = fs.map (Formula.run v) := by
      rw [List.map_map]
      exact List.map_congr_left ih
    by_cases ho : op = .not
    · subst ho
      rw [normalize_not, Formula.run_node, Formula.run_node, hmap]
    · rw [normalize_node ho, collapsed_run v ho, Formula.run_node, ← hmap,
        Formula.combine_flatMap ho (Formula.run v) _ (spliced_run v ho)]

theorem collapsed_leaves (op : Connective) (fs : List Ast) :
    (collapsed op fs).leaves = fs.flatMap Formula.leaves := by
  by_cases hl : fs.length = 1
  · obtain ⟨f, rfl⟩ := List.length_eq_one_iff.mp hl
    cases f with
    | leaf c => rfl
    | node op' gs => simp [collapsed]
  · rw [collapsed_of_length hl, Formula.leaves_node]

theorem spliced_leaves (op : Connective) (a : Ast) :
    (spliced op a).flatMap Formula.leaves = a.leaves := by
  cases a with
  | leaf c => rfl
  | node op' fs =>
    by_cases hop : op' = op
    · rw [spliced, if_pos hop, Formula.leaves_node]
    · rw [spliced, if_neg hop]
      simp

theorem normalize_leaves (a : Ast) : (normalize a).leaves = a.leaves := by
  induction a using Formula.ind with
  | hleaf c => rfl
  | hnode op fs ih =>
    have hmap : (fs.map normalize).flatMap Formula.leaves = fs.flatMap Formula.leaves := by
      rw [List.flatMap_map]
      exact List.flatMap_congr ih
    by_cases ho : op = .not
    · subst ho
      rw [normalize_not, Formula.leaves_node, Formula.leaves_node, hmap]
    · rw [normalize_node ho, collapsed_leaves, List.flatMap_assoc, Formula.leaves_node, ← hmap]
      exact List.flatMap_congr (fun b _ => spliced_leaves op b)

end Uru.Filter
