import Mathlib.Data.List.Basic
import Mathlib.Tactic

/-!
# Propositional trees

A tree of conjunctions, disjunctions and negations over leaves of any type.
It is read in two ways. A program reads it from left to right, stops as soon
as the answer is known, and fails where a leaf fails. A query language reads
it in three-valued logic, where an unknown leaf may leave the whole unknown.
On leaves that always answer, the two readings give the same answer.
-/

set_option autoImplicit false

namespace Uru.Lib

inductive Connective
  | and
  | or
  | not
deriving DecidableEq

inductive Formula (α : Type)
  | leaf (a : α)
  | node (op : Connective) (children : List (Formula α))

namespace Formula

variable {α β : Type}

theorem ind {P : Formula α → Prop} (hleaf : ∀ a, P (leaf a))
    (hnode : ∀ op fs, (∀ f ∈ fs, P f) → P (node op fs)) : ∀ f, P f
  | leaf a => hleaf a
  | node op fs => hnode op fs (go fs)
where
  go : ∀ fs : List (Formula α), ∀ f ∈ fs, P f
    | [], _, h => absurd h List.not_mem_nil
    | g::gs, f, h =>
      (List.mem_cons.mp h).elim (fun he => he ▸ ind hleaf hnode g) (fun ht => go gs f ht)

def leaves : Formula α → List α
  | leaf a => [a]
  | node _ fs => leavesAll fs
where
  leavesAll : List (Formula α) → List α
    | [] => []
    | f::fs => leaves f++leavesAll fs

theorem leavesAll_eq (fs : List (Formula α)) : leaves.leavesAll fs = fs.flatMap leaves := by
  induction fs with
  | nil => rfl
  | cons f fs ih => simp [leaves.leavesAll, ih]

@[simp] theorem leaves_leaf (a : α) : (leaf a).leaves = [a] := rfl

@[simp] theorem leaves_node (op : Connective) (fs : List (Formula α)) :
    (node op fs).leaves = fs.flatMap leaves := leavesAll_eq fs

def AtNodes (P : Connective → List (Formula α) → Prop) : Formula α → Prop
  | leaf _ => True
  | node op fs => P op fs ∧ all fs
where
  all : List (Formula α) → Prop
    | [] => True
    | f::fs => AtNodes P f ∧ all fs

theorem atNodes_all (P : Connective → List (Formula α) → Prop) (fs : List (Formula α)) :
    AtNodes.all P fs ↔ ∀ f ∈ fs, f.AtNodes P := by
  induction fs with
  | nil => simp [AtNodes.all]
  | cons f fs ih => simp [AtNodes.all, ih]

@[simp] theorem atNodes_leaf (P : Connective → List (Formula α) → Prop) (a : α) :
    (leaf a).AtNodes P := trivial

@[simp] theorem atNodes_node (P : Connective → List (Formula α) → Prop) (op : Connective)
    (fs : List (Formula α)) :
    (node op fs).AtNodes P ↔ P op fs ∧ ∀ f ∈ fs, f.AtNodes P := by
  rw [AtNodes, atNodes_all]

theorem AtNodes.mono {P Q : Connective → List (Formula α) → Prop}
    (h : ∀ op fs, P op fs → Q op fs) (f : Formula α) (hf : f.AtNodes P) : f.AtNodes Q := by
  induction f using Formula.ind with
  | hleaf a => trivial
  | hnode op fs ih =>
    rw [atNodes_node] at hf ⊢
    exact ⟨h op fs hf.1, fun g hg => ih g hg (hf.2 g hg)⟩

theorem AtNodes.and {P Q : Connective → List (Formula α) → Prop} (f : Formula α) (hP : f.AtNodes P)
    (hQ : f.AtNodes Q) : f.AtNodes (fun op fs => P op fs ∧ Q op fs) := by
  induction f using Formula.ind with
  | hleaf a => trivial
  | hnode op fs ih =>
    rw [atNodes_node] at hP hQ ⊢
    exact ⟨⟨hP.1, hQ.1⟩, fun g hg => ih g hg (hP.2 g hg) (hQ.2 g hg)⟩

def allOf : List (Option Bool) → Option Bool
  | [] => some true
  | x::xs => x.bind (fun b => if b then allOf xs else some false)

def anyOf : List (Option Bool) → Option Bool
  | [] => some false
  | x::xs => x.bind (fun b => if b then some true else anyOf xs)

def combine : Connective → List (Option Bool) → Option Bool
  | .and, xs => allOf xs
  | .or, xs => anyOf xs
  | .not, [] => none
  | .not, x::_ => x.map (fun b => !b)

/-- The answer of a program that evaluates the leaves from left to right and
stops as soon as the answer is known; `none` when a leaf it reaches fails. -/
def run (v : α → Option Bool) : Formula α → Option Bool
  | leaf a => v a
  | node op fs => combine op (runAll fs)
where
  runAll : List (Formula α) → List (Option Bool)
    | [] => []
    | f::fs => run v f::runAll fs

theorem runAll_eq (v : α → Option Bool) (fs : List (Formula α)) :
    run.runAll v fs = fs.map (run v) := by
  induction fs with
  | nil => rfl
  | cons f fs ih => simp [run.runAll, ih]

@[simp] theorem run_leaf (v : α → Option Bool) (a : α) : (leaf a).run v = v a := rfl

@[simp] theorem run_node (v : α → Option Bool) (op : Connective) (fs : List (Formula α)) :
    (node op fs).run v = combine op (fs.map (run v)) := by
  rw [run, runAll_eq]

theorem allOf_append (xs ys : List (Option Bool)) :
    allOf (xs++ys) = (allOf xs).bind (fun b => if b then allOf ys else some false) := by
  induction xs with
  | nil => simp [allOf]
  | cons x xs ih =>
    rcases x with _ | _ | _
    · rfl
    · rfl
    · simpa [allOf] using ih

theorem anyOf_append (xs ys : List (Option Bool)) :
    anyOf (xs++ys) = (anyOf xs).bind (fun b => if b then some true else anyOf ys) := by
  induction xs with
  | nil => simp [anyOf]
  | cons x xs ih =>
    rcases x with _ | _ | _
    · rfl
    · simpa [anyOf] using ih
    · rfl

/-- Children that stand for the conjunction, or the disjunction, of several
others may be replaced by these. -/
theorem combine_flatMap {op : Connective} (ho : op ≠ .not) (v : α → Option Bool)
    (f : α → List α) (h : ∀ a, combine op ((f a).map v) = v a) (as : List α) :
    combine op ((as.flatMap f).map v) = combine op (as.map v) := by
  induction as with
  | nil => rfl
  | cons a as ih =>
    have ha := h a
    cases op with
    | not => exact absurd rfl ho
    | and =>
      simp only [combine] at ha ih ⊢
      rw [List.flatMap_cons, List.map_append, allOf_append, ha, ih, List.map_cons, allOf]
    | or =>
      simp only [combine] at ha ih ⊢
      rw [List.flatMap_cons, List.map_append, anyOf_append, ha, ih, List.map_cons, anyOf]

theorem allOf_singleton (x : Option Bool) : allOf [x] = x := by
  rcases x with _ | _ | _ <;> rfl

theorem anyOf_singleton (x : Option Bool) : anyOf [x] = x := by
  rcases x with _ | _ | _ <;> rfl

theorem allOf_true (xs : List (Option Bool)) : allOf xs = some true ↔ ∀ x ∈ xs, x = some true := by
  induction xs with
  | nil => simp [allOf]
  | cons x xs ih => rcases x with _ | _ | _ <;> simp [allOf, ih]

theorem allOf_total (bs : List Bool) : allOf (bs.map some) = some (bs.all id) := by
  induction bs with
  | nil => rfl
  | cons b bs ih => cases b <;> simp [allOf, ih]

theorem anyOf_total (bs : List Bool) : anyOf (bs.map some) = some (bs.any id) := by
  induction bs with
  | nil => rfl
  | cons b bs ih => cases b <;> simp [anyOf, ih]

/-- The order of children that all answer does not matter. -/
theorem combine_perm {op : Connective} (ho : op ≠ .not) {xs ys : List (Option Bool)}
    (h : xs.Perm ys) (hx : ∀ x ∈ xs, ∃ b, x = some b) : combine op xs = combine op ys := by
  have hsome : ∀ zs : List (Option Bool), (∀ z ∈ zs, ∃ b, z = some b) →
      zs = (zs.map (fun z => z.getD false)).map some := by
    intro zs hz
    conv_lhs => rw [← List.map_id zs]
    rw [List.map_map]
    refine List.map_congr_left (fun z hm => ?_)
    obtain ⟨b, rfl⟩ := hz z hm
    rfl
  have hperm : (xs.map (fun z => z.getD false)).Perm (ys.map (fun z => z.getD false)) := h.map _
  rw [hsome xs hx, hsome ys (fun y hy => hx y (h.mem_iff.mpr hy))]
  cases op with
  | not => exact absurd rfl ho
  | and => rw [combine, combine, allOf_total, allOf_total, hperm.all_eq]
  | or => rw [combine, combine, anyOf_total, anyOf_total, hperm.any_eq]

def Answers (x : Option Bool) (P : Prop) : Prop := ∃ b, x = some b ∧ (b = true ↔ P)

theorem answers_congr {x : Option Bool} {P Q : Prop} (h : P ↔ Q) : Answers x P ↔ Answers x Q :=
  exists_congr (fun _ => and_congr_right (fun _ => iff_congr Iff.rfl h))

/-- The children before the first true one decide a disjunction. -/
theorem anyOf_answers {v : α → Option Bool} {M : α → Prop} (as : List α)
    (h : ∀ pre a post, as = pre++a::post → (∀ b ∈ pre, ¬ M b) → Answers (v a) (M a)) :
    Answers (anyOf (as.map v)) (∃ a ∈ as, M a) := by
  induction as with
  | nil => exact ⟨false, rfl, by simp⟩
  | cons a as ih =>
    obtain ⟨b, hb, hM⟩ := h [] a as rfl (fun b hb => absurd hb List.not_mem_nil)
    rw [List.map_cons, anyOf, hb]
    cases b with
    | true => exact ⟨true, rfl, iff_of_true rfl ⟨a, List.mem_cons_self, hM.mp rfl⟩⟩
    | false =>
      have ha : ¬ M a := fun hm => Bool.false_ne_true (hM.mpr hm)
      have hrest : ∀ pre x post, as = pre++x::post → (∀ y ∈ pre, ¬ M y) → Answers (v x) (M x) := by
        rintro pre x post rfl hpre
        refine h (a::pre) x post rfl (fun y hy => ?_)
        rcases List.mem_cons.mp hy with rfl | hy
        · exact ha
        · exact hpre y hy
      refine (answers_congr ?_).mp (ih hrest)
      simp [ha]

/-- The children before the first false one decide a conjunction. -/
theorem allOf_answers {v : α → Option Bool} {M : α → Prop} (as : List α)
    (h : ∀ pre a post, as = pre++a::post → (∀ b ∈ pre, M b) → Answers (v a) (M a)) :
    Answers (allOf (as.map v)) (∀ a ∈ as, M a) := by
  induction as with
  | nil => exact ⟨true, rfl, by simp⟩
  | cons a as ih =>
    obtain ⟨b, hb, hM⟩ := h [] a as rfl (fun b hb => absurd hb List.not_mem_nil)
    rw [List.map_cons, allOf, hb]
    cases b with
    | false =>
      refine ⟨false, rfl, iff_of_false Bool.false_ne_true (fun hall => ?_)⟩
      exact Bool.false_ne_true (hM.mpr (hall a List.mem_cons_self))
    | true =>
      have ha : M a := hM.mp rfl
      have hrest : ∀ pre x post, as = pre++x::post → (∀ y ∈ pre, M y) → Answers (v x) (M x) := by
        rintro pre x post rfl hpre
        refine h (a::pre) x post rfl (fun y hy => ?_)
        rcases List.mem_cons.mp hy with rfl | hy
        · exact ha
        · exact hpre y hy
      refine (answers_congr ?_).mp (ih hrest)
      simp [ha]

def kleeneAnd (xs : List (Option Bool)) : Option Bool :=
  if some false ∈ xs then some false else if none ∈ xs then none else some true

def kleeneOr (xs : List (Option Bool)) : Option Bool :=
  if some true ∈ xs then some true else if none ∈ xs then none else some false

def kleene : Connective → List (Option Bool) → Option Bool
  | .and, xs => kleeneAnd xs
  | .or, xs => kleeneOr xs
  | .not, [] => none
  | .not, x::_ => x.map (fun b => !b)

/-- The truth of a tree in three-valued logic, with `none` for the unknown. -/
def truth (v : α → Option Bool) : Formula α → Option Bool
  | leaf a => v a
  | node op fs => kleene op (truthAll fs)
where
  truthAll : List (Formula α) → List (Option Bool)
    | [] => []
    | f::fs => truth v f::truthAll fs

theorem truthAll_eq (v : α → Option Bool) (fs : List (Formula α)) :
    truth.truthAll v fs = fs.map (truth v) := by
  induction fs with
  | nil => rfl
  | cons f fs ih => simp [truth.truthAll, ih]

@[simp] theorem truth_leaf (v : α → Option Bool) (a : α) : (leaf a).truth v = v a := rfl

@[simp] theorem truth_node (v : α → Option Bool) (op : Connective) (fs : List (Formula α)) :
    (node op fs).truth v = kleene op (fs.map (truth v)) := by
  rw [truth, truthAll_eq]

theorem kleeneAnd_true (xs : List (Option Bool)) :
    kleeneAnd xs = some true ↔ ∀ x ∈ xs, x = some true := by
  unfold kleeneAnd
  constructor
  · intro h x hx
    by_cases hf : some false ∈ xs
    · rw [if_pos hf] at h
      cases h
    · by_cases hn : none ∈ xs
      · rw [if_neg hf, if_pos hn] at h
        cases h
      · rcases x with _ | _ | _
        · exact absurd hx hn
        · exact absurd hx hf
        · rfl
  · intro h
    rw [if_neg (fun hf => by cases h _ hf), if_neg (fun hn => by cases h _ hn)]

theorem kleene_total (op : Connective) (bs : List Bool) :
    kleene op (bs.map some) = combine op (bs.map some) := by
  cases op with
  | and =>
    rw [combine, allOf_total, kleene, kleeneAnd, if_neg (by simp : ¬ none ∈ bs.map some)]
    cases hb : bs.all id
    · rw [if_pos]
      simpa [List.all_eq_false] using hb
    · rw [if_neg]
      simpa [List.all_eq_true] using hb
  | or =>
    rw [combine, anyOf_total, kleene, kleeneOr, if_neg (by simp : ¬ none ∈ bs.map some)]
    cases hb : bs.any id
    · rw [if_neg]
      simpa [List.any_eq_false] using hb
    · rw [if_pos]
      simpa [List.any_eq_true] using hb
  | not => cases bs <;> rfl

end Formula

end Uru.Lib
