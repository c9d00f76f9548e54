import Mathlib.Algebra.Order.Field.Rat
import Mathlib.Data.List.FinRange
import Mathlib.Tactic
import Uru.Lib.Greedy

/-!
# Maximal marginal relevance

Candidates are taken one after another, each time the one with the best mixture
of its relevance and its likeness to what has been taken. The kernel and the
fallbacks carry along, for each candidate, its greatest likeness so far. Over
exact rationals they all make the greedy selection that looks at every taken
candidate anew. They differ on embeddings of several lengths, and on too many
or too few scores.
-/

set_option autoImplicit false

namespace Uru.Accel.Mmr
open Uru.Lib.Greedy

def dot (a b : List ℚ) : ℚ := (List.zipWith (fun x y => x*y) a b).sum

theorem dot_comm (a b : List ℚ) : dot a b = dot b a := by
  unfold dot
  rw [List.zipWith_comm]
  simp only [mul_comm]

section Loops

variable {n : ℕ}

/-- `none` in `max_sim` is minus infinity. -/
structure State (n : ℕ) where
  available : Fin n → Bool
  selected : List (Fin n)
  maxSim : Fin n → Option ℚ

def start (n : ℕ) : State n := ⟨fun _ => true,[],fun _ => none⟩

variable (embeddings : Fin n → List ℚ) (scores : Fin n → ℚ) (lambdaParam : ℚ)

def simToSelected (s : State n) (i : Fin n) : ℚ :=
  if s.selected = [] then 0 else (s.maxSim i).elim 0 (fun m => max 0 m)

def mmr (s : State n) (i : Fin n) : ℚ :=
  lambdaParam*scores i-(1-lambdaParam)*simToSelected s i

/-- The inner loop: a strictly better candidate replaces the best one so far. -/
def scan (s : State n) : Option (Fin n × ℚ) :=
  (List.finRange n).foldl (fun best i =>
    if !s.available i then best
    else
      match best with
      | none => some (i,mmr scores lambdaParam s i)
      | some (bestIdx,bestMmr) =>
        if bestMmr < mmr scores lambdaParam s i then some (i,mmr scores lambdaParam s i)
        else some (bestIdx,bestMmr)) none

def exceeds (d : ℚ) : Option ℚ → Bool
  | none => true
  | some m => m < d

/-- The update of the kernel, which writes the first likeness unasked. -/
def rustUpdate (selected : List (Fin n)) (bestIdx i : Fin n) (maxSim : Option ℚ) : Option ℚ :=
  let d := dot (embeddings bestIdx) (embeddings i)
  if selected.length = 1 then some d else if exceeds d maxSim then some d else maxSim

def numpyUpdate (_selected : List (Fin n)) (bestIdx i : Fin n) (maxSim : Option ℚ) : Option ℚ :=
  let d := dot (embeddings i) (embeddings bestIdx)
  if exceeds d maxSim then some d else maxSim

def pythonUpdate (_selected : List (Fin n)) (bestIdx i : Fin n) (maxSim : Option ℚ) : Option ℚ :=
  let d := dot (embeddings bestIdx) (embeddings i)
  if exceeds d maxSim then some d else maxSim

variable (update : List (Fin n) → Fin n → Fin n → Option ℚ → Option ℚ)

def round (s : State n) (bestIdx : Fin n) : State n :=
  let available := fun i => s.available i && i ≠ bestIdx
  let selected := s.selected++[bestIdx]
  ⟨available,selected,fun i =>
    if available i then update selected bestIdx i (s.maxSim i) else s.maxSim i⟩

def rounds : ℕ → State n → State n
  | 0, s => s
  | k+1, s =>
    match scan scores lambdaParam s with
    | none => s
    | some (bestIdx,_) => rounds k (round update s bestIdx)

def mmrWith (k : ℕ) : List (Fin n) :=
  if n = 0 ∨ k = 0 then [] else (rounds scores lambdaParam update (min k n) (start n)).selected

def mmrRust (k : ℕ) : List (Fin n) := mmrWith scores lambdaParam (rustUpdate embeddings) k

def mmrNumpy (k : ℕ) : List (Fin n) := mmrWith scores lambdaParam (numpyUpdate embeddings) k

def mmrPython (k : ℕ) : List (Fin n) := mmrWith scores lambdaParam (pythonUpdate embeddings) k

end Loops

inductive Raised where
  | inhomogeneous
  | scoresLength
  | index
deriving DecidableEq

section Paths

variable (embeddings : List (List ℚ)) (scores : List ℚ) (lambdaParam : ℚ) (k : ℕ)

/-- A matrix needs rows of one length. -/
def homogeneous : Bool := embeddings.all (fun e => e.length = (embeddings.headD []).length)

def rows (i : Fin embeddings.length) : List ℚ := embeddings.get i

def relevance (i : Fin embeddings.length) : ℚ := scores.getD i 0

def selectRust : Except Raised (List (Fin embeddings.length)) :=
  if embeddings.length = 0 ∨ k = 0 then .ok []
  else if !homogeneous embeddings then .error .inhomogeneous
  else if scores.length ≠ embeddings.length then .error .scoresLength
  else .ok (mmrRust (rows embeddings) (relevance embeddings scores) lambdaParam k)

def selectNumpy : Except Raised (List (Fin embeddings.length)) :=
  if embeddings.length = 0 ∨ k = 0 then .ok []
  else if !homogeneous embeddings then .error .inhomogeneous
  else if scores.length < embeddings.length then .error .index
  else .ok (mmrNumpy (rows embeddings) (relevance embeddings scores) lambdaParam k)

/-- The products are cut to the shorter row. -/
def selectPython : Except Raised (List (Fin embeddings.length)) :=
  if embeddings.length = 0 ∨ k = 0 then .ok []
  else if scores.length < embeddings.length then .error .index
  else .ok (mmrPython (rows embeddings) (relevance embeddings scores) lambdaParam k)

end Paths

section Greedy

variable {n : ℕ} (embeddings : Fin n → List ℚ) (scores : Fin n → ℚ) (lambdaParam : ℚ)

def likeness (selected : List (Fin n)) (i : Fin n) : ℚ :=
  (selected.map (fun s => dot (embeddings i) (embeddings s))).foldl max 0

/-- `lambda * relevance - (1 - lambda) * max_similarity_to_selected`. -/
def marginal (selected : List (Fin n)) (i : Fin n) : ℚ :=
  lambdaParam*scores i-(1-lambdaParam)*likeness embeddings selected i

def greedy (k : ℕ) : List (Fin n) :=
  select (marginal embeddings scores lambdaParam) (List.finRange n) k

structure Tracks (s : State n) : Prop where
  available : ∀ i, s.available i = true ↔ i ∉ s.selected
  maxSim : ∀ i, i ∉ s.selected → s.selected ≠ [] →
    ∃ m, s.maxSim i = some m ∧ max 0 m = likeness embeddings s.selected i
  fresh : s.selected = [] → ∀ i, s.maxSim i = none

variable {embeddings scores lambdaParam} {s : State n}

theorem tracks_start : Tracks embeddings (start n) :=
  ⟨by simp [start], by simp [start], fun _ _ => rfl⟩

theorem mmr_marginal (h : Tracks embeddings s) {i : Fin n} (hi : i ∉ s.selected) :
    mmr scores lambdaParam s i = marginal embeddings scores lambdaParam s.selected i := by
  have hsim : simToSelected s i = likeness embeddings s.selected i := by
    unfold simToSelected
    split_ifs with hempty
    · rw [hempty]
      rfl
    · obtain ⟨m, hm, hlike⟩ := h.maxSim i hi hempty
      rw [hm, ← hlike]
      rfl
  rw [mmr, marginal, hsim]

/-- Skipping the taken candidates is the same as leaving them out. -/
theorem scan_best (h : Tracks embeddings s) :
    (scan scores lambdaParam s).map Prod.fst =
      best (marginal embeddings scores lambdaParam s.selected)
        (rest (List.finRange n) s.selected) ∧
    ∀ i m, scan scores lambdaParam s = some (i,m) → m = mmr scores lambdaParam s i := by
  unfold scan rest
  generalize List.finRange n = l
  induction l using List.reverseRecOn with
  | nil => exact ⟨rfl, by simp⟩
  | append_singleton l x ih =>
    obtain ⟨hmap, hvalue⟩ := ih
    rw [List.foldl_append, List.foldl_cons, List.foldl_nil, List.filter_append]
    by_cases hx : x ∈ s.selected
    · have havail : s.available x = false := by
        rw [← Bool.not_eq_true, h.available]
        exact not_not.mpr hx
      rw [havail, Bool.not_false, if_pos rfl]
      simpa [hx] using And.intro hmap hvalue
    · have havail : s.available x = true := (h.available x).mpr hx
      have hfilter : [x].filter (fun a => a ∉ s.selected) = [x] := by simp [hx]
      rw [havail, Bool.not_true, if_neg Bool.false_ne_true, hfilter, best_append, ← hmap]
      generalize hscan : l.foldl _ none = found at hmap hvalue ⊢
      cases found with
      | none =>
        refine ⟨rfl, fun i m hfound => ?_⟩
        cases hfound
        rfl
      | some found =>
        obtain ⟨b, m⟩ := found
        have hm := hvalue b m rfl
        have hb : b ∉ s.selected := by
          have hmem := (best_isBest hmap.symm).mem
          exact of_decide_eq_true (List.mem_filter.mp hmem).2
        simp only [Option.map_some, better]
        rw [← mmr_marginal h hb, ← mmr_marginal h hx, ← hm]
        split_ifs
        · refine ⟨rfl, fun i m' hfound => ?_⟩
          cases hfound
          rfl
        · exact ⟨rfl, hvalue⟩

structure Keeps (embeddings : Fin n → List ℚ)
    (update : List (Fin n) → Fin n → Fin n → Option ℚ → Option ℚ) : Prop where
  first : ∀ selected b i, update selected b i none = some (dot (embeddings i) (embeddings b))
  later : ∀ selected b i m, selected.length ≠ 1 →
    update selected b i (some m) = some (max m (dot (embeddings i) (embeddings b)))

theorem exceeds_max (d m : ℚ) : (if exceeds d (some m) then some d else some m) = some (max m d) := by
  simp only [exceeds, decide_eq_true_eq]
  split_ifs with h
  · rw [max_eq_right h.le]
  · rw [max_eq_left (not_lt.mp h)]

theorem exceeds_first (d : ℚ) : (if exceeds d none then some d else none) = some d := rfl

theorem rust_keeps : Keeps embeddings (rustUpdate embeddings) where
  first selected b i := by
    rw [rustUpdate, dot_comm]
    split_ifs with h h'
    · rfl
    · rfl
    · exact absurd rfl h'
  later selected b i m h := by
    rw [rustUpdate, if_neg h, dot_comm]
    exact exceeds_max _ m

theorem numpy_keeps : Keeps embeddings (numpyUpdate embeddings) where
  first _ _ _ := exceeds_first _
  later _ _ _ m _ := exceeds_max _ m

theorem python_keeps : Keeps embeddings (pythonUpdate embeddings) where
  first selected b i := by
    rw [pythonUpdate, dot_comm]
    exact exceeds_first _
  later selected b i m _ := by
    rw [pythonUpdate, dot_comm]
    exact exceeds_max _ m

variable {update : List (Fin n) → Fin n → Fin n → Option ℚ → Option ℚ}

theorem likeness_append (selected : List (Fin n)) (b i : Fin n) :
    likeness embeddings (selected++[b]) i =
      max (likeness embeddings selected i) (dot (embeddings i) (embeddings b)) := by
  rw [likeness, List.map_append, List.foldl_append]
  rfl

theorem tracks_round (hu : Keeps embeddings update) (h : Tracks embeddings s) (b : Fin n) :
    Tracks embeddings (round update s b) where
  available i := by
    show (s.available i && i ≠ b) = true ↔ i ∉ s.selected++[b]
    rw [Bool.and_eq_true, h.available, decide_eq_true_eq, List.mem_append, List.mem_singleton,
      not_or]
  maxSim i hi _ := by
    have hi' : i ∉ s.selected ∧ i ≠ b := by
      have hmem : i ∉ s.selected++[b] := hi
      rwa [List.mem_append, List.mem_singleton, not_or] at hmem
    have havail : (s.available i && i ≠ b) = true := by
      rw [Bool.and_eq_true, h.available, decide_eq_true_eq]
      exact hi'
    have hnew : (round update s b).maxSim i = update (s.selected++[b]) b i (s.maxSim i) :=
      if_pos havail
    rw [hnew]
    show ∃ m, _ ∧ _ = likeness embeddings (s.selected++[b]) i
    rw [likeness_append]
    by_cases hempty : s.selected = []
    · rw [h.fresh hempty, hu.first, hempty]
      exact ⟨_, rfl, rfl⟩
    · obtain ⟨m, hm, hlike⟩ := h.maxSim i hi'.1 hempty
      have hlen : (s.selected++[b]).length ≠ 1 := by
        have hpos := List.length_pos_iff.mpr hempty
        rw [List.length_append, List.length_singleton]
        omega
      rw [hm, hu.later _ _ _ _ hlen]
      exact ⟨_, rfl, by rw [← hlike, max_assoc]⟩
  fresh hempty := by
    have hne : s.selected++[b] ≠ [] := by simp
    exact absurd hempty hne

/-- So many rounds later the loops have made so many greedy rounds. -/
theorem rounds_greedy (hu : Keeps embeddings update) (k j : ℕ) (h : Tracks embeddings s)
    (hs : s.selected = greedy embeddings scores lambdaParam j) :
    (rounds scores lambdaParam update k s).selected =
      greedy embeddings scores lambdaParam (j+k) := by
  induction k generalizing s j with
  | zero => exact hs
  | succ k ih =>
    obtain ⟨hbest, -⟩ := @scan_best n embeddings scores lambdaParam s h
    rw [rounds]
    cases hscan : scan scores lambdaParam s with
    | none =>
      rw [hscan, Option.map_none] at hbest
      have hdone := best_none.mp hbest.symm
      rw [hs] at hdone
      rw [hs]
      exact (select_done hdone (k+1)).symm
    | some found =>
      obtain ⟨b, m⟩ := found
      rw [hscan, Option.map_some] at hbest
      have hround : (round update s b).selected = greedy embeddings scores lambdaParam (j+1) := by
        show s.selected++[b] = select _ _ (j+1)
        rw [select, ← greedy, ← hs, ← hbest]
      rw [ih (j+1) (tracks_round hu h b) hround, Nat.add_right_comm, Nat.add_assoc]

theorem mmrWith_greedy (hu : Keeps embeddings update) (k : ℕ) :
    mmrWith scores lambdaParam update k = greedy embeddings scores lambdaParam k := by
  have hmin : greedy embeddings scores lambdaParam (min k n) =
      greedy embeddings scores lambdaParam k := by
    have h := @select_bounded (Fin n) ℚ _ _ (marginal embeddings scores lambdaParam)
      (List.finRange n) (List.nodup_finRange n) k
    rwa [List.length_finRange] at h
  unfold mmrWith
  split_ifs with hnone
  · rw [← hmin]
    rcases hnone with rfl | rfl
    · rw [Nat.min_zero]
      rfl
    · rw [Nat.zero_min]
      rfl
  · rw [rounds_greedy hu (min k n) 0 tracks_start rfl, Nat.zero_add, hmin]

theorem mmrRust_greedy (embeddings : Fin n → List ℚ) (scores : Fin n → ℚ) (lambdaParam : ℚ)
    (k : ℕ) : mmrRust embeddings scores lambdaParam k = greedy embeddings scores lambdaParam k :=
  mmrWith_greedy rust_keeps k

/-- The kernel and both fallbacks make the greedy selection, for embeddings of one length with
one score each. -/
theorem paths_agree {embeddings : List (List ℚ)} {scores : List ℚ}
    (hdim : ∀ e ∈ embeddings, ∀ e' ∈ embeddings, e.length = e'.length)
    (hlen : scores.length = embeddings.length) (lambdaParam : ℚ) (k : ℕ) :
    selectRust embeddings scores lambdaParam k =
      .ok (greedy (rows embeddings) (relevance embeddings scores) lambdaParam k) ∧
    selectNumpy embeddings scores lambdaParam k =
      .ok (greedy (rows embeddings) (relevance embeddings scores) lambdaParam k) ∧
    selectPython embeddings scores lambdaParam k =
      .ok (greedy (rows embeddings) (relevance embeddings scores) lambdaParam k) := by
  have hrows : homogeneous embeddings = true := by
    unfold homogeneous
    cases embeddings with
    | nil => rfl
    | cons e embeddings =>
      exact List.all_eq_true.mpr (fun e' he' => decide_eq_true (hdim e' he' e List.mem_cons_self))
  have hnone : embeddings.length = 0 ∨ k = 0 →
      greedy (rows embeddings) (relevance embeddings scores) lambdaParam k = [] := by
    intro h
    rw [← mmrWith_greedy python_keeps k, mmrWith, if_pos h]
  unfold selectRust selectNumpy selectPython
  by_cases h : embeddings.length = 0 ∨ k = 0
  · rw [if_pos h, if_pos h, if_pos h, hnone h]
    exact ⟨rfl, rfl, rfl⟩
  · rw [if_neg h, if_neg h, if_neg h, hrows, Bool.not_true, if_neg Bool.false_ne_true,
      if_neg Bool.false_ne_true, if_neg (not_not.mpr hlen), if_neg hlen.not_lt,
      if_neg hlen.not_lt]
    exact ⟨congrArg _ (mmrWith_greedy rust_keeps k), congrArg _ (mmrWith_greedy numpy_keeps k),
      congrArg _ (mmrWith_greedy python_keeps k)⟩

theorem paths_agree_three :
    selectRust [[1,0],[1,0],[0,1]] [9/10,8/10,1/2] (1/2) 2 = .ok [0,2] ∧
      selectPython [[1,0],[1,0],[0,1]] [9/10,8/10,1/2] (1/2) 2 = .ok [0,2] := by
  obtain ⟨hrust, -, hpython⟩ := @paths_agree [[1,0],[1,0],[0,1]] [9/10,8/10,1/2] (by decide)
    (by decide) (1/2) 2
  have hgreedy : greedy (rows [[1,0],[1,0],[0,1]]) (relevance [[1,0],[1,0],[0,1]]
      [9/10,8/10,1/2]) (1/2) 2 = [0,2] := by
    decide +kernel
  rw [hrust, hpython, hgreedy]
  exact ⟨rfl, rfl⟩

/-- No candidate is taken twice and none is missing while there are any; each was the earliest
of the best when it was taken; asking for more only adds to a selection; and where relevance
alone counts, the selection is the beginning of the stable sort by relevance. -/
theorem selection_spec (embeddings : Fin n → List ℚ) (scores : Fin n → ℚ) (lambdaParam : ℚ)
    (k : ℕ) :
    (mmrRust embeddings scores lambdaParam k).Nodup ∧
    (mmrRust embeddings scores lambdaParam k).length = min k n ∧
    (∀ i : Fin (mmrRust embeddings scores lambdaParam k).length,
      IsBest
        (marginal embeddings scores lambdaParam
          ((mmrRust embeddings scores lambdaParam k).take i))
        (rest (List.finRange n) ((mmrRust embeddings scores lambdaParam k).take i))
        ((mmrRust embeddings scores lambdaParam k).get i)) ∧
    (∀ m, mmrRust embeddings scores lambdaParam k <+:
      mmrRust embeddings scores lambdaParam (k+m)) ∧
    mmrRust embeddings scores 1 k = (falling scores (List.finRange n)).take k := by
  rw [mmrRust_greedy embeddings scores lambdaParam k, mmrRust_greedy embeddings scores 1 k]
  have hlen := @select_length (Fin n) ℚ _ _ (marginal embeddings scores lambdaParam)
    (List.finRange n) (List.nodup_finRange n) k
  rw [List.length_finRange] at hlen
  refine ⟨select_nodup k, hlen, fun i => select_best k i i.isLt, fun m => ?_, ?_⟩
  · rw [mmrRust_greedy]
    exact select_grows k m
  · have hconst : ∀ sel i, marginal embeddings scores 1 sel i = (fun _ => scores) sel i := by
      intro sel i
      rw [marginal, one_mul, sub_self, zero_mul, sub_zero]
    rw [greedy, select_congr hconst, select_take (List.nodup_finRange n)]

end Greedy

end Uru.Accel.Mmr
