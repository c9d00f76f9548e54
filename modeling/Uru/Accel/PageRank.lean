import Mathlib.Algebra.BigOperators.Fin
import Mathlib.Algebra.Order.Field.Rat
import Mathlib.Logic.Relation
import Mathlib.Tactic
import Uru.Lib.Damped

/-!
# PageRank

Scores flow along weighted edges, each node giving its score away in shares of
its outgoing weight; a part of every score comes from a fixed distribution, the
seeds. The kernel and its fallback do the same. The iteration is a damped one:
where no weight is negative it tends to a single vector of scores, and nodes
that cannot be reached from the seeds score nothing.
-/

set_option autoImplicit false

namespace Uru.Accel.PageRank
open Uru.Lib.Damped Relation

section Kernel

variable (n : ℕ) (edges : List (ℕ × ℕ × ℚ))

/-- Negative entries count as zero; a list of another length, or of zeros only,
gives way to the uniform distribution. -/
def teleport (personalization : Option (List ℚ)) : Fin n → ℚ :=
  let uniform : Fin n → ℚ := fun _ => 1/n
  match personalization with
  | none => uniform
  | some v =>
    let clipped := v.map (fun x => if 0 < x then x else 0)
    let total := clipped.sum
    if v.length = n ∧ 0 < total then fun i => clipped.getD i 0/total else uniform

def kept : List (Fin n × Fin n × ℚ) :=
  edges.filterMap (fun e =>
    if h : e.1 < n ∧ e.2.1 < n then some (⟨e.1,h.1⟩,⟨e.2.1,h.2⟩,e.2.2) else none)

def incoming (node : Fin n) : List (Fin n × ℚ) :=
  ((kept n edges).filter (fun e => e.2.1 = node)).map (fun e => (e.1,e.2.2))

def outDegree (src : Fin n) : ℚ :=
  (((kept n edges).filter (fun e => e.1 = src)).map (fun e => e.2.2)).sum

def contrib (scores : Fin n → ℚ) (node : Fin n) : ℚ :=
  ((incoming n edges node).map (fun e =>
    if 0 < outDegree n edges e.1 then scores e.1*e.2/outDegree n edges e.1 else 0)).sum

def newScores (damping : ℚ) (p scores : Fin n → ℚ) (node : Fin n) : ℚ :=
  (1-damping)*p node+damping*contrib n edges scores node

/-- From the seeds on, until the scores change by less than the threshold. -/
def pagerank (damping : ℚ) (maxIter : ℕ) (tol : ℚ) (personalization : Option (List ℚ)) :
    Fin n → ℚ :=
  iterateUntil (fun new old => distance new old < tol)
    (newScores n edges damping (teleport n personalization)) maxIter
    (teleport n personalization)

end Kernel

section Teleport

variable {n : ℕ}

theorem teleport_nonneg (personalization : Option (List ℚ)) (i : Fin n) :
    0 ≤ teleport n personalization i := by
  unfold teleport
  cases personalization with
  | none => positivity
  | some v =>
    simp only
    split_ifs with h
    · refine div_nonneg ?_ h.2.le
      rw [List.getD_eq_getElem?_getD, List.getElem?_map]
      cases v[(i : ℕ)]? with
      | none => exact le_rfl
      | some x =>
        simp only [Option.map_some, Option.getD_some]
        split_ifs with hx
        · exact hx.le
        · exact le_rfl
    · positivity

theorem sum_getD (l : List ℚ) : ∑ i : Fin l.length, l.getD i 0 = l.sum := by
  rw [← Fin.sum_univ_getElem l]
  refine Finset.sum_congr rfl (fun i _ => ?_)
  rw [List.getD_eq_getElem?_getD, List.getElem?_eq_getElem i.isLt, Option.getD_some]

theorem teleport_total (hn : 0 < n) (personalization : Option (List ℚ)) :
    ∑ i, teleport n personalization i = 1 := by
  have hn' : (n : ℚ) ≠ 0 := by exact_mod_cast hn.ne'
  have huniform : ∑ _i : Fin n, 1/(n : ℚ) = 1 := by
    rw [Finset.sum_const, Finset.card_univ, Fintype.card_fin, nsmul_eq_mul, mul_one_div_cancel hn']
  unfold teleport
  cases personalization with
  | none => exact huniform
  | some v =>
    simp only
    split_ifs with h
    · obtain ⟨hlen, htotal⟩ := h
      rw [← Finset.sum_div]
      have hlen' : (v.map (fun x => if 0 < x then x else 0)).length = n := by
        rw [List.length_map, hlen]
      have hsum := sum_getD (v.map (fun x => if 0 < x then x else 0))
      rw [hlen'] at hsum
      rw [hsum, div_self htotal.ne']
    · exact huniform

/-- A vector without negative entries is brought to the total one. -/
theorem teleport_given {v : List ℚ} (hlen : v.length = n) (hv : ∀ x ∈ v, 0 ≤ x)
    (hsum : 0 < v.sum) (i : Fin n) : teleport n (some v) i = v.getD i 0/v.sum := by
  have hclipped : v.map (fun x => if 0 < x then x else 0) = v := by
    apply (List.map_congr_left (fun x hx => ?_)).trans (List.map_id v)
    split_ifs with hpos
    · rfl
    · exact le_antisymm (hv x hx) (not_lt.mp hpos)
  unfold teleport
  simp only [hclipped]
  rw [if_pos ⟨hlen, hsum⟩]

end Teleport

section Shares

variable {n : ℕ}

def share (n : ℕ) (edges : List (ℕ × ℕ × ℚ)) (i j : Fin n) : ℚ :=
  (((kept n edges).filter (fun e => e.1 = j ∧ e.2.1 = i)).map (fun e =>
    if 0 < outDegree n edges j then e.2.2/outDegree n edges j else 0)).sum

theorem sum_filter {α : Type} (q : α → Prop) [DecidablePred q] (f : α → ℚ) (l : List α) :
    ((l.filter (fun a => q a)).map f).sum = (l.map (fun a => if q a then f a else 0)).sum := by
  induction l with
  | nil => rfl
  | cons a l ih =>
    by_cases ha : q a
    · rw [List.filter_cons_of_pos (by simpa using ha), List.map_cons, List.map_cons,
        List.sum_cons, List.sum_cons, ih, if_pos ha]
    · rw [List.filter_cons_of_neg (by simpa using ha), List.map_cons, List.sum_cons, ih,
        if_neg ha, zero_add]

theorem sum_swap {α : Type} (f : Fin n → α → ℚ) (l : List α) :
    ∑ j, (l.map (f j)).sum = (l.map (fun a => ∑ j, f j a)).sum := by
  induction l with
  | nil => simp
  | cons a l ih =>
    simp only [List.map_cons, List.sum_cons]
    rw [Finset.sum_add_distrib, ih]

theorem contrib_flow (edges : List (ℕ × ℕ × ℚ)) (scores : Fin n → ℚ) :
    contrib n edges scores = flow (share n edges) scores := by
  funext i
  have hshare : ∀ j, share n edges i j*scores j = ((kept n edges).map (fun e =>
      if e.1 = j ∧ e.2.1 = i then
        (if 0 < outDegree n edges j then e.2.2/outDegree n edges j else 0)*scores j
      else 0)).sum := by
    intro j
    rw [share, sum_filter, ← List.sum_map_mul_right]
    refine congrArg List.sum (List.map_congr_left (fun e _ => ?_))
    rw [ite_mul, zero_mul]
  unfold flow
  rw [Finset.sum_congr rfl (fun j _ => hshare j), sum_swap, contrib, incoming, List.map_map,
    sum_filter]
  refine congrArg List.sum (List.map_congr_left (fun e _ => ?_))
  by_cases hi : e.2.1 = i
  · simp only [hi, and_true, if_pos]
    rw [Finset.sum_ite_eq Finset.univ e.1, if_pos (Finset.mem_univ e.1)]
    simp only [Function.comp_apply]
    split_ifs
    · ring
    · ring
  · simp [hi]

theorem mem_kept {edges : List (ℕ × ℕ × ℚ)} {a b : Fin n} {w : ℚ} :
    (a,b,w) ∈ kept n edges ↔ (a.val,b.val,w) ∈ edges := by
  rw [kept, List.mem_filterMap]
  constructor
  · rintro ⟨e, he, heq⟩
    split_ifs at heq
    cases heq
    exact he
  · exact fun he => ⟨_, he, by simp⟩

theorem kept_nonneg {edges : List (ℕ × ℕ × ℚ)} (hw : ∀ e ∈ edges, 0 ≤ e.2.2) :
    ∀ e ∈ kept n edges, 0 ≤ e.2.2 := by
  intro e he
  obtain ⟨e', he', heq⟩ := List.mem_filterMap.mp he
  split_ifs at heq
  cases heq
  exact hw e' he'

theorem share_total (edges : List (ℕ × ℕ × ℚ)) (j : Fin n) :
    ∑ i, share n edges i j = if 0 < outDegree n edges j then 1 else 0 := by
  have heach : ∀ i, share n edges i j = ((kept n edges).map (fun e =>
      if e.1 = j ∧ e.2.1 = i then
        (if 0 < outDegree n edges j then e.2.2/outDegree n edges j else 0)
      else 0)).sum := fun i => by rw [share, sum_filter]
  rw [Finset.sum_congr rfl (fun i _ => heach i), sum_swap]
  have hnode : ∀ e : Fin n × Fin n × ℚ, ∑ i, (if e.1 = j ∧ e.2.1 = i then
      (if 0 < outDegree n edges j then e.2.2/outDegree n edges j else 0) else 0) =
        if e.1 = j then
          (if 0 < outDegree n edges j then e.2.2/outDegree n edges j else 0) else 0 := by
    intro e
    by_cases hj : e.1 = j
    · simp [hj]
    · simp [hj]
  rw [List.map_congr_left (fun e _ => hnode e), ← sum_filter]
  split_ifs with hdeg
  · have hdiv : (((kept n edges).filter (fun e => e.1 = j)).map
        (fun e => e.2.2/outDegree n edges j)).sum =
          outDegree n edges j/outDegree n edges j := by
      simp only [div_eq_mul_inv]
      rw [List.sum_map_mul_right, ← outDegree]
    rw [hdiv, div_self hdeg.ne']
  · simp

theorem share_substochastic {edges : List (ℕ × ℕ × ℚ)} (hw : ∀ e ∈ edges, 0 ≤ e.2.2) :
    Substochastic (share n edges) where
  nonneg i j := by
    refine List.sum_nonneg (fun x hx => ?_)
    obtain ⟨e, he, rfl⟩ := List.mem_map.mp hx
    split_ifs with hdeg
    · exact div_nonneg (kept_nonneg hw e (List.mem_filter.mp he).1) hdeg.le
    · exact le_rfl
  column j := by
    rw [share_total]
    split_ifs
    · exact le_rfl
    · exact zero_le_one

theorem newScores_step (edges : List (ℕ × ℕ × ℚ)) (damping : ℚ) (p : Fin n → ℚ) :
    newScores n edges damping p = step (share n edges) damping p := by
  funext scores node
  rw [newScores, step, contrib_flow]

end Shares

section Scores

variable {n : ℕ} {edges : List (ℕ × ℕ × ℚ)} {damping : ℚ}

theorem teleport_total_le (personalization : Option (List ℚ)) :
    ∑ i, teleport n personalization i ≤ 1 := by
  rcases Nat.eq_zero_or_pos n with rfl | hn
  · simp
  · exact (teleport_total hn personalization).le

theorem lower_bound (hw : ∀ e ∈ edges, 0 ≤ e.2.2) (hd : 0 ≤ damping) (hd' : damping ≤ 1)
    (maxIter : ℕ) (tol : ℚ) (personalization : Option (List ℚ)) (i : Fin n) :
    (1-damping)*teleport n personalization i ≤
      pagerank n edges damping maxIter tol personalization i := by
  have hm := share_substochastic (n := n) hw
  have hp := teleport_nonneg (n := n) personalization
  revert i
  apply iterateUntil_keeps (P := fun x : Fin n → ℚ =>
    ∀ i, (1-damping)*teleport n personalization i ≤ x i)
  · intro x hx i
    have hnonneg : ∀ j, 0 ≤ x j := fun j =>
      (mul_nonneg (sub_nonneg.mpr hd') (hp j)).trans (hx j)
    rw [newScores_step]
    exact le_add_of_nonneg_right (mul_nonneg hd (flow_nonneg hm hnonneg i))
  · exact fun i => mul_le_of_le_one_left (hp i) (sub_le_self 1 hd)

/-- Every node keeps its part of the seeds' distribution, and no score is made out of
nothing; where every node passes its score on, none is lost either. -/
theorem pagerank_bounds (hw : ∀ e ∈ edges, 0 ≤ e.2.2) (hd : 0 ≤ damping) (hd' : damping ≤ 1)
    (maxIter : ℕ) (tol : ℚ) (personalization : Option (List ℚ)) :
    (∀ i, (1-damping)*teleport n personalization i ≤
      pagerank n edges damping maxIter tol personalization i) ∧
    ∑ i, pagerank n edges damping maxIter tol personalization i ≤ 1 ∧
    (0 < n → (∀ i, 0 < outDegree n edges i) →
      ∑ i, pagerank n edges damping maxIter tol personalization i = 1) := by
  have hm := share_substochastic (n := n) hw
  have hp := teleport_nonneg (n := n) personalization
  refine ⟨lower_bound hw hd hd' maxIter tol personalization, ?_, ?_⟩
  · have hkept : (∀ i, 0 ≤ pagerank n edges damping maxIter tol personalization i) ∧
        ∑ i, pagerank n edges damping maxIter tol personalization i ≤ 1 := by
      apply iterateUntil_keeps (P := fun x : Fin n → ℚ => (∀ i, 0 ≤ x i) ∧ ∑ i, x i ≤ 1)
      · intro x hx
        rw [newScores_step]
        exact ⟨step_nonneg hm hd hd' hp hx.1,
          step_total_le hm hd hd' (teleport_total_le personalization) hx.1 hx.2⟩
      · exact ⟨hp, teleport_total_le personalization⟩
    exact hkept.2
  · intro hn hdeg
    apply iterateUntil_keeps (P := fun x : Fin n → ℚ => ∑ i, x i = 1)
    · intro x hx
      have hflow : ∑ i, flow (share n edges) x i = 1 := by
        rw [flow_total, ← hx]
        refine Finset.sum_congr rfl (fun j _ => ?_)
        rw [share_total, if_pos (hdeg j), one_mul]
      rw [newScores_step, step_total, hflow, teleport_total hn]
      ring
    · exact teleport_total hn personalization

theorem pagerank_bounds_cycle :
    ∑ i, pagerank 3 [(0,1,1),(1,2,1),(2,0,1)] (85/100) 100 (1/1000000) (some [1,0,0]) i = 1 :=
  (pagerank_bounds (by decide) (by norm_num) (by norm_num) 100 (1/1000000)
    (some [1,0,0])).2.2 (by decide) (by decide +kernel)

def Reached (n : ℕ) (edges : List (ℕ × ℕ × ℚ)) (p : Fin n → ℚ) (i : Fin n) : Prop :=
  ∃ s, 0 < p s ∧ ReflTransGen (fun a b => ∃ w, 0 < w ∧ (a,b,w) ∈ kept n edges) s i

theorem share_pos_iff (hw : ∀ e ∈ edges, 0 ≤ e.2.2) (a b : Fin n) :
    0 < share n edges b a ↔ ∃ w, 0 < w ∧ (a,b,w) ∈ kept n edges := by
  have hkept := kept_nonneg (n := n) hw
  have hterm : ∀ e ∈ kept n edges,
      0 ≤ if 0 < outDegree n edges a then e.2.2/outDegree n edges a else 0 := by
    intro e he
    split_ifs with hdeg
    · exact div_nonneg (hkept e he) hdeg.le
    · exact le_rfl
  constructor
  · intro h
    by_contra hnone
    have hzero : share n edges b a = 0 := by
      apply List.sum_eq_zero
      intro x hx
      obtain ⟨e, he, rfl⟩ := List.mem_map.mp hx
      obtain ⟨he, hends⟩ := List.mem_filter.mp he
      obtain ⟨h1, h2⟩ := of_decide_eq_true hends
      have hweight : e.2.2 = 0 := by
        refine le_antisymm (not_lt.mp (fun hpos => hnone ⟨e.2.2, hpos, ?_⟩)) (hkept e he)
        rw [← h1, ← h2]
        exact he
      rw [hweight, zero_div, ite_self]
    exact h.ne' hzero
  · rintro ⟨w, hpos, he⟩
    have hdeg : 0 < outDegree n edges a := by
      have hle : w ≤ outDegree n edges a := by
        apply List.single_le_sum
        · intro x hx
          obtain ⟨e', he', rfl⟩ := List.mem_map.mp hx
          exact hkept e' (List.mem_filter.mp he').1
        · exact List.mem_map.mpr ⟨(a,b,w), List.mem_filter.mpr ⟨he, by simp⟩, rfl⟩
      exact hpos.trans_le hle
    have hle : w/outDegree n edges a ≤ share n edges b a := by
      apply List.single_le_sum
      · intro x hx
        obtain ⟨e', he', rfl⟩ := List.mem_map.mp hx
        exact hterm e' (List.mem_filter.mp he').1
      · exact List.mem_map.mpr ⟨(a,b,w), List.mem_filter.mpr ⟨he, by simp⟩, by simp [hdeg]⟩
    exact (div_pos hpos hdeg).trans_le hle

theorem reached_iff (hw : ∀ e ∈ edges, 0 ≤ e.2.2) (p : Fin n → ℚ) (i : Fin n) :
    Reached n edges p i ↔ Supplied (share n edges) p i := by
  unfold Reached Supplied
  simp only [share_pos_iff hw]

/-- A node that the seeds do not reach scores nothing. -/
theorem unreached_zero (hw : ∀ e ∈ edges, 0 ≤ e.2.2) (damping : ℚ) (maxIter : ℕ) (tol : ℚ)
    (personalization : Option (List ℚ)) {i : Fin n}
    (hi : ¬ Reached n edges (teleport n personalization) i) :
    pagerank n edges damping maxIter tol personalization i = 0 := by
  have hm := share_substochastic (n := n) hw
  have hp := teleport_nonneg (n := n) personalization
  revert i
  apply iterateUntil_keeps (P := fun x : Fin n → ℚ =>
    ∀ {i}, ¬ Reached n edges (teleport n personalization) i → x i = 0)
  · intro x hx i hi
    rw [newScores_step]
    refine step_unsupplied hm hp (fun j hj => hx ?_) ?_
    · rwa [reached_iff hw]
    · rwa [← reached_iff hw]
  · intro i hi
    exact le_antisymm (not_lt.mp (fun h => hi ⟨i, h, ReflTransGen.refl⟩)) (hp i)

def scoresAfter (n : ℕ) (edges : List (ℕ × ℕ × ℚ)) (damping : ℚ)
    (personalization : Option (List ℚ)) (k : ℕ) : Fin n → ℚ :=
  (newScores n edges damping (teleport n personalization))^[k] (teleport n personalization)

def Stops (n : ℕ) (edges : List (ℕ × ℕ × ℚ)) (damping : ℚ) (personalization : Option (List ℚ))
    (maxIter : ℕ) (tol : ℚ) : Prop :=
  ∃ k < maxIter, distance (scoresAfter n edges damping personalization (k+1))
    (scoresAfter n edges damping personalization k) < tol

/-- One vector of scores is left alone by a step, positive just where the seeds reach. If the
iteration does not stop early, the result is close to it by a power of the damping; if it
does, by the threshold. -/
theorem pagerank_accuracy (hw : ∀ e ∈ edges, 0 ≤ e.2.2) (hd : 0 ≤ damping) (hd' : damping < 1)
    (maxIter : ℕ) (tol : ℚ) (personalization : Option (List ℚ)) :
    ∃ exactScores : Fin n → ℚ,
      (∀ x, newScores n edges damping (teleport n personalization) x = x ↔ x = exactScores) ∧
      (0 < damping → ∀ i, 0 < exactScores i ↔
        Reached n edges (teleport n personalization) i) ∧
      (¬ Stops n edges damping personalization maxIter tol →
        distance (pagerank n edges damping maxIter tol personalization) exactScores ≤
          2*damping^maxIter) ∧
      (Stops n edges damping personalization maxIter tol →
        distance (pagerank n edges damping maxIter tol personalization) exactScores ≤
          damping/(1-damping)*tol) := by
  have hm := share_substochastic (n := n) hw
  have hp := teleport_nonneg (n := n) personalization
  obtain ⟨x, hx, hunique⟩ := exists_unique_fixed hm hd hd' (teleport n personalization)
  have hsmall : distance (teleport n personalization) x ≤ 2 := by
    have hseeds : distance (teleport n personalization) 0 ≤ 1 := by
      rw [distance_zero hp]
      exact teleport_total_le personalization
    have hfixed : distance x 0 ≤ 1 := fixed_size hm hd hd' hp (teleport_total_le personalization) hx
    have htriangle := distance_triangle (teleport n personalization) 0 x
    rw [distance_comm 0 x] at htriangle
    linarith
  have hsteps : ∀ k, scoresAfter n edges damping personalization k =
      (step (share n edges) damping (teleport n personalization))^[k]
        (teleport n personalization) := fun k => by
    rw [scoresAfter, newScores_step]
  have hspec := iterateUntil_spec (fun new old : Fin n → ℚ => decide (distance new old < tol))
    (newScores n edges damping (teleport n personalization)) maxIter
    (teleport n personalization)
  refine ⟨x, fun y => ⟨fun hy => hunique y (by rwa [newScores_step] at hy), ?_⟩, ?_, ?_, ?_⟩
  · rintro rfl
    rwa [newScores_step]
  · intro hpos i
    rw [reached_iff hw]
    exact fixed_pos_iff hm hpos hd' hp hx i
  · intro hopen
    rcases hspec with ⟨-, heq⟩ | ⟨j, hj, hclose, -⟩
    · have h := iterate_distance hm hd (teleport n personalization)
        (teleport n personalization) x maxIter
      rw [Function.iterate_fixed hx, ← hsteps] at h
      calc distance (pagerank n edges damping maxIter tol personalization) x
          ≤ damping^maxIter*distance (teleport n personalization) x := by
            rw [pagerank, heq]
            exact h
        _ ≤ damping^maxIter*2 := mul_le_mul_of_nonneg_left hsmall (pow_nonneg hd maxIter)
        _ = 2*damping^maxIter := mul_comm _ _
    · refine absurd ⟨j, hj, ?_⟩ hopen
      rw [scoresAfter, Function.iterate_succ_apply']
      exact of_decide_eq_true hclose
  · rintro ⟨k, hk, hclose⟩
    rcases hspec with ⟨hopen, -⟩ | ⟨j, -, hclose', heq⟩
    · rw [scoresAfter, Function.iterate_succ_apply'] at hclose
      exact absurd hclose (of_decide_eq_false (hopen k hk))
    · rw [pagerank, heq, Function.iterate_succ_apply', newScores_step]
      rw [newScores_step] at hclose'
      have h := last_difference hm hd hd' hx
        ((step (share n edges) damping (teleport n personalization))^[j]
          (teleport n personalization))
      refine h.trans (mul_le_mul_of_nonneg_left (of_decide_eq_true hclose').le ?_)
      exact div_nonneg hd (sub_pos.mpr hd').le

/-- A cycle of three nodes, from one of them. -/
theorem pagerank_accuracy_cycle : ∃ exactScores : Fin 3 → ℚ,
    newScores 3 [(0,1,1),(1,2,1),(2,0,1)] (1/2) (teleport 3 (some [1,0,0])) exactScores =
        exactScores ∧
      distance (pagerank 3 [(0,1,1),(1,2,1),(2,0,1)] (1/2) 2 (1/1000000) (some [1,0,0]))
        exactScores ≤ 2*(1/2)^2 ∧
      distance (pagerank 3 [(0,1,1),(1,2,1),(2,0,1)] (1/2) 9 (1/4) (some [1,0,0]))
        exactScores ≤ 1/2/(1-1/2)*(1/4) := by
  have hopen : ¬ Stops 3 [(0,1,1),(1,2,1),(2,0,1)] (1/2) (some [1,0,0]) 2 (1/1000000) := by
    unfold Stops
    decide +kernel
  have hstop : Stops 3 [(0,1,1),(1,2,1),(2,0,1)] (1/2) (some [1,0,0]) 9 (1/4) := by
    unfold Stops
    decide +kernel
  obtain ⟨exactScores, hfixed, -, hsteps, -⟩ := @pagerank_accuracy 3 [(0,1,1),(1,2,1),(2,0,1)]
    (1/2) (by decide) (by norm_num) (by norm_num) 2 (1/1000000) (some [1,0,0])
  obtain ⟨exactScores', hfixed', -, -, hearly⟩ := @pagerank_accuracy 3
    [(0,1,1),(1,2,1),(2,0,1)] (1/2) (by decide) (by norm_num) (by norm_num) 9 (1/4) (some [1,0,0])
  have hsame : exactScores' = exactScores := (hfixed _).mp ((hfixed' _).mpr rfl)
  exact ⟨exactScores, (hfixed _).mpr rfl, hsteps hopen, hsame ▸ hearly hstop⟩

theorem distance_relabel {n' : ℕ} (σ : Fin n ≃ Fin n') (x y : Fin n' → ℚ) :
    distance (x ∘ σ) (y ∘ σ) = distance x y :=
  Equiv.sum_comp σ (fun i => |x i-y i|)

section Relabel

variable {n' : ℕ} {edges' : List (ℕ × ℕ × ℚ)} {σ : Fin n ≃ Fin n'}

theorem outDegree_relabel
    (hperm : (kept n' edges').Perm ((kept n edges).map (fun e => (σ e.1,σ e.2.1,e.2.2))))
    (i : Fin n) : outDegree n' edges' (σ i) = outDegree n edges i := by
  have h := ((hperm.filter (fun e => e.1 = σ i)).map (fun e => e.2.2)).sum_eq
  rw [outDegree, h, List.filter_map, List.map_map, outDegree]
  simp [Function.comp_def]

theorem contrib_relabel
    (hperm : (kept n' edges').Perm ((kept n edges).map (fun e => (σ e.1,σ e.2.1,e.2.2))))
    (x : Fin n' → ℚ) (i : Fin n) :
    contrib n' edges' x (σ i) = contrib n edges (x ∘ σ) i := by
  have h := (((hperm.filter (fun e => e.2.1 = σ i)).map (fun e => (e.1,e.2.2))).map
    (fun e => if 0 < outDegree n' edges' e.1 then x e.1*e.2/outDegree n' edges' e.1 else 0)).sum_eq
  rw [contrib, incoming, h, List.filter_map, List.map_map, List.map_map, contrib, incoming,
    List.map_map]
  simp only [Function.comp_def, outDegree_relabel hperm, EmbeddingLike.apply_eq_iff_eq]

/-- Neither the numbers of the nodes nor the order of the edges matters. -/
theorem pagerank_relabel
    (hperm : (kept n' edges').Perm ((kept n edges).map (fun e => (σ e.1,σ e.2.1,e.2.2))))
    {personalization personalization' : Option (List ℚ)}
    (hp : ∀ i, teleport n' personalization' (σ i) = teleport n personalization i)
    (damping : ℚ) (maxIter : ℕ) (tol : ℚ) (i : Fin n) :
    pagerank n' edges' damping maxIter tol personalization' (σ i) =
      pagerank n edges damping maxIter tol personalization i := by
  have hseeds : teleport n' personalization' ∘ σ = teleport n personalization := funext hp
  have hstep : ∀ x, newScores n' edges' damping (teleport n' personalization') x ∘ σ =
      newScores n edges damping (teleport n personalization) (x ∘ σ) := by
    intro x
    funext j
    simp only [Function.comp_apply, newScores, hp, contrib_relabel hperm]
  have h : pagerank n' edges' damping maxIter tol personalization' ∘ σ =
      pagerank n edges damping maxIter tol personalization := by
    apply iterateUntil_simulates (R := fun (x : Fin n' → ℚ) (y : Fin n → ℚ) => x ∘ σ = y)
    · intro x y hxy
      rw [hstep, hxy]
    · intro x y hxy
      rw [← hxy, ← hstep, distance_relabel]
    · exact hseeds
  exact congrFun h i

end Relabel

end Scores

end Uru.Accel.PageRank
