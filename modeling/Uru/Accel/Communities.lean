import Mathlib.Algebra.BigOperators.Fin
import Mathlib.Data.List.FinRange
import Mathlib.Tactic
import Uru.Lib.Modularity
import Uru.Lib.Record

/-!
# Community detection

Each node is moved in turn to the neighbouring community of the largest gain,
until a pass moves nothing or the passes are used up. The totals of the
communities are kept beside the labels. The kernel in Rust reads the weights
towards the neighbouring communities from a hash map in an order of its own;
the fallback reads a dict.
-/

set_option autoImplicit false

namespace Uru.Accel.Communities
open Uru.Lib

variable {n : ℕ}

structure Network (n : ℕ) where
  adj : Fin n → List (Fin n × ℚ)
  strengths : Fin n → ℚ
  totalWeight : ℚ

def Network.empty (n : ℕ) : Network n := ⟨fun _ => [],fun _ => 0,0⟩

def Network.push (net : Network n) (src dst : Fin n) (weight : ℚ) : Network n where
  adj := Function.update net.adj src (net.adj src++[(dst,weight)])
  strengths := Function.update net.strengths src (net.strengths src+weight)
  totalWeight := net.totalWeight+weight

structure Edge where
  src : ℤ
  dst : ℤ
  weight : ℚ

def addEdge (net : Network n) (e : Edge) : Network n :=
  if h : (0 ≤ e.src ∧ e.src < n) ∧ (0 ≤ e.dst ∧ e.dst < n) ∧ e.src ≠ e.dst then
    net.push ⟨e.src.toNat,by omega⟩ ⟨e.dst.toNat,by omega⟩ e.weight
  else net

def build (n : ℕ) (edges : List Edge) : Network n := edges.foldl addEdge (Network.empty n)

/-- An edge of the kernel, with the endpoints of type `usize`. -/
structure Triple where
  src : ℕ
  dst : ℕ
  weight : ℚ

def addTriple (net : Network n) (e : Triple) : Network n :=
  if h : e.src < n ∧ e.dst < n ∧ e.src ≠ e.dst then
    net.push ⟨e.src,h.1⟩ ⟨e.dst,h.2.1⟩ e.weight
  else net

def buildTriples (n : ℕ) (edges : List Triple) : Network n :=
  edges.foldl addTriple (Network.empty n)

structure State (n : ℕ) where
  community : Fin n → Fin n
  sigmaTot : Fin n → ℚ

def start (net : Network n) : State n := ⟨id,net.strengths⟩

def kIn (net : Network n) (community : Fin n → Fin n) (i : Fin n) : Record (Fin n) ℚ :=
  (net.adj i).foldl (fun r e =>
    r.set (community e.1) ((r.get (community e.1)).getD 0+e.2)) ∅

def Network.m (net : Network n) : ℚ := net.totalWeight/2

def gain (net : Network n) (resolution : ℚ) (sigmaTot : Fin n → ℚ) (ki : ℚ) (c : Fin n)
    (kIInC : ℚ) : ℚ :=
  kIInC/net.m-resolution*sigmaTot c*ki/(2*net.m*net.m)

/-- The better of two placements: the larger gain, then the smaller id. -/
def better (best : Fin n × ℚ) (c : Fin n) (g : ℚ) : Fin n × ℚ :=
  if g > best.2 ∨ g = best.2 ∧ c < best.1 then (c,g) else best

def choose (net : Network n) (resolution : ℚ) (sigmaTot : Fin n → ℚ) (ki : ℚ) (ci : Fin n)
    (gainCi : ℚ) (neighbours : List (Fin n × ℚ)) : Fin n × ℚ :=
  neighbours.foldl (fun best e =>
    if e.1 = ci then best else better best e.1 (gain net resolution sigmaTot ki e.1 e.2))
    (ci,gainCi)

/-- The order in which the map of a visit is read, for each pass and node. -/
abbrev Iteration (n : ℕ) := ℕ → Fin n → Record (Fin n) ℚ → List (Fin n × ℚ)

def visit (iter : Iteration n) (net : Network n) (resolution : ℚ) (p : ℕ) (i : Fin n)
    (s : State n) : State n × Bool :=
  if net.strengths i = 0 then (s,false)
  else
    let ki := net.strengths i
    let ci := s.community i
    let sigmaTot := Function.update s.sigmaTot ci (s.sigmaTot ci-ki)
    let weights := kIn net s.community i
    let gainCi := gain net resolution sigmaTot ki ci ((weights.get ci).getD 0)
    let best := choose net resolution sigmaTot ki ci gainCi (iter p i weights)
    (⟨Function.update s.community i best.1,
      Function.update sigmaTot best.1 (sigmaTot best.1+ki)⟩,decide (best.1 ≠ ci))

def pass (iter : Iteration n) (net : Network n) (resolution : ℚ) (p : ℕ) (s : State n) :
    State n × Bool :=
  (List.finRange n).foldl (fun r i =>
    ((visit iter net resolution p i r.1).1,r.2 || (visit iter net resolution p i r.1).2)) (s,false)

def passes (iter : Iteration n) (net : Network n) (resolution : ℚ) : ℕ → ℕ → State n → State n
  | 0, _, s => s
  | k+1, p, s =>
    let r := pass iter net resolution p s
    if r.2 = true then passes iter net resolution k (p+1) r.1 else r.1

/-- The fallback numbers a community by the length of its map. -/
def compact (net : Network n) (community : Fin n → Fin n) :
    List (Fin n) → Record (Fin n) ℕ → List ℤ
  | [], _ => []
  | i::is, id_map =>
    if net.strengths i > 0 then
      match id_map.get (community i) with
      | some mapped => (mapped : ℤ)::compact net community is id_map
      | none => (id_map.entries.length : ℤ)::
          compact net community is (id_map.set (community i) id_map.entries.length)
    else -1::compact net community is id_map

/-- The kernel has a counter beside its map. -/
def compactCounted (net : Network n) (community : Fin n → Fin n) :
    List (Fin n) → Record (Fin n) ℕ → ℕ → List ℤ
  | [], _, _ => []
  | i::is, id_map, nextId =>
    if net.strengths i > 0 then
      match id_map.get (community i) with
      | some mapped => (mapped : ℤ)::compactCounted net community is id_map nextId
      | none => (nextId : ℤ)::
          compactCounted net community is (id_map.set (community i) nextId) (nextId+1)
    else -1::compactCounted net community is id_map nextId

/-- A dict is read in the order of its entries. -/
def inOrder (n : ℕ) : Iteration n := fun _ _ weights => weights.entries

def detectCommunities (n : ℕ) (edges : List Edge) (resolution : ℚ) (maxIter : ℕ) : List ℤ :=
  if n = 0 then []
  else
    let net := build n edges
    if net.m = 0 then List.replicate n (-1)
    else compact net (passes (inOrder n) net resolution maxIter 0 (start net)).community
      (List.finRange n) ∅

def detectCommunitiesInner (iter : Iteration n) (edges : List Triple) (resolution : ℚ)
    (maxIter : ℕ) : List ℤ :=
  if n = 0 then []
  else
    let net := buildTriples n edges
    if net.m = 0 then List.replicate n (-1)
    else compactCounted net (passes iter net resolution maxIter 0 (start net)).community
      (List.finRange n) ∅ 0

section Weights

variable (net : Network n)

def Network.between (net : Network n) (i j : Fin n) : ℚ :=
  (((net.adj i).filter (fun e => e.1 = j)).map Prod.snd).sum

/-- The edges of a list, split by where they go. -/
theorem sum_by_target (es : List (Fin n × ℚ)) (P : Fin n → Prop) [DecidablePred P] :
    ((es.filter (fun e => P e.1)).map Prod.snd).sum =
      ∑ j, if P j then ((es.filter (fun e => e.1 = j)).map Prod.snd).sum else 0 := by
  induction es with
  | nil => simp
  | cons e es ih =>
    have hsplit : ∀ j, ((List.filter (fun e => e.1 = j) (e::es)).map Prod.snd).sum =
        (if e.1 = j then e.2 else 0)+((es.filter (fun e => e.1 = j)).map Prod.snd).sum := by
      intro j
      by_cases h : e.1 = j
      · simp [h]
      · simp [h]
    have hone : ∀ j, (if P j then (if e.1 = j then e.2 else 0) else 0) =
        if e.1 = j then (if P e.1 then e.2 else 0) else 0 := by
      intro j
      by_cases h : e.1 = j
      · simp [h]
      · simp [h]
    have hadd : ∀ j, (if P j then
        ((List.filter (fun e => e.1 = j) (e::es)).map Prod.snd).sum else 0) =
          (if e.1 = j then (if P e.1 then e.2 else 0) else 0)+
            if P j then ((es.filter (fun e => e.1 = j)).map Prod.snd).sum else 0 := by
      intro j
      rw [hsplit, ← hone]
      split_ifs <;> simp
    rw [Finset.sum_congr rfl (fun j _ => hadd j), Finset.sum_add_distrib, ← ih]
    by_cases h : P e.1
    · simp [h]
    · simp [h]

def weightBetween (edges : List Edge) (a b : ℤ) : ℚ :=
  ((edges.filter (fun e => e.src = a ∧ e.dst = b)).map Edge.weight).sum

theorem push_between (src dst : Fin n) (weight : ℚ) (i j : Fin n) :
    (net.push src dst weight).between i j =
      net.between i j+if src = i ∧ dst = j then weight else 0 := by
  unfold Network.between Network.push
  by_cases hi : i = src
  · subst hi
    by_cases hj : dst = j
    · simp [hj]
    · simp [hj]
  · simp [hi, Ne.symm hi]

theorem addEdge_between (e : Edge) (i j : Fin n) :
    (addEdge net e).between i j =
      net.between i j+if i ≠ j ∧ e.src = i ∧ e.dst = j then e.weight else 0 := by
  unfold addEdge
  split_ifs with h hij hij
  · rw [push_between]
    rw [if_pos]
    exact ⟨Fin.ext (by simp [hij.2.1]), Fin.ext (by simp [hij.2.2])⟩
  · rw [push_between, if_neg]
    rintro ⟨rfl, rfl⟩
    refine hij ⟨fun he => h.2.2 ?_, ?_, ?_⟩
    · have hv := congrArg Fin.val he
      simp only at hv
      omega
    · exact (Int.toNat_of_nonneg h.1.1).symm
    · exact (Int.toNat_of_nonneg h.2.1.1).symm
  · refine absurd ⟨⟨?_, ?_⟩, ⟨?_, ?_⟩, fun he => hij.1 (Fin.ext ?_)⟩ h
    · omega
    · have := i.2
      omega
    · omega
    · have := j.2
      omega
    · omega
  · rw [add_zero]

theorem build_between (edges : List Edge) (i j : Fin n) :
    (build n edges).between i j = if i = j then 0 else weightBetween edges i j := by
  have hfold : ∀ (edges : List Edge) (net : Network n), (edges.foldl addEdge net).between i j =
      net.between i j+if i = j then 0 else weightBetween edges i j := by
    intro edges
    induction edges with
    | nil =>
      intro net
      simp [weightBetween]
    | cons e edges ih =>
      intro net
      rw [List.foldl_cons, ih, addEdge_between, add_assoc]
      congr 1
      by_cases hij : i = j
      · simp [hij]
      · by_cases he : e.src = i ∧ e.dst = j
        · simp [weightBetween, hij, he]
        · simp [weightBetween, hij, he]
  rw [build, hfold]
  exact zero_add _

end Weights

theorem kIn_get (net : Network n) (community : Fin n → Fin n) (i c : Fin n) :
    ((kIn net community i).get c).getD 0 = ∑ j, if community j = c then net.between i j else 0 := by
  have hfold : ∀ (es : List (Fin n × ℚ)) (r : Record (Fin n) ℚ),
      ((es.foldl (fun r e => r.set (community e.1) ((r.get (community e.1)).getD 0+e.2)) r).get
        c).getD 0 =
          (r.get c).getD 0+((es.filter (fun e => community e.1 = c)).map Prod.snd).sum := by
    intro es
    induction es with
    | nil =>
      intro r
      simp
    | cons e es ih =>
      intro r
      rw [List.foldl_cons, ih, Record.get_set]
      by_cases h : community e.1 = c
      · simp [h, add_assoc]
      · simp [h, Ne.symm h]
  rw [kIn, hfold, sum_by_target (net.adj i) (fun j => community j = c)]
  simp [Network.between]

def rank (b : Fin n × ℚ) : ℚ ×ₗ (Fin n)ᵒᵈ := toLex (b.2,OrderDual.toDual b.1)

theorem rank_injective : Function.Injective (rank (n := n)) := by
  rintro ⟨c, g⟩ ⟨c', g'⟩ h
  have hpair := toLex_inj.mp h
  rw [Prod.mk.injEq] at hpair
  exact Prod.ext (OrderDual.toDual_inj.mp hpair.2) hpair.1

theorem rank_better (best e : Fin n × ℚ) : rank (better best e.1 e.2) = max (rank best) (rank e) := by
  have hlt : rank best < rank e ↔ e.2 > best.2 ∨ e.2 = best.2 ∧ e.1 < best.1 := by
    rw [rank, rank, Prod.Lex.toLex_lt_toLex]
    exact or_congr Iff.rfl (and_congr eq_comm Iff.rfl)
  unfold better
  split_ifs with h
  · exact (max_eq_right (hlt.mpr h).le).symm
  · exact (max_eq_left (not_lt.mp (fun hr => h (hlt.mp hr)))).symm

section Choice

variable (net : Network n) (resolution : ℚ) (sigmaTot : Fin n → ℚ) (ki : ℚ) (ci : Fin n)
  (gainCi : ℚ)

def candidates (neighbours : List (Fin n × ℚ)) : List (Fin n × ℚ) :=
  (neighbours.filter (fun e => e.1 ≠ ci)).map
    (fun e => (e.1,gain net resolution sigmaTot ki e.1 e.2))

theorem choose_eq (neighbours : List (Fin n × ℚ)) :
    choose net resolution sigmaTot ki ci gainCi neighbours =
      (candidates net resolution sigmaTot ki ci neighbours).foldl
        (fun best e => better best e.1 e.2) (ci,gainCi) := by
  unfold choose candidates
  generalize (ci,gainCi) = best
  induction neighbours generalizing best with
  | nil => rfl
  | cons e es ih =>
    by_cases h : e.1 = ci
    · rw [List.filter_cons_of_neg (by simpa using h), List.foldl_cons, if_pos h]
      exact ih best
    · rw [List.filter_cons_of_pos (by simpa using h), List.foldl_cons, if_neg h]
      exact ih _

/-- The order in which the neighbouring communities are read does not matter. -/
theorem choose_perm {xs ys : List (Fin n × ℚ)} (h : xs.Perm ys) :
    choose net resolution sigmaTot ki ci gainCi xs =
      choose net resolution sigmaTot ki ci gainCi ys := by
  rw [choose_eq, choose_eq]
  exact foldl_best_perm rank_injective rank_better _ ((h.filter _).map _)

theorem choose_gain (neighbours : List (Fin n × ℚ)) :
    gainCi ≤ (choose net resolution sigmaTot ki ci gainCi neighbours).2 := by
  have hle : ∀ (es : List (Fin n × ℚ)) (best : Fin n × ℚ),
      best.2 ≤ (es.foldl (fun best e => better best e.1 e.2) best).2 := by
    intro es
    induction es with
    | nil => exact fun best => le_rfl
    | cons e es ih =>
      intro best
      refine le_trans ?_ (ih (better best e.1 e.2))
      unfold better
      split_ifs with h
      · rcases h with h | h
        · exact h.le
        · exact h.1.ge
      · exact le_rfl
  rw [choose_eq]
  exact hle _ (ci,gainCi)

theorem choose_mem (neighbours : List (Fin n × ℚ)) :
    choose net resolution sigmaTot ki ci gainCi neighbours = (ci,gainCi) ∨
      choose net resolution sigmaTot ki ci gainCi neighbours ∈
        candidates net resolution sigmaTot ki ci neighbours := by
  have hmem : ∀ (es : List (Fin n × ℚ)) (best : Fin n × ℚ),
      es.foldl (fun best e => better best e.1 e.2) best = best ∨
        es.foldl (fun best e => better best e.1 e.2) best ∈ es := by
    intro es
    induction es with
    | nil => exact fun best => Or.inl rfl
    | cons e es ih =>
      intro best
      rw [List.foldl_cons]
      rcases ih (better best e.1 e.2) with h | h
      · rw [h, better]
        split_ifs
        · exact Or.inr List.mem_cons_self
        · exact Or.inl rfl
      · exact Or.inr (List.mem_cons_of_mem e h)
  rw [choose_eq]
  exact hmem _ _

end Choice

def Reads (iter : Iteration n) : Prop := ∀ p i weights, (iter p i weights).Perm weights.entries

def benefit (net : Network n) (resolution : ℚ) (i j : Fin n) : ℚ :=
  net.between i j/(2*net.m)-resolution*net.strengths i*net.strengths j/(2*net.m)^2

def modularity (net : Network n) (resolution : ℚ) (community : Fin n → Fin n) : ℚ :=
  blockSum Finset.univ (benefit net resolution) community

def Totals (net : Network n) (s : State n) : Prop :=
  ∀ c, s.sigmaTot c = ∑ i, if s.community i = c then net.strengths i else 0

theorem start_totals (net : Network n) : Totals net (start net) := by
  intro c
  have hown := Finset.sum_ite_eq' Finset.univ c net.strengths
  rw [if_pos (Finset.mem_univ c)] at hown
  exact hown.symm

section Visit

variable {iter : Iteration n} {net : Network n} {resolution : ℚ} {p : ℕ} {i : Fin n} {s : State n}

/-- A visit does not depend on the order in which the map is read. -/
theorem visit_iter (hiter : Reads iter) (p : ℕ) (i : Fin n) (s : State n) :
    visit iter net resolution p i s = visit (inOrder n) net resolution p i s := by
  unfold visit
  split_ifs
  · rfl
  · simp only [choose_perm net resolution _ _ _ _ (hiter p i (kIn net s.community i))]
    rfl

theorem sum_move (f : Fin n → ℚ) (community : Fin n → Fin n) (i k c : Fin n) :
    (∑ j, if Function.update community i k j = c then f j else 0) =
      (∑ j, if community j = c then f j else 0)-(if community i = c then f i else 0)+
        if k = c then f i else 0 := by
  rw [← Finset.add_sum_erase _ _ (Finset.mem_univ i),
    ← Finset.add_sum_erase _ (fun j => if community j = c then f j else 0) (Finset.mem_univ i)]
  have hrest : (∑ j ∈ Finset.univ.erase i, if Function.update community i k j = c then f j else 0) =
      ∑ j ∈ Finset.univ.erase i, if community j = c then f j else 0 :=
    Finset.sum_congr rfl (fun j hj => by rw [Function.update_of_ne (Finset.ne_of_mem_erase hj)])
  rw [hrest, Function.update_self]
  ring

/-- What a visit does to a node with edges: it goes to a community whose gain is
not below that of staying. -/
theorem visit_moves (hi : net.strengths i ≠ 0) : ∃ k,
    (visit iter net resolution p i s).1.community = Function.update s.community i k ∧
      (visit iter net resolution p i s).1.sigmaTot =
        Function.update (Function.update s.sigmaTot (s.community i)
          (s.sigmaTot (s.community i)-net.strengths i)) k
          (Function.update s.sigmaTot (s.community i)
            (s.sigmaTot (s.community i)-net.strengths i) k+net.strengths i) := by
  simp only [visit, if_neg hi]
  exact ⟨_, rfl, rfl⟩

theorem visit_totals (h : Totals net s) : Totals net (visit iter net resolution p i s).1 := by
  by_cases hi : net.strengths i = 0
  · rw [visit, if_pos hi]
    exact h
  · obtain ⟨k, hcommunity, hsigma⟩ := @visit_moves n iter net resolution p i s hi
    intro c
    rw [hcommunity, hsigma, sum_move, ← h c]
    by_cases hk : k = c
    · subst hk
      by_cases hc : s.community i = k
      · simp [hc]
      · simp [hc, Ne.symm hc]
    · by_cases hc : s.community i = c
      · subst hc
        simp [hk, Ne.symm hk]
      · simp [hk, hc, Ne.symm hk, Ne.symm hc]

end Visit

def Network.Symmetric (net : Network n) : Prop := ∀ i j, net.between i j = net.between j i

theorem benefit_symm {net : Network n} (h : net.Symmetric) (resolution : ℚ) (i j : Fin n) :
    benefit net resolution i j = benefit net resolution j i := by
  rw [benefit, benefit, h i j]
  ring

/-- The total of a community without one node. -/
theorem totals_without {net : Network n} {s : State n} (h : Totals net s) (i c : Fin n) :
    Function.update s.sigmaTot (s.community i)
        (s.sigmaTot (s.community i)-net.strengths i) c =
      ∑ j ∈ Finset.univ.erase i, if s.community j = c then net.strengths j else 0 := by
  have hsplit := Finset.add_sum_erase Finset.univ
    (fun j => if s.community j = c then net.strengths j else 0) (Finset.mem_univ i)
  simp only [← h c] at hsplit
  by_cases hc : s.community i = c
  · subst hc
    rw [Function.update_self, ← hsplit]
    simp
  · rw [Function.update_of_ne (Ne.symm hc), ← hsplit]
    simp [hc]

/-- The gain of a placement is twice the benefit of a node with the others
there. -/
theorem gain_eq {net : Network n} {s : State n} (h : Totals net s) (resolution : ℚ) (i c : Fin n)
    (hself : net.between i i = 0) :
    gain net resolution (Function.update s.sigmaTot (s.community i)
        (s.sigmaTot (s.community i)-net.strengths i)) (net.strengths i) c
          (((kIn net s.community i).get c).getD 0) =
      2*pull Finset.univ (benefit net resolution) s.community i c := by
  have hweights : (∑ j, if s.community j = c then net.between i j else 0) =
      ∑ j ∈ Finset.univ.erase i, if s.community j = c then net.between i j else 0 := by
    rw [← Finset.add_sum_erase _ _ (Finset.mem_univ i), hself, ite_self, zero_add]
  have hpull : pull Finset.univ (benefit net resolution) s.community i c =
      (∑ j ∈ Finset.univ.erase i, if s.community j = c then net.between i j else 0)/(2*net.m)-
        resolution*net.strengths i*
          (∑ j ∈ Finset.univ.erase i, if s.community j = c then net.strengths j else 0)/
            (2*net.m)^2 := by
    rw [pull, Finset.mul_sum, Finset.sum_div, Finset.sum_div, ← Finset.sum_sub_distrib]
    refine Finset.sum_congr rfl (fun j _ => ?_)
    by_cases hc : s.community j = c
    · simp [hc, benefit]
    · simp [hc]
  rw [gain, totals_without h, kIn_get, hweights, hpull]
  ring

section Modularity

variable {iter : Iteration n} {net : Network n} {resolution : ℚ} {p : ℕ} {i : Fin n} {s : State n}

/-- The gain of the chosen placement is the gain of its community. -/
theorem choose_own (sigmaTot : Fin n → ℚ) (ki : ℚ) (ci : Fin n) {weights : Record (Fin n) ℚ}
    {neighbours : List (Fin n × ℚ)} (h : neighbours.Perm weights.entries) :
    let gainOf := fun c => gain net resolution sigmaTot ki c ((weights.get c).getD 0)
    (choose net resolution sigmaTot ki ci (gainOf ci) neighbours).2 =
      gainOf (choose net resolution sigmaTot ki ci (gainOf ci) neighbours).1 := by
  intro gainOf
  rcases choose_mem net resolution sigmaTot ki ci (gainOf ci) neighbours with hb | hb
  · rw [hb]
  · obtain ⟨e, he, heq⟩ := List.mem_map.mp hb
    have hmem : (e.1,e.2) ∈ weights.entries := h.mem_iff.mp (List.mem_filter.mp he).1
    rw [← heq]
    simp only [gainOf, (weights.mem_entries e.1 e.2).mp hmem, Option.getD_some]

/-- No visit lowers the modularity. -/
theorem visit_modularity (hiter : Reads iter) (hsym : net.Symmetric)
    (hself : net.between i i = 0) (h : Totals net s) :
    modularity net resolution s.community ≤
      modularity net resolution (visit iter net resolution p i s).1.community := by
  by_cases hi : net.strengths i = 0
  · rw [visit, if_pos hi]
  · simp only [visit, if_neg hi, modularity]
    rw [blockSum_update (benefit_symm hsym resolution) _ (Finset.mem_univ i)]
    have hown := @choose_own n net resolution
      (Function.update s.sigmaTot (s.community i) (s.sigmaTot (s.community i)-net.strengths i))
      (net.strengths i) (s.community i) _ _ (hiter p i (kIn net s.community i))
    have hgain := choose_gain net resolution
      (Function.update s.sigmaTot (s.community i) (s.sigmaTot (s.community i)-net.strengths i))
      (net.strengths i) (s.community i) (gain net resolution
        (Function.update s.sigmaTot (s.community i) (s.sigmaTot (s.community i)-net.strengths i))
        (net.strengths i) (s.community i) (((kIn net s.community i).get (s.community i)).getD 0))
      (iter p i (kIn net s.community i))
    simp only [gain_eq h resolution i _ hself] at hown hgain ⊢
    linarith

end Modularity

def run (iter : Iteration n) (net : Network n) (resolution : ℚ) (visits : List (ℕ × Fin n)) :
    State n :=
  visits.foldl (fun s v => (visit iter net resolution v.1 v.2 s).1) (start net)

def schedule (n maxIter : ℕ) : List (ℕ × Fin n) :=
  (List.range maxIter).flatMap (fun p => (List.finRange n).map (fun i => (p,i)))

section Runs

variable {iter : Iteration n} {net : Network n} {resolution : ℚ}

theorem run_totals (visits : List (ℕ × Fin n)) : Totals net (run iter net resolution visits) :=
  List.foldlRecOn visits _ (start_totals net) (fun _ h _ _ => visit_totals h)

theorem pass_state (p : ℕ) (s : State n) : (pass iter net resolution p s).1 =
    ((List.finRange n).map (fun i => (p,i))).foldl
      (fun s v => (visit iter net resolution v.1 v.2 s).1) s := by
  have hfold : ∀ (is : List (Fin n)) (s : State n) (b : Bool), (is.foldl (fun r i =>
      ((visit iter net resolution p i r.1).1,r.2 || (visit iter net resolution p i r.1).2)) (s,b)).1 =
        (is.map (fun i => (p,i))).foldl (fun s v => (visit iter net resolution v.1 v.2 s).1) s := by
    intro is
    induction is with
    | nil => exact fun s b => rfl
    | cons i is ih => exact fun s b => ih _ _
  exact hfold _ s false

/-- The passes carry out the visits of the schedule, up to where they stop. -/
theorem passes_run (maxIter : ℕ) : ∃ visits, visits <+: schedule n maxIter ∧
    passes iter net resolution maxIter 0 (start net) = run iter net resolution visits := by
  have hfrom : ∀ (k p : ℕ) (s : State n), ∃ visits,
      visits <+: (List.range' p k).flatMap (fun p => (List.finRange n).map (fun i => (p,i))) ∧
        passes iter net resolution k p s =
          visits.foldl (fun s v => (visit iter net resolution v.1 v.2 s).1) s := by
    intro k
    induction k with
    | zero => exact fun p s => ⟨[], List.nil_prefix, rfl⟩
    | succ k ih =>
      intro p s
      simp only [passes, List.range'_succ, List.flatMap_cons]
      split_ifs with hmoved
      · obtain ⟨visits, hprefix, hrun⟩ := ih (p+1) (pass iter net resolution p s).1
        refine ⟨(List.finRange n).map (fun i => (p,i))++visits,
          (List.prefix_append_right_inj _).mpr hprefix, ?_⟩
        rw [List.foldl_append, ← pass_state]
        exact hrun
      · exact ⟨(List.finRange n).map (fun i => (p,i)), List.prefix_append _ _, pass_state p s⟩
  obtain ⟨visits, hprefix, hrun⟩ := hfrom maxIter 0 (start net)
  rw [← List.range_eq_range'] at hprefix
  exact ⟨visits, hprefix, hrun⟩

theorem passes_iter (hiter : Reads iter) (k p : ℕ) (s : State n) :
    passes iter net resolution k p s = passes (inOrder n) net resolution k p s := by
  have hpass : ∀ p s, pass iter net resolution p s = pass (inOrder n) net resolution p s := by
    intro p s
    simp only [pass, visit_iter hiter]
  induction k generalizing p s with
  | zero => rfl
  | succ k ih => simp only [passes, hpass, ih]

end Runs

section Ids

variable {net : Network n} {community : Fin n → Fin n}

theorem set_own (id_map : Record (Fin n) ℕ) (c : Fin n) (v : ℕ) :
    (id_map.set c v).get c = some v := by
  rw [Record.get_set, if_pos rfl]

theorem length_set {id_map : Record (Fin n) ℕ} {c : Fin n} (v : ℕ) (h : id_map.get c = none) :
    (id_map.set c v).entries.length = id_map.entries.length+1 := by
  have hnew : c ∉ id_map.entries.map Prod.fst := fun hmem => by
    have hsome := (id_map.mem_keys c).mp hmem
    rw [h] at hsome
    cases hsome
  simp [Record.set, assign_new _ _ _ hnew]

theorem compactCounted_eq (is : List (Fin n)) (id_map : Record (Fin n) ℕ) :
    compactCounted net community is id_map id_map.entries.length =
      compact net community is id_map := by
  induction is generalizing id_map with
  | nil => rfl
  | cons i is ih =>
    simp only [compact, compactCounted]
    split_ifs with hi
    · rcases hget : id_map.get (community i) with _ | mapped
      · simp only [← ih, length_set _ hget]
      · simp only [ih]
    · rw [ih]

def number (net : Network n) (community : Fin n → Fin n) :
    List (Fin n) → Record (Fin n) ℕ → Record (Fin n) ℕ
  | [], id_map => id_map
  | i::is, id_map =>
    if net.strengths i > 0 ∧ id_map.get (community i) = none then
      number net community is (id_map.set (community i) id_map.entries.length)
    else number net community is id_map

theorem number_keeps {c : Fin n} {v : ℕ} (is : List (Fin n)) {id_map : Record (Fin n) ℕ}
    (h : id_map.get c = some v) : (number net community is id_map).get c = some v := by
  induction is generalizing id_map with
  | nil => exact h
  | cons i is ih =>
    rw [number]
    split_ifs with hi
    · refine ih ?_
      rw [Record.get_set]
      by_cases hc : c = community i
      · rw [hc, hi.2] at h
        cases h
      · rw [if_neg hc, h]
    · exact ih h

def idOf (net : Network n) (community : Fin n → Fin n) (id_map : Record (Fin n) ℕ) (i : Fin n) :
    ℤ :=
  if net.strengths i > 0 then ((id_map.get (community i)).getD 0 : ℤ) else -1

theorem compact_eq (is : List (Fin n)) (id_map : Record (Fin n) ℕ) :
    compact net community is id_map =
      is.map (idOf net community (number net community is id_map)) := by
  induction is generalizing id_map with
  | nil => rfl
  | cons i is ih =>
    by_cases hi : net.strengths i > 0
    · rcases hget : id_map.get (community i) with _ | mapped
      · have hset : (id_map.set (community i) id_map.entries.length).get (community i) =
            some id_map.entries.length := set_own id_map (community i) _
        simp only [compact, number, hget, List.map_cons, idOf, and_self, hi, if_true,
          number_keeps is hset, Option.getD_some]
        rw [ih]
      · simp only [compact, number, if_pos hi, hget, List.map_cons, idOf, reduceCtorEq, and_false,
          if_false, number_keeps is hget, Option.getD_some]
        rw [ih]
    · simp only [compact, number, List.map_cons, idOf, hi, false_and, if_false]
      rw [ih]

structure Numbered (id_map : Record (Fin n) ℕ) : Prop where
  below : ∀ c v, id_map.get c = some v → v < id_map.entries.length
  apart : ∀ c c' v, id_map.get c = some v → id_map.get c' = some v → c = c'

theorem numbered_empty : Numbered (∅ : Record (Fin n) ℕ) where
  below _ _ h := nomatch h
  apart _ _ _ h := nomatch h

theorem numbered_set {id_map : Record (Fin n) ℕ} (h : Numbered id_map) {c : Fin n}
    (hc : id_map.get c = none) : Numbered (id_map.set c id_map.entries.length) where
  below d v hd := by
    rw [Record.get_set] at hd
    rw [length_set _ hc]
    by_cases hdc : d = c
    · rw [if_pos hdc, Option.some.injEq] at hd
      omega
    · rw [if_neg hdc] at hd
      have hlt := h.below d v hd
      omega
  apart d d' v hd hd' := by
    rw [Record.get_set] at hd hd'
    by_cases hdc : d = c
    · by_cases hdc' : d' = c
      · rw [hdc, hdc']
      · rw [if_pos hdc, Option.some.injEq] at hd
        rw [if_neg hdc'] at hd'
        have hlt := h.below d' v hd'
        omega
    · by_cases hdc' : d' = c
      · rw [if_pos hdc', Option.some.injEq] at hd'
        rw [if_neg hdc] at hd
        have hlt := h.below d v hd
        omega
      · rw [if_neg hdc] at hd
        rw [if_neg hdc'] at hd'
        exact h.apart d d' v hd hd'

theorem numbered_number (is : List (Fin n)) {id_map : Record (Fin n) ℕ} (h : Numbered id_map) :
    Numbered (number net community is id_map) := by
  induction is generalizing id_map with
  | nil => exact h
  | cons i is ih =>
    rw [number]
    split_ifs with hi
    · exact ih (numbered_set h hi.2)
    · exact ih h

theorem number_has {is : List (Fin n)} {i : Fin n} (h : i ∈ is) (hi : net.strengths i > 0)
    (id_map : Record (Fin n) ℕ) : ∃ v, (number net community is id_map).get (community i) = some v := by
  induction is generalizing id_map with
  | nil => cases h
  | cons i' is ih =>
    rcases List.mem_cons.mp h with rfl | h
    · rcases hget : id_map.get (community i) with _ | mapped
      · rw [number, if_pos ⟨hi, hget⟩]
        exact ⟨_, number_keeps is (set_own id_map (community i) _)⟩
      · exact ⟨mapped, number_keeps (i::is) hget⟩
    · rw [number]
      split_ifs
      · exact ih h _
      · exact ih h _

/-- A number below that of a node was given out before, or to an earlier node. -/
theorem number_grows {pre post : List (Fin n)} {i : Fin n} (hi : net.strengths i > 0)
    {id_map : Record (Fin n) ℕ} (h : Numbered id_map) {v w : ℕ}
    (hv : (number net community (pre++i::post) id_map).get (community i) = some v) (hw : w < v) :
    w < id_map.entries.length ∨ ∃ i' ∈ pre, net.strengths i' > 0 ∧
      (number net community (pre++i::post) id_map).get (community i') = some w := by
  induction pre generalizing id_map with
  | nil =>
    left
    rcases hget : id_map.get (community i) with _ | mapped
    · rw [List.nil_append, number, if_pos ⟨hi, hget⟩,
        number_keeps post (set_own id_map (community i) _), Option.some.injEq] at hv
      omega
    · rw [List.nil_append, number_keeps (i::post) hget, Option.some.injEq] at hv
      have hlt := h.below _ _ hget
      omega
  | cons i₀ pre ih =>
    rw [List.cons_append, number] at hv ⊢
    split_ifs at hv ⊢ with h₀
    · rcases ih (numbered_set h h₀.2) hv with hold | ⟨i', hi', hpos, hw'⟩
      · rw [length_set _ h₀.2] at hold
        by_cases hlast : w = id_map.entries.length
        · refine Or.inr ⟨i₀, List.mem_cons_self, h₀.1, ?_⟩
          rw [number_keeps _ (set_own id_map (community i₀) _), hlast]
        · exact Or.inl (by omega)
      · exact Or.inr ⟨i', List.mem_cons_of_mem i₀ hi', hpos, hw'⟩
    · rcases ih h hv with hold | ⟨i', hi', hpos, hw'⟩
      · exact Or.inl hold
      · exact Or.inr ⟨i', List.mem_cons_of_mem i₀ hi', hpos, hw'⟩

theorem mem_finRange_before {pre post : List (Fin n)} {i i' : Fin n}
    (h : List.finRange n = pre++i::post) (hi' : i' ∈ pre) : i' < i := by
  have hsorted := List.pairwise_lt_finRange n
  rw [h, List.pairwise_append] at hsorted
  exact hsorted.2.2 i' hi' i List.mem_cons_self

theorem idOf_pos {i : Fin n} (hi : 0 < net.strengths i) : ∃ v : ℕ,
    (number net community (List.finRange n) ∅).get (community i) = some v ∧
      idOf net community (number net community (List.finRange n) ∅) i = v := by
  obtain ⟨v, hv⟩ := @number_has n net community _ i (List.mem_finRange i) hi ∅
  refine ⟨v, hv, ?_⟩
  rw [idOf, if_pos hi, hv]
  rfl

theorem numbered_finRange : Numbered (number net community (List.finRange n) ∅) :=
  numbered_number _ numbered_empty

theorem idOf_same {i i' : Fin n} (hi : 0 < net.strengths i) (hi' : 0 < net.strengths i') :
    idOf net community (number net community (List.finRange n) ∅) i =
        idOf net community (number net community (List.finRange n) ∅) i' ↔
      community i = community i' := by
  obtain ⟨v, hv, hid⟩ := @idOf_pos n net community i hi
  obtain ⟨v', hv', hid'⟩ := @idOf_pos n net community i' hi'
  rw [hid, hid', Nat.cast_inj]
  constructor
  · rintro rfl
    exact numbered_finRange.apart _ _ v hv hv'
  · intro h
    rw [h, hv', Option.some.injEq] at hv
    exact hv.symm

/-- Each number below that of a node belongs to an earlier node. -/
theorem idOf_grows {i : Fin n} (hi : 0 < net.strengths i) {w : ℤ} (h0 : 0 ≤ w)
    (hw : w < idOf net community (number net community (List.finRange n) ∅) i) :
    ∃ i' < i, 0 < net.strengths i' ∧
      idOf net community (number net community (List.finRange n) ∅) i' = w := by
  obtain ⟨v, hv, hid⟩ := @idOf_pos n net community i hi
  obtain ⟨pre, post, hsplit⟩ := List.append_of_mem (List.mem_finRange i)
  lift w to ℕ using h0
  rw [hid, Nat.cast_lt] at hw
  rw [hsplit] at hv
  rcases number_grows hi numbered_empty hv hw with
    hold | ⟨i', hi', hpos, hget⟩
  · cases hold
  · refine ⟨i', mem_finRange_before hsplit hi', hpos, ?_⟩
    rw [idOf, if_pos hpos, hsplit, hget]
    rfl

end Ids

def Triple.edge (e : Triple) : Edge := ⟨e.src,e.dst,e.weight⟩

theorem addEdge_triple (net : Network n) (e : Triple) : addEdge net e.edge = addTriple net e := by
  by_cases h : e.src < n ∧ e.dst < n ∧ e.src ≠ e.dst
  · have h' : (0 ≤ e.edge.src ∧ e.edge.src < n) ∧ (0 ≤ e.edge.dst ∧ e.edge.dst < n) ∧
        e.edge.src ≠ e.edge.dst := by
      simp only [Triple.edge]
      omega
    rw [addEdge, addTriple, dif_pos h, dif_pos h']
    rfl
  · have h' : ¬ ((0 ≤ e.edge.src ∧ e.edge.src < n) ∧ (0 ≤ e.edge.dst ∧ e.edge.dst < n) ∧
        e.edge.src ≠ e.edge.dst) := by
      simp only [Triple.edge]
      omega
    rw [addEdge, addTriple, dif_neg h, dif_neg h']

theorem buildTriples_eq (n : ℕ) (triples : List Triple) :
    build n (triples.map Triple.edge) = buildTriples n triples := by
  rw [build, buildTriples, List.foldl_map]
  simp only [addEdge_triple]

theorem build_symmetric {edges : List Edge}
    (h : ∀ a b, weightBetween edges a b = weightBetween edges b a) :
    (build n edges).Symmetric := by
  intro i j
  rw [build_between, build_between, h i j]
  simp only [eq_comm]

structure Network.Weighed (net : Network n) : Prop where
  nonneg : ∀ i, 0 ≤ net.strengths i
  total : ∑ i, net.strengths i = net.totalWeight

theorem push_weighed {net : Network n} (h : net.Weighed) (src dst : Fin n) {weight : ℚ}
    (hw : 0 ≤ weight) : (net.push src dst weight).Weighed where
  nonneg i := by
    by_cases hi : i = src
    · subst hi
      simpa [Network.push] using add_nonneg (h.nonneg i) hw
    · simpa [Network.push, hi] using h.nonneg i
  total := by
    simp only [Network.push]
    rw [Finset.sum_update_of_mem (Finset.mem_univ src), ← h.total,
      ← Finset.add_sum_erase _ _ (Finset.mem_univ src), Finset.sdiff_singleton_eq_erase]
    ring

theorem build_weighed {edges : List Edge} (h : ∀ e ∈ edges, 0 ≤ e.weight) :
    (build n edges).Weighed := by
  refine List.foldlRecOn edges addEdge ⟨fun _ => le_rfl, Finset.sum_const_zero⟩
    (fun net hnet e he => ?_)
  rw [addEdge]
  split_ifs
  · exact push_weighed hnet _ _ (h e he)
  · exact hnet

theorem unconnected {net : Network n} (h : net.Weighed) (hm : net.m = 0) (i : Fin n) :
    net.strengths i = 0 := by
  have htotal : ∑ i, net.strengths i = 0 := by
    rw [h.total]
    unfold Network.m at hm
    linarith
  exact (Finset.sum_eq_zero_iff_of_nonneg (fun i _ => h.nonneg i)).mp htotal i (Finset.mem_univ i)

/-- Between visits the totals are those of the labels, no visit lowers the
modularity, the ids are compact in order of appearance, and the kernel returns
what the fallback returns, in whatever order it reads its maps. -/
theorem detection_sound (n : ℕ) (edges : List Edge) (hweight : ∀ e ∈ edges, 0 ≤ e.weight)
    (hboth : ∀ a b, weightBetween edges a b = weightBetween edges b a) (resolution : ℚ)
    (maxIter : ℕ) (iter : Iteration n) (hiter : Reads iter) :
    let net := build n edges
    let final := passes iter net resolution maxIter 0 (start net)
    (∀ visits, Totals net (run iter net resolution visits) ∧ ∀ p i,
      modularity net resolution (run iter net resolution visits).community ≤
        modularity net resolution
          (visit iter net resolution p i (run iter net resolution visits)).1.community) ∧
      (∃ visits, visits <+: schedule n maxIter ∧ final = run iter net resolution visits) ∧
      (∃ ids : Fin n → ℤ,
        detectCommunities n edges resolution maxIter = (List.finRange n).map ids ∧
          (∀ i, ¬ 0 < net.strengths i → ids i = -1) ∧
          (∀ i, 0 < net.strengths i → 0 ≤ ids i ∧
            ∀ v, 0 ≤ v → v < ids i → ∃ i' < i, 0 < net.strengths i' ∧ ids i' = v) ∧
          ∀ i i', 0 < net.strengths i → 0 < net.strengths i' →
            (ids i = ids i' ↔ final.community i = final.community i')) ∧
      ∀ triples : List Triple, triples.map Triple.edge = edges →
        detectCommunitiesInner iter triples resolution maxIter =
          detectCommunities n edges resolution maxIter := by
  intro net final
  refine ⟨fun visits => ⟨run_totals visits, fun p i => ?_⟩, passes_run maxIter, ?_, ?_⟩
  · refine visit_modularity hiter (build_symmetric hboth) ?_ (run_totals visits)
    rw [build_between, if_pos rfl]
  · simp only [detectCommunities]
    split_ifs with hn hm
    · subst hn
      exact ⟨fun _ => 0, rfl, fun i => i.elim0, fun i => i.elim0, fun i => i.elim0⟩
    · have hnone := unconnected (build_weighed hweight) hm
      refine ⟨fun _ => -1, by simp, fun _ _ => rfl, fun i hi => ?_, fun i _ hi => ?_⟩
      · exact absurd (hnone i) hi.ne'
      · exact absurd (hnone i) hi.ne'
    · refine ⟨_, compact_eq (List.finRange n) ∅, fun i hi => if_neg hi, fun i hi => ⟨?_, ?_⟩, ?_⟩
      · obtain ⟨v, -, hid⟩ := idOf_pos hi
        rw [hid]
        exact Int.natCast_nonneg v
      · exact fun v h0 hv => idOf_grows hi h0 hv
      · intro i i' hi hi'
        simp only [idOf_same hi hi', final, net, passes_iter hiter]
  · rintro triples rfl
    unfold detectCommunities detectCommunitiesInner
    split_ifs with hn
    · rfl
    · simp only [buildTriples_eq, passes_iter hiter]
      split_ifs
      · rfl
      · exact compactCounted_eq _ ∅

def Edge.flip (e : Edge) : Edge := ⟨e.dst,e.src,e.weight⟩

theorem weight_flip (es : List Edge) (a b : ℤ) :
    weightBetween (es.map Edge.flip) a b = weightBetween es b a := by
  induction es with
  | nil => rfl
  | cons e es ih =>
    have hcons : ∀ (e : Edge) (es : List Edge) (a b : ℤ), weightBetween (e::es) a b =
        (if e.src = a ∧ e.dst = b then e.weight else 0)+weightBetween es a b := by
      intro e es a b
      by_cases h : e.src = a ∧ e.dst = b
      · simp [weightBetween, h]
      · simp [weightBetween, h]
    rw [List.map_cons, hcons, hcons, ih]
    simp only [Edge.flip, and_comm]

/-- A list of edges with their flips has the same weight both ways. -/
theorem weight_both (es : List Edge) (a b : ℤ) :
    weightBetween (es++es.map Edge.flip) a b = weightBetween (es++es.map Edge.flip) b a := by
  have happend : ∀ (es es' : List Edge) (a b : ℤ),
      weightBetween (es++es') a b = weightBetween es a b+weightBetween es' a b := by
    intro es es' a b
    simp [weightBetween, List.filter_append]
  rw [happend, happend, weight_flip, weight_flip, add_comm]

namespace Path

def triples : List Triple := [⟨0,1,2⟩,⟨1,2,1⟩,⟨1,0,2⟩,⟨2,1,1⟩]

def backwards : Iteration 3 := fun _ _ weights => weights.entries.reverse

theorem same_ids : detectCommunitiesInner backwards triples 1 10 =
    detectCommunities 3 (triples.map Triple.edge) 1 10 :=
  (detection_sound 3 (triples.map Triple.edge) (by simp [triples, Triple.edge])
    (weight_both [⟨0,1,2⟩,⟨1,2,1⟩]) 1 10 backwards
    (fun _ _ weights => weights.entries.reverse_perm)).2.2.2 triples rfl

end Path

end Uru.Accel.Communities
