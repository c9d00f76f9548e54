import Mathlib.Algebra.BigOperators.Group.List.Basic
import Mathlib.Data.List.Nodup
import Mathlib.Tactic
import Uru.Lib.Ranking
import Uru.Lib.Record
import Uru.Lib.SortOn
import Uru.Query.RankFusion

/-!
# What rank fusion orders by

An id is scored by the sum of what each of its places in the lists gives, and
by a term that is meant to break ties. The sum is that of one contribution per
list exactly when no list repeats an id. The order then follows the sums as
long as no tie-breaking term makes up for a difference of them.
-/

set_option autoImplicit false

namespace Uru.Query.RankFusion
open Uru.Lib

variable {ι α : Type} [DecidableEq ι]

def places (weight : ℚ) (k : ℕ) (x : ι) : List ι → ℕ → ℚ
  | [], _ => 0
  | y::ids, rank => (if y = x then weight/((k : ℚ)+rank) else 0)+places weight k x ids (rank+1)

def place (weight : ℚ) (k : ℕ) (x : ι) (ids : List ι) (rank : ℕ) : ℚ :=
  if x ∈ ids then weight/((k : ℚ)+(rank+ids.idxOf x : ℕ)) else 0

section Places

variable {weight : ℚ} {k : ℕ} {x : ι}

theorem places_absent {ids : List ι} (h : x ∉ ids) (rank : ℕ) : places weight k x ids rank = 0 := by
  induction ids generalizing rank with
  | nil => rfl
  | cons y ids ih =>
    rw [List.mem_cons, not_or] at h
    rw [places, if_neg (Ne.symm h.1), ih h.2, add_zero]

theorem share_pos (hw : 0 < weight) {k rank : ℕ} (hk : 0 < k) : 0 < weight/((k : ℚ)+rank) := by
  have hk' : (0 : ℚ) < k := by exact_mod_cast hk
  positivity

theorem places_nonneg (hw : 0 < weight) (hk : 0 < k) (ids : List ι) (rank : ℕ) :
    0 ≤ places weight k x ids rank := by
  induction ids generalizing rank with
  | nil => exact le_rfl
  | cons y ids ih =>
    rw [places]
    have hrest := ih (rank+1)
    split_ifs
    · exact add_nonneg (share_pos hw hk).le hrest
    · exact add_nonneg le_rfl hrest

theorem places_pos (hw : 0 < weight) (hk : 0 < k) {ids : List ι} (h : x ∈ ids) (rank : ℕ) :
    0 < places weight k x ids rank := by
  induction ids generalizing rank with
  | nil => cases h
  | cons y ids ih =>
    rw [places]
    by_cases hy : y = x
    · rw [if_pos hy]
      exact add_pos_of_pos_of_nonneg (share_pos hw hk) (places_nonneg hw hk ids (rank+1))
    · rw [if_neg hy, zero_add]
      exact ih ((List.mem_cons.mp h).resolve_left (Ne.symm hy)) (rank+1)

theorem place_cons_self (ids : List ι) (rank : ℕ) :
    place weight k x (x::ids) rank = weight/((k : ℚ)+rank) := by
  simp [place]

theorem place_cons_other {y : ι} (h : y ≠ x) (ids : List ι) (rank : ℕ) :
    place weight k x (y::ids) rank = place weight k x ids (rank+1) := by
  unfold place
  by_cases hx : x ∈ ids
  · rw [if_pos hx, if_pos (List.mem_cons_of_mem y hx), List.idxOf_cons_ne ids h]
    push_cast
    ring_nf
  · rw [if_neg hx, if_neg (by simp [hx, Ne.symm h])]

theorem place_le (hw : 0 < weight) (hk : 0 < k) (ids : List ι) (rank : ℕ) :
    place weight k x ids rank ≤ places weight k x ids rank := by
  induction ids generalizing rank with
  | nil => simp [place, places]
  | cons y ids ih =>
    by_cases hy : y = x
    · subst hy
      rw [place_cons_self, places, if_pos rfl]
      exact le_add_of_nonneg_right (places_nonneg hw hk ids (rank+1))
    · rw [place_cons_other hy, places, if_neg hy, zero_add]
      exact ih (rank+1)

theorem places_once {ids : List ι} (h : ids.Nodup) (rank : ℕ) :
    places weight k x ids rank = place weight k x ids rank := by
  induction ids generalizing rank with
  | nil => simp [place, places]
  | cons y ids ih =>
    obtain ⟨hy, hids⟩ := List.nodup_cons.mp h
    by_cases hyx : y = x
    · subst hyx
      rw [place_cons_self, places, if_pos rfl, places_absent hy, add_zero]
    · rw [place_cons_other hyx, places, if_neg hyx, zero_add]
      exact ih hids (rank+1)

end Places

/-- A list gives each id one contribution exactly when it repeats none. -/
theorem nodup_of_once {weight : ℚ} {k : ℕ} (hw : 0 < weight) (hk : 0 < k) {ids : List ι} {rank : ℕ}
    (h : ∀ x, places weight k x ids rank = place weight k x ids rank) : ids.Nodup := by
  induction ids generalizing rank with
  | nil => exact List.nodup_nil
  | cons y ids ih =>
    have hy : y ∉ ids := by
      intro hmem
      have hself := h y
      rw [place_cons_self, places, if_pos rfl] at hself
      have hpos := places_pos hw hk hmem (rank+1)
      linarith
    refine List.nodup_cons.mpr ⟨hy, @ih (rank+1) (fun x => ?_)⟩
    by_cases hyx : y = x
    · subst hyx
      rw [places_absent hy, place, if_neg hy]
    · have hother := h x
      rw [place_cons_other hyx, places, if_neg hyx, zero_add] at hother
      exact hother

abbrev Source (ι : Type) := List (ι × ℚ) × ℚ

def Source.ids (s : Source ι) : List ι := s.1.map Prod.fst

def rankSum (sources : List (Source ι)) (k : ℕ) (x : ι) : ℚ :=
  (sources.map (fun s => places s.2 k x s.ids 1)).sum

/-- One contribution of `weight / (k + rank)` for each list that has the id. -/
def rankOnce (sources : List (Source ι)) (k : ℕ) (x : ι) : ℚ :=
  (sources.map (fun s => place s.2 k x s.ids 1)).sum

def tie (weight : ℚ) (x : ι) (scored : List (ι × ℚ)) : ℚ :=
  (scored.map (fun e => if e.1 = x then weight*e.2*(1/100) else 0)).sum

/-- A hundredth of the weighted normalised scores of an id. -/
def tieSum (normalize : List ℚ → List ℚ) (sources : List (Source ι)) (x : ι) : ℚ :=
  (sources.map (fun s => tie s.2 x (s.ids.zip (normalize (s.1.map Prod.snd))))).sum

def finalScore (normalize : List ℚ → List ℚ) (sources : List (Source ι)) (k : ℕ) (x : ι) : ℚ :=
  rankSum sources k x+tieSum normalize sources x

def allIds (sources : List (Source ι)) : List ι := sources.flatMap Source.ids

def plain (s : List (Hit ι α) × ℚ) : Source ι := (s.1.map (fun h => (h.itemId,h.score)),s.2)

omit [DecidableEq ι] in
theorem plain_ids (s : List (Hit ι α) × ℚ) : (plain s).ids = s.1.map Hit.itemId := by
  simp [plain, Source.ids]

omit [DecidableEq ι] in
theorem plain_scores (s : List (Hit ι α) × ℚ) : (plain s).1.map Prod.snd = s.1.map Hit.score := by
  simp [plain]

theorem rankOnce_le {sources : List (Source ι)} {k : ℕ} (hw : ∀ s ∈ sources, 0 < s.2) (hk : 0 < k)
    (x : ι) : rankOnce sources k x ≤ rankSum sources k x :=
  List.sum_le_sum (fun s hs => place_le (hw s hs) hk s.ids 1)

/-- Each list contributes once to each id exactly when no list repeats an id. -/
theorem rankSum_once_iff {sources : List (Source ι)} {k : ℕ} (hw : ∀ s ∈ sources, 0 < s.2)
    (hk : 0 < k) :
    (∀ x, rankSum sources k x = rankOnce sources k x) ↔ ∀ s ∈ sources, s.ids.Nodup := by
  constructor
  · intro h
    have heach : ∀ x, ∀ s ∈ sources, places s.2 k x s.ids 1 = place s.2 k x s.ids 1 := by
      intro x
      have hx := h x
      clear h
      induction sources with
      | nil => exact fun s hs => absurd hs List.not_mem_nil
      | cons s sources ih =>
        have hle := place_le (x := x) (hw s List.mem_cons_self) hk s.ids 1
        have hrest := rankOnce_le (fun s' hs' => hw s' (List.mem_cons_of_mem s hs')) hk x
        simp only [rankSum, rankOnce, List.map_cons, List.sum_cons] at hx hrest
        intro s' hs'
        rcases List.mem_cons.mp hs' with rfl | hs'
        · linarith
        · refine ih (fun s' hs' => hw s' (List.mem_cons_of_mem s hs')) ?_ s' hs'
          simp only [rankSum, rankOnce]
          linarith
    exact fun s hs => nodup_of_once (hw s hs) hk (fun x => heach x s hs)
  · intro h x
    exact congrArg List.sum (List.map_congr_left (fun s hs => places_once (h s hs) 1))

/-- A normalisation gives a score for each score. -/
def Pointwise (normalize : List ℚ → List ℚ) : Prop := ∀ l, (normalize l).length = l.length

theorem normalizeBy_map (flat : ℚ → ℚ → Bool) (l : List ℚ) :
    ∃ g : ℚ → ℚ, normalizeBy flat l = l.map g := by
  cases l with
  | nil => exact ⟨id, rfl⟩
  | cons s l =>
    simp only [normalizeBy]
    split_ifs
    · exact ⟨fun _ => 1, rfl⟩
    · exact ⟨_, rfl⟩

theorem normalizeBy_pointwise (flat : ℚ → ℚ → Bool) : Pointwise (normalizeBy flat) := by
  intro l
  obtain ⟨g, hg⟩ := normalizeBy_map flat l
  rw [hg, List.length_map]

def Quiet (note : Note ι α) : Prop := ∀ h rank e, (note h rank e).rrfScore = e.rrfScore ∧
  (note h rank e).contribution = e.contribution

omit [DecidableEq ι] in
theorem quiet_vector : Quiet (noteVector : Note ι α) := fun _ _ _ => ⟨rfl, rfl⟩

omit [DecidableEq ι] in
theorem quiet_graph : Quiet (noteGraph : Note ι α) := fun _ _ _ => ⟨rfl, rfl⟩

omit [DecidableEq ι] in
theorem quiet_none : Quiet (noteNone : Note ι α) := fun _ _ _ => ⟨rfl, rfl⟩

section Loop

variable {normalize : List ℚ → List ℚ} {note : Note ι α} {k : ℕ}

/-- A quantity of the entries that each hit adds to. -/
theorem hits_field {f : Entry α → ℚ} {g : ℕ → ℚ → ℚ} {weight : ℚ}
    (hfresh : ∀ item, f (Entry.fresh item) = 0)
    (hadd : ∀ h rank (e : Entry α) norm,
      f (note h rank (e.add weight k rank norm)) = f e+g rank norm)
    (x : ι) (es : List ((Hit ι α × ℚ) × ℕ)) (r : Record ι (Entry α)) :
    ((es.foldl (addHit note k weight) r).get x).elim 0 f =
      (r.get x).elim 0 f+
        (es.map (fun e => if e.1.1.itemId = x then g e.2 e.1.2 else 0)).sum := by
  induction es generalizing r with
  | nil => exact (add_zero _).symm
  | cons e es ih =>
    rw [List.foldl_cons, ih, List.map_cons, List.sum_cons, ← add_assoc]
    congr 1
    rw [addHit, Record.get_set]
    by_cases hx : x = e.1.1.itemId
    · subst hx
      rw [if_pos rfl, if_pos rfl, Option.elim_some, hadd]
      cases r.get e.1.1.itemId with
      | none => rw [Option.getD_none, hfresh, Option.elim_none]
      | some e' => rfl
    · rw [if_neg hx, if_neg (Ne.symm hx), add_zero]

theorem ranked_places (hn : Pointwise normalize) (weight : ℚ) (x : ι) (results : List (Hit ι α)) :
    ((ranked normalize results).map
      (fun e => if e.1.1.itemId = x then weight/((k : ℚ)+e.2) else 0)).sum =
        places weight k x (results.map Hit.itemId) 1 := by
  have hfrom : ∀ (results : List (Hit ι α)) (norms : List ℚ) (n : ℕ),
      norms.length = results.length → (((results.zip norms).zipIdx n).map
        (fun e => if e.1.1.itemId = x then weight/((k : ℚ)+e.2) else 0)).sum =
          places weight k x (results.map Hit.itemId) n := by
    intro results
    induction results with
    | nil => exact fun norms n _ => rfl
    | cons h results ih =>
      intro norms n hlen
      cases norms with
      | nil => cases hlen
      | cons norm norms =>
        rw [List.zip_cons_cons, List.zipIdx_cons, List.map_cons, List.sum_cons,
          ih norms (n+1) (Nat.succ.inj hlen)]
        rfl
  exact hfrom results _ 1 ((hn _).trans (List.length_map _))

theorem ranked_tie (weight : ℚ) (x : ι) (results : List (Hit ι α)) :
    ((ranked normalize results).map
      (fun e => if e.1.1.itemId = x then weight*e.1.2*(1/100) else 0)).sum =
        tie weight x ((results.map Hit.itemId).zip (normalize (results.map Hit.score))) := by
  have hfrom : ∀ (results : List (Hit ι α)) (norms : List ℚ) (n : ℕ),
      (((results.zip norms).zipIdx n).map
        (fun e => if e.1.1.itemId = x then weight*e.1.2*(1/100) else 0)).sum =
          tie weight x ((results.map Hit.itemId).zip norms) := by
    intro results
    induction results with
    | nil => exact fun norms n => rfl
    | cons h results ih =>
      intro norms n
      cases norms with
      | nil => rfl
      | cons norm norms =>
        rw [List.zip_cons_cons, List.zipIdx_cons, List.map_cons, List.sum_cons, ih norms (n+1)]
        rfl
  exact hfrom results _ 1

omit [DecidableEq ι] in
theorem ranked_ids (hn : Pointwise normalize) (results : List (Hit ι α)) :
    (ranked normalize results).map (fun e => e.1.1.itemId) = results.map Hit.itemId := by
  have hfst : ((results.zip (normalize (results.map Hit.score))).zipIdx 1).map Prod.fst =
      results.zip (normalize (results.map Hit.score)) := List.zipIdx_map_fst ..
  have hzip : (results.zip (normalize (results.map Hit.score))).map Prod.fst = results :=
    List.map_fst_zip (by rw [hn, List.length_map])
  calc (ranked normalize results).map (fun e => e.1.1.itemId)
      = (((ranked normalize results).map Prod.fst).map Prod.fst).map Hit.itemId := by
        rw [List.map_map, List.map_map]
        rfl
    _ = results.map Hit.itemId := by rw [ranked, hfst, hzip]

end Loop

def Entry.final (e : Entry α) : ℚ := e.rrfScore+e.contribution

/-- The record holds what the lists give to each id, and lists the ids in the
order of their first appearance. -/
structure Fuses (normalize : List ℚ → List ℚ) (sources : List (Source ι)) (k : ℕ)
    (r : Record ι (Entry α)) : Prop where
  rrf : ∀ x, (r.get x).elim 0 Entry.rrfScore = rankSum sources k x
  final : ∀ x, (r.get x).elim 0 Entry.final = finalScore normalize sources k x
  keys : r.keys = firsts (allIds sources)

section Fused

variable {normalize : List ℚ → List ℚ} {note : Note ι α} {k : ℕ} {r : Record ι (Entry α)}
  {sources : List (Source ι)}

theorem fuses_empty (normalize : List ℚ → List ℚ) (k : ℕ) :
    Fuses normalize [] k (∅ : Record ι (Entry α)) :=
  ⟨fun _ => rfl, fun _ => (add_zero 0).symm, rfl⟩

theorem fuses_add (hn : Pointwise normalize) (hq : Quiet note) (h : Fuses normalize sources k r)
    (s : List (Hit ι α) × ℚ) :
    Fuses normalize (sources++[plain s]) k (addSource normalize note k r s) where
  rrf x := by
    have hfield := @hits_field ι α _ note k Entry.rrfScore (fun rank _ => s.2/((k : ℚ)+rank)) s.2
      (fun _ => rfl)
      (fun h rank e norm => (hq h rank _).1) x (ranked normalize s.1) r
    rw [ranked_places hn, h.rrf] at hfield
    rw [addSource, hfield, rankSum, rankSum, List.map_append, List.sum_append,
      List.map_singleton, List.sum_singleton, plain_ids]
    rfl
  final x := by
    have hfield := @hits_field ι α _ note k Entry.final
      (fun rank norm => s.2/((k : ℚ)+rank)+s.2*norm*(1/100)) s.2
      (fun _ => add_zero 0) (fun h rank e norm => by
        rw [Entry.final, (hq h rank _).1, (hq h rank _).2, Entry.final, Entry.add]
        ring) x (ranked normalize s.1) r
    have hsplit : ∀ e : (Hit ι α × ℚ) × ℕ,
        (if e.1.1.itemId = x then s.2/((k : ℚ)+e.2)+s.2*e.1.2*(1/100) else 0) =
          (if e.1.1.itemId = x then s.2/((k : ℚ)+e.2) else 0)+
            if e.1.1.itemId = x then s.2*e.1.2*(1/100) else 0 := by
      intro e
      split_ifs
      · rfl
      · exact (add_zero 0).symm
    rw [List.map_congr_left (fun e _ => hsplit e), List.sum_map_add, ranked_places hn, ranked_tie,
      h.final] at hfield
    rw [addSource, hfield]
    simp only [finalScore, rankSum, tieSum, List.map_append, List.sum_append,
      List.map_singleton, List.sum_singleton, plain_ids, plain_scores]
    simp only [plain]
    ring
  keys := by
    have hkeys := keys_foldl (fun e : (Hit ι α × ℚ) × ℕ => e.1.1.itemId)
      (fun r e => note e.1.1 e.2
        (((r.get e.1.1.itemId).getD (Entry.fresh e.1.1.item)).add s.2 k e.2 e.1.2))
      (ranked normalize s.1) r
    rw [ranked_ids hn] at hkeys
    rw [addSource]
    refine hkeys.trans ?_
    rw [h.keys, firsts, firsts, allIds, allIds, List.flatMap_append, List.foldl_append,
      List.flatMap_singleton, plain_ids]

theorem fuses_foldl (hn : Pointwise normalize) (hq : Quiet note)
    (sources : List (List (Hit ι α) × ℚ)) :
    Fuses normalize (sources.map plain) k (sources.foldl (addSource normalize note k) ∅) := by
  induction sources using List.reverseRecOn with
  | nil => exact fuses_empty normalize k
  | append_singleton sources s ih =>
    rw [List.foldl_append, List.map_append]
    exact fuses_add hn hq ih s

/-- By falling final scores, then in the order of a list. -/
def Ranks (final : ι → ℚ) (seen : List ι) (x y : ι) : Prop :=
  final y < final x ∨ final y = final x ∧ Earlier seen x y

/-- The ids of the sorted rows of a fused record. -/
theorem fuses_order (h : Fuses normalize sources k r) {l : List (ι × Entry α)}
    (hl : l.Perm r.entries) {γ : Type} (row : ι × Entry α → γ) (key : γ → ι) (score : γ → ℚ)
    (hkey : ∀ e, key (row e) = e.1) (hscore : ∀ e, score (row e) = e.2.final) {x y : ι}
    (hx : x ∈ allIds sources) (hy : y ∈ allIds sources) (hne : x ≠ y) :
    Earlier ((sortOn (fun r => OrderDual.toDual (score r)) (l.map row)).map key) x y ↔
      Ranks (finalScore normalize sources k) (l.map Prod.fst) x y := by
  have hrow : (l.map row).map key = l.map Prod.fst := by
    rw [List.map_map]
    exact List.map_congr_left (fun e _ => hkey e)
  have hnodup : ((l.map row).map key).Nodup := by
    rw [hrow]
    exact (hl.map Prod.fst).nodup_iff.mpr r.nodup
  have hentry : ∀ z ∈ allIds sources, ∃ e ∈ l, e.1 = z ∧
      e.2.final = finalScore normalize sources k z := by
    intro z hz
    have hmem : z ∈ r.keys := h.keys ▸ mem_firsts.mpr hz
    obtain ⟨e, he, hez⟩ := List.mem_map.mp hmem
    refine ⟨e, hl.mem_iff.mpr he, hez, ?_⟩
    rw [← h.final z, ← hez, (r.mem_entries e.1 e.2).mp he]
    rfl
  obtain ⟨e, he, hex, hefinal⟩ := hentry x hx
  obtain ⟨e', he', hey, hefinal'⟩ := hentry y hy
  have hkeys := sortOn_keys_earlier score key hnodup (List.mem_map_of_mem he)
    (List.mem_map_of_mem he') (by rw [hkey, hkey, hex, hey]; exact hne)
  rw [hkey, hkey, hscore, hscore, hrow, hex, hey, hefinal, hefinal'] at hkeys
  exact hkeys

theorem fuses_ids (h : Fuses normalize sources k r) {l : List (ι × Entry α)}
    (hl : l.Perm r.entries) {γ : Type} (row : ι × Entry α → γ) (key : γ → ι) (score : γ → ℚ)
    (hkey : ∀ e, key (row e) = e.1) :
    ((sortOn (fun r => OrderDual.toDual (score r)) (l.map row)).map key).Perm
      (firsts (allIds sources)) := by
  have hrow : (l.map row).map key = l.map Prod.fst := by
    rw [List.map_map]
    exact List.map_congr_left (fun e _ => hkey e)
  rw [← h.keys]
  exact ((sortOn_perm _ _).map key).trans (hrow ▸ hl.map Prod.fst)

end Fused

section Versions

variable {k : ℕ}

/-- The lists with the scores brought to the range from 0 to 1, equal ones only
where they are equal. -/
abbrev exactScore (sources : List (Source ι)) (k : ℕ) : ι → ℚ :=
  finalScore _minMaxNormalize sources k

theorem exact_pointwise : Pointwise _minMaxNormalize := normalizeBy_pointwise _

theorem nlist_fuses (sources : List (List (Hit ι α) × ℚ)) :
    Fuses _minMaxNormalize (sources.map plain) k
      (sources.foldl (addSource _minMaxNormalize noteNone k) ∅) :=
  fuses_foldl exact_pointwise quiet_none sources

theorem nlist_order (sources : List (List (Hit ι α) × ℚ)) {x y : ι}
    (hx : x ∈ allIds (sources.map plain)) (hy : y ∈ allIds (sources.map plain)) (hne : x ≠ y) :
    Earlier ((weightedRrfNlist sources k).map FusedResult.itemId) x y ↔
      Ranks (exactScore (sources.map plain) k) (firsts (allIds (sources.map plain))) x y := by
  rw [← (nlist_fuses (k := k) sources).keys]
  exact fuses_order (nlist_fuses sources) (List.Perm.refl _) _ FusedResult.itemId
    FusedResult.rrfScore (fun _ => rfl) (fun _ => rfl) hx hy hne

theorem nlist_ids (sources : List (List (Hit ι α) × ℚ)) :
    ((weightedRrfNlist sources k).map FusedResult.itemId).Perm
      (firsts (allIds (sources.map plain))) :=
  fuses_ids (nlist_fuses sources) (List.Perm.refl _) _ FusedResult.itemId
    FusedResult.rrfScore (fun _ => rfl)

theorem nlist_score {sources : List (List (Hit ι α) × ℚ)} {r : FusedResult ι α}
    (h : r ∈ weightedRrfNlist sources k) :
    r.rrfScore = exactScore (sources.map plain) k r.itemId := by
  obtain ⟨e, he, rfl⟩ := List.mem_map.mp (mem_sortOn.mp h)
  rw [exactScore, ← (nlist_fuses (k := k) sources).final, Entry.result,
    (Record.mem_entries _ e.1 e.2).mp he]
  rfl

theorem engine_order (v g : List (Hit ι α)) (vw gw : ℚ) {x y : ι}
    (hx : x ∈ allIds [plain (v,vw),plain (g,gw)]) (hy : y ∈ allIds [plain (v,vw),plain (g,gw)])
    (hne : x ≠ y) :
    Earlier ((weightedRrfNormalized v g k vw gw).map FusedResult.itemId) x y ↔
      Ranks (exactScore [plain (v,vw),plain (g,gw)] k)
        (firsts (allIds [plain (v,vw),plain (g,gw)])) x y := by
  have hvector := fuses_add exact_pointwise quiet_vector
    (fuses_empty _ k) (v,vw)
  have hgraph := fuses_add exact_pointwise quiet_graph
    hvector (g,gw)
  simp only [List.nil_append, List.singleton_append] at hgraph
  rw [← hgraph.keys]
  exact fuses_order hgraph (List.Perm.refl _) _ FusedResult.itemId FusedResult.rrfScore
    (fun _ => rfl) (fun _ => rfl) hx hy hne

omit [DecidableEq ι] in
theorem plain_hit (results : List (ι × ℚ)) (weight : ℚ) :
    plain (results.map hit,weight) = (results,weight) := by
  rw [plain, List.map_map]
  exact Prod.ext (List.map_id results) rfl

theorem two_fuses {normalize : List ℚ → List ℚ} (hn : Pointwise normalize) (v g : Source ι) :
    Fuses normalize [v,g] k (addSource normalize noteNone k
      (addSource normalize noteNone k ∅ (v.1.map hit,v.2)) (g.1.map hit,g.2)) := by
  have hvector := fuses_add hn quiet_none
    (fuses_empty normalize k) (v.1.map hit,v.2)
  have hgraph := fuses_add hn quiet_none hvector
    (g.1.map hit,g.2)
  rw [plain_hit, plain_hit] at hgraph
  exact hgraph

theorem fallback_order (v g : Source ι) {x y : ι} (hx : x ∈ allIds [v,g])
    (hy : y ∈ allIds [v,g]) (hne : x ≠ y) :
    Earlier ((weightedRrfFallback v.1 g.1 k v.2 g.2).map Prod.fst) x y ↔
      Ranks (finalScore normalizeScores [v,g] k) (firsts (allIds [v,g])) x y := by
  have hfuses := two_fuses (k := k) (normalizeBy_pointwise _ : Pointwise normalizeScores) v g
  rw [← hfuses.keys]
  exact fuses_order hfuses (List.Perm.refl _) _ Prod.fst Prod.snd (fun _ => rfl) (fun _ => rfl)
    hx hy hne

/-- An order reads each entry of the map once. -/
def Reads (iter : Record ι (Entry Unit) → List (ι × Entry Unit)) : Prop :=
  ∀ r, (iter r).Perm r.entries

theorem accelerated_order {iter : Record ι (Entry Unit) → List (ι × Entry Unit)}
    (hiter : Reads iter) (v g : Source ι) {x y : ι} (hx : x ∈ allIds [v,g])
    (hy : y ∈ allIds [v,g]) (hne : x ≠ y) :
    Earlier ((weightedRrfAccelerated iter v.1 g.1 k v.2 g.2).map Prod.fst) x y ↔
      Ranks (finalScore minMaxNormalize [v,g] k)
        ((iter (addSource minMaxNormalize noteNone k
          (addSource minMaxNormalize noteNone k ∅ (v.1.map hit,v.2)) (g.1.map hit,g.2))).map
            Prod.fst) x y :=
  fuses_order (two_fuses (normalizeBy_pointwise _) v g) (hiter _) _ Prod.fst Prod.snd
    (fun _ => rfl) (fun _ => rfl) hx hy hne

end Versions

section Public

variable {σ : Type} [DecidableEq σ] {k : ℕ}

theorem places_scale (c weight : ℚ) (x : ι) (ids : List ι) (rank : ℕ) :
    places (weight/c) k x ids rank = places weight k x ids rank/c := by
  induction ids generalizing rank with
  | nil => exact (zero_div c).symm
  | cons y ids ih =>
    rw [places, places, ih, add_div]
    congr 1
    split_ifs
    · exact div_right_comm ..
    · exact (zero_div c).symm

theorem tie_scale (c weight : ℚ) (x : ι) (scored : List (ι × ℚ)) :
    tie (weight/c) x scored = tie weight x scored/c := by
  induction scored with
  | nil => exact (zero_div c).symm
  | cons e scored ih =>
    simp only [tie, List.map_cons, List.sum_cons] at ih ⊢
    rw [ih, add_div]
    congr 1
    split_ifs
    · ring
    · exact (zero_div c).symm

/-- Lists without hits may be dropped, and the weights scaled. -/
theorem final_scale (normalize : List ℚ → List ℚ) (c : ℚ) (sources : List (Source ι)) (x : ι) :
    finalScore normalize
        ((sources.filter (fun s => !s.1.isEmpty)).map (fun s => (s.1,s.2/c))) k x =
      finalScore normalize sources k x/c := by
  have hnil : ∀ w : ℚ, places w k x (Source.ids (([],w) : Source ι)) 1 = 0 := fun _ => rfl
  have htie : ∀ w : ℚ, tie w x ((Source.ids (([],w) : Source ι)).zip (normalize [])) = 0 :=
    fun _ => rfl
  unfold finalScore rankSum tieSum
  rw [List.map_map, List.map_map, add_div]
  congr 1
  · induction sources with
    | nil => exact (zero_div c).symm
    | cons s sources ih =>
      obtain ⟨hits, weight⟩ := s
      cases hits with
      | nil =>
        rw [List.filter_cons_of_neg (by simp), ih, List.map_cons, List.sum_cons, hnil, zero_add]
      | cons h hits =>
        rw [List.filter_cons_of_pos (by simp), List.map_cons, List.sum_cons, ih, List.map_cons,
          List.sum_cons, add_div]
        congr 1
        exact places_scale ..
  · induction sources with
    | nil => exact (zero_div c).symm
    | cons s sources ih =>
      obtain ⟨hits, weight⟩ := s
      cases hits with
      | nil =>
        rw [List.filter_cons_of_neg (by simp), ih, List.map_cons, List.sum_cons]
        simp only [List.map_nil, htie, zero_add]
      | cons h hits =>
        rw [List.filter_cons_of_pos (by simp), List.map_cons, List.sum_cons, ih, List.map_cons,
          List.sum_cons, add_div]
        congr 1
        exact tie_scale ..

omit [DecidableEq ι] in
theorem allIds_scale (c : ℚ) (sources : List (Source ι)) :
    allIds ((sources.filter (fun s => !s.1.isEmpty)).map (fun s => (s.1,s.2/c))) =
      allIds sources := by
  induction sources with
  | nil => rfl
  | cons s sources ih =>
    obtain ⟨hits, weight⟩ := s
    cases hits with
    | nil =>
      rw [List.filter_cons_of_neg (by simp), ih]
      rfl
    | cons h hits =>
      rw [List.filter_cons_of_pos (by simp), List.map_cons, allIds, List.flatMap_cons]
      exact congrArg _ ih

def weightedLists (idExtractor : α → ι) (rankedLists : Record σ (List (α × ℚ)))
    (weights : Option (Record σ ℚ)) : List (List (Hit ι α) × ℚ) :=
  rankedLists.entries.map (fun s =>
    (converted idExtractor s.2,((weights.getD ∅).get s.1).getD 1))

omit [DecidableEq σ] in
theorem itemsById_get (idExtractor : α → ι) (lists : List (σ × List (α × ℚ))) {x : ι}
    (h : x ∈ (lists.flatMap Prod.snd).map (fun e => idExtractor e.1)) :
    ∃ item, (itemsById idExtractor lists).get x = some item ∧ idExtractor item = x := by
  have hkeys := keys_foldl (fun e : α × ℚ => idExtractor e.1) (fun _ e => e.1)
    (lists.flatMap Prod.snd) (∅ : Record ι α)
  have hmem : x ∈ (itemsById idExtractor lists).keys := by
    rw [itemsById, hkeys]
    exact (mem_firsts_from _ _ x).mpr (Or.inr h)
  obtain ⟨item, hitem⟩ := Option.isSome_iff_exists.mp ((Record.mem_keys _ x).mp hmem)
  have hown : ∀ (es : List (α × ℚ)) (r : Record ι α),
      (∀ x item, r.get x = some item → idExtractor item = x) →
        ∀ x item, (es.foldl (fun items e => items.set (idExtractor e.1) e.1) r).get x = some item →
          idExtractor item = x := by
    intro es
    induction es with
    | nil => exact fun r hr => hr
    | cons e es ih =>
      intro r hr
      refine ih _ (fun x item hget => ?_)
      rw [Record.get_set] at hget
      by_cases hx : x = idExtractor e.1
      · rw [if_pos hx, Option.some.injEq] at hget
        rw [← hget, hx]
      · rw [if_neg hx] at hget
        exact hr x item hget
  exact ⟨item, hitem, hown _ ∅ (fun _ _ hget => nomatch hget) x item hitem⟩

theorem shares_eq (lists : List (σ × List (α × ℚ))) (weights : Record σ ℚ)
    (hw : ∀ s ∈ lists, 0 < (weights.get s.1).getD 1) : ∃ c : ℚ, 0 < c ∧
      normalizedWeights lists weights =
        lists.map (fun s => (weights.get s.1).getD 1/c) := by
  simp only [normalizedWeights]
  split_ifs with hzero
  · cases lists with
    | nil => exact ⟨1, one_pos, rfl⟩
    | cons s lists =>
      rw [List.map_cons, List.sum_cons] at hzero
      have hpos := hw s List.mem_cons_self
      have hrest : 0 ≤ (lists.map (fun s => (weights.get s.1).getD 1)).sum := by
        refine List.sum_nonneg (fun w hw' => ?_)
        obtain ⟨s', hs', rfl⟩ := List.mem_map.mp hw'
        exact (hw s' (List.mem_cons_of_mem s hs')).le
      linarith
  · refine ⟨_, lt_of_le_of_ne (List.sum_nonneg (fun w hw' => ?_)) (Ne.symm hzero), rfl⟩
    obtain ⟨s', hs', rfl⟩ := List.mem_map.mp hw'
    exact (hw s' hs').le

omit [DecidableEq ι] [DecidableEq σ] in
theorem shared_ids (idExtractor : α → ι) (lists : List (σ × List (α × ℚ))) (shares : List ℚ)
    (h : shares.length = lists.length) :
    allIds (((lists.map (fun s => converted idExtractor s.2)).zip shares).map plain) =
      (lists.flatMap Prod.snd).map (fun e => idExtractor e.1) := by
  have hfst : ((lists.map (fun s => converted idExtractor s.2)).zip shares).map Prod.fst =
      lists.map (fun s => converted idExtractor s.2) :=
    List.map_fst_zip (by rw [List.length_map, h])
  calc allIds (((lists.map (fun s => converted idExtractor s.2)).zip shares).map plain)
      = (((lists.map (fun s => converted idExtractor s.2)).zip shares).map Prod.fst).flatMap
          (fun l => l.map Hit.itemId) := by
        rw [allIds, List.flatMap_map, List.flatMap_map]
        exact List.flatMap_congr (fun s _ => plain_ids s)
    _ = (lists.flatMap Prod.snd).map (fun e => idExtractor e.1) := by
        rw [hfst, List.flatMap_map, List.map_flatMap]
        exact List.flatMap_congr (fun s _ => by simp [converted])

theorem normalizedWeights_length (lists : List (σ × List (α × ℚ))) (weights : Record σ ℚ) :
    (normalizedWeights lists weights).length = lists.length := by
  simp only [normalizedWeights]
  split_ifs <;> simp

omit [DecidableEq σ] in
/-- The item of each fused id is known. -/
theorem fused_item (idExtractor : α → ι) (lists : List (σ × List (α × ℚ))) {shares : List ℚ}
    (h : shares.length = lists.length) {r : FusedResult ι α}
    (hr : r ∈ weightedRrfNlist ((lists.map (fun s => converted idExtractor s.2)).zip shares) k) :
    ∃ item, (itemsById idExtractor lists).get r.itemId = some item ∧
      idExtractor item = r.itemId := by
  have hmem := (nlist_ids (k := k) _).mem_iff.mp (List.mem_map_of_mem hr)
  rw [mem_firsts, shared_ids idExtractor lists shares h] at hmem
  exact itemsById_get idExtractor lists hmem

/-- The public function orders the ids as the fusion with the weights as they
are. -/
theorem public_order (rankedLists : Record σ (List (α × ℚ))) (weights : Option (Record σ ℚ))
    (idExtractor : α → ι)
    (hw : ∀ s ∈ weightedLists idExtractor rankedLists weights, 0 < s.2) {x y : ι}
    (hx : x ∈ allIds ((weightedLists idExtractor rankedLists weights).map plain))
    (hy : y ∈ allIds ((weightedLists idExtractor rankedLists weights).map plain))
    (hne : x ≠ y) :
    Earlier ((reciprocalRankFusion rankedLists k weights idExtractor).map
        (fun e => idExtractor e.1)) x y ↔
      Ranks (exactScore ((weightedLists idExtractor rankedLists weights).map plain) k)
        (firsts (allIds ((weightedLists idExtractor rankedLists weights).map plain))) x y := by
  have hweights : ∀ s ∈ rankedLists.entries.filter (fun s => !s.2.isEmpty),
      0 < ((weights.getD ∅).get s.1).getD 1 := fun s hs =>
    hw _ (List.mem_map_of_mem (List.mem_filter.mp hs).1)
  obtain ⟨c, hc, hshares⟩ := shares_eq _ (weights.getD ∅) hweights
  set lists := rankedLists.entries.filter (fun s => !s.2.isEmpty)
  set base := (weightedLists idExtractor rankedLists weights).map plain with hbase
  set shared := (lists.map (fun s => converted idExtractor s.2)).zip
    (normalizedWeights lists (weights.getD ∅)) with hshared
  have hlists : shared = lists.map (fun s =>
      (converted idExtractor s.2,((weights.getD ∅).get s.1).getD 1/c)) := by
    rw [hshared, hshares, List.zip_map']
  have hsources : shared.map plain =
      (base.filter (fun s => !s.1.isEmpty)).map (fun s => (s.1,s.2/c)) := by
    have hempty : (fun s : Source ι => !s.1.isEmpty) ∘ plain ∘ (fun s : σ × List (α × ℚ) =>
        (converted idExtractor s.2,((weights.getD ∅).get s.1).getD 1)) =
          fun s => !s.2.isEmpty := by
      funext s
      simp [plain, converted]
    rw [hlists, hbase, weightedLists, List.map_map, List.map_map, List.filter_map, List.map_map,
      hempty]
    rfl
  have hids : allIds (shared.map plain) = allIds base := by
    rw [hsources, allIds_scale]
  have hscore : ∀ z, exactScore (shared.map plain) k z = exactScore base k z/c := by
    intro z
    rw [exactScore, hsources, final_scale]
  have hitems : (reciprocalRankFusion rankedLists k weights idExtractor).map
      (fun e => idExtractor e.1) = (weightedRrfNlist shared k).map FusedResult.itemId := by
    rw [reciprocalRankFusion, List.map_map]
    refine List.map_congr_left (fun r hr => ?_)
    obtain ⟨item, hitem, hown⟩ := fused_item idExtractor lists (normalizedWeights_length _ _) hr
    simp only [Function.comp_apply]
    rw [hitem, Option.getD_some, hown]
  have horder := nlist_order (k := k) shared (hids ▸ hx) (hids ▸ hy) hne
  rw [hitems, horder, hids, Ranks, Ranks, hscore, hscore, div_lt_div_iff_of_pos_right hc,
    div_left_inj' hc.ne']

end Public

/-- The ids come as the final scores of a fusion say, wherever these differ. -/
def Alike (base : List (FusedResult ι α)) (ids : List ι) : Prop :=
  ∀ r ∈ base, ∀ r' ∈ base, r'.rrfScore < r.rrfScore → Earlier ids r.itemId r'.itemId

/-- The order of reciprocal rank fusion: each id once, one contribution of each
list, a larger sum earlier, and all versions alike. -/
structure Meets (sources : List (List (Hit ι α) × ℚ)) (k : ℕ) : Prop where
  nodup : ((weightedRrfNlist sources k).map FusedResult.itemId).Nodup
  complete : ∀ x, x ∈ (weightedRrfNlist sources k).map FusedResult.itemId ↔
    ∃ s ∈ sources, ∃ h ∈ s.1, h.itemId = x
  once : ∀ x, ((sources.foldl (addSource _minMaxNormalize noteNone k) ∅).get x).elim 0
    Entry.rrfScore = rankOnce (sources.map plain) k x
  order : ∀ x ∈ allIds (sources.map plain), ∀ y ∈ allIds (sources.map plain),
    rankOnce (sources.map plain) k y < rankOnce (sources.map plain) k x →
      Earlier ((weightedRrfNlist sources k).map FusedResult.itemId) x y
  engine : ∀ v g, sources = [v,g] → Alike (weightedRrfNlist sources k)
    ((weightedRrfNormalized v.1 g.1 k v.2 g.2).map FusedResult.itemId)
  fallback : ∀ v g, sources = [v,g] → Alike (weightedRrfNlist sources k)
    ((weightedRrfFallback (plain v).1 (plain g).1 k v.2 g.2).map Prod.fst)
  accelerated : ∀ v g, sources = [v,g] → ∀ iter, Reads iter → Alike (weightedRrfNlist sources k)
    ((weightedRrfAccelerated iter (plain v).1 (plain g).1 k v.2 g.2).map Prod.fst)
  exported : ∀ (rankedLists : Record String (List (α × ℚ))) (weights : Option (Record String ℚ))
    (idExtractor : α → ι), sources = weightedLists idExtractor rankedLists weights →
      Alike (weightedRrfNlist sources k)
        ((reciprocalRankFusion rankedLists k weights idExtractor).map
          (fun e => idExtractor e.1))

/-- No list repeats an id, no tie-breaking term makes up for a difference of
two sums, and counting nearly equal scores of a list as equal moves no id. -/
structure Holds (sources : List (Source ι)) (k : ℕ) : Prop where
  distinct : ∀ s ∈ sources, s.ids.Nodup
  small : ∀ x ∈ allIds sources, ∀ y ∈ allIds sources,
    rankOnce sources k y < rankOnce sources k x →
      let excess := rankOnce sources k x-rankOnce sources k y
      let madeUp := tieSum _minMaxNormalize sources y-tieSum _minMaxNormalize sources x
      madeUp < excess ∨ madeUp = excess ∧ Earlier (firsts (allIds sources)) x y
  cutoff : sources.length = 2 → ∀ x ∈ allIds sources, ∀ y ∈ allIds sources,
    exactScore sources k y < exactScore sources k x →
      Ranks (finalScore normalizeScores sources k) (firsts (allIds sources)) x y ∧
        finalScore minMaxNormalize sources k y < finalScore minMaxNormalize sources k x

section Order

variable {k : ℕ} {sources : List (List (Hit ι α) × ℚ)}

theorem alike_iff {ids : List ι} : Alike (weightedRrfNlist sources k) ids ↔
    ∀ x ∈ allIds (sources.map plain), ∀ y ∈ allIds (sources.map plain),
      exactScore (sources.map plain) k y < exactScore (sources.map plain) k x →
        Earlier ids x y := by
  have hmem : ∀ x, x ∈ allIds (sources.map plain) ↔
      x ∈ (weightedRrfNlist sources k).map FusedResult.itemId := fun x =>
    mem_firsts.symm.trans (nlist_ids sources).mem_iff.symm
  constructor
  · intro h x hx y hy hlt
    obtain ⟨r, hr, rfl⟩ := List.mem_map.mp ((hmem x).mp hx)
    obtain ⟨r', hr', rfl⟩ := List.mem_map.mp ((hmem y).mp hy)
    refine h r hr r' hr' ?_
    rw [nlist_score hr, nlist_score hr']
    exact hlt
  · intro h r hr r' hr' hlt
    rw [nlist_score hr, nlist_score hr'] at hlt
    exact h _ ((hmem _).mpr (List.mem_map_of_mem hr)) _ ((hmem _).mpr (List.mem_map_of_mem hr')) hlt

/-- A version that ranks by the same scores is alike. -/
theorem alike_of_order {ids seen : List ι} (h : ∀ x ∈ allIds (sources.map plain),
    ∀ y ∈ allIds (sources.map plain), x ≠ y →
      (Earlier ids x y ↔ Ranks (exactScore (sources.map plain) k) seen x y)) :
    Alike (weightedRrfNlist sources k) ids := by
  refine alike_iff.mpr (fun x hx y hy hlt => ?_)
  have hne : x ≠ y := by
    rintro rfl
    exact lt_irrefl _ hlt
  exact (h x hx y hy hne).mpr (Or.inl hlt)

omit [DecidableEq ι] in
theorem mem_allIds {x : ι} : x ∈ allIds (sources.map plain) ↔
    ∃ s ∈ sources, ∃ h ∈ s.1, h.itemId = x := by
  rw [allIds, List.mem_flatMap]
  constructor
  · rintro ⟨_, hplain, hx⟩
    obtain ⟨s, hs, rfl⟩ := List.mem_map.mp hplain
    rw [plain_ids] at hx
    exact ⟨s, hs, List.mem_map.mp hx⟩
  · rintro ⟨s, hs, hx⟩
    exact ⟨plain s, List.mem_map.mpr ⟨s, hs, rfl⟩, plain_ids s ▸ List.mem_map.mpr hx⟩

theorem order_iff (h : ∀ x, rankSum (sources.map plain) k x = rankOnce (sources.map plain) k x)
    {x y : ι} (hx : x ∈ allIds (sources.map plain)) (hy : y ∈ allIds (sources.map plain))
    (hne : x ≠ y) :
    Earlier ((weightedRrfNlist sources k).map FusedResult.itemId) x y ↔
      tieSum _minMaxNormalize (sources.map plain) y-
          tieSum _minMaxNormalize (sources.map plain) x <
        rankOnce (sources.map plain) k x-rankOnce (sources.map plain) k y ∨
      tieSum _minMaxNormalize (sources.map plain) y-
          tieSum _minMaxNormalize (sources.map plain) x =
        rankOnce (sources.map plain) k x-rankOnce (sources.map plain) k y ∧
        Earlier (firsts (allIds (sources.map plain))) x y := by
  rw [nlist_order sources hx hy hne, Ranks, exactScore, finalScore, finalScore, h, h]
  refine or_congr ⟨fun hlt => ?_, fun hlt => ?_⟩ (and_congr ⟨fun heq => ?_, fun heq => ?_⟩ Iff.rfl)
  · linarith
  · linarith
  · linarith
  · linarith

/-- For lists of positive weights and a positive constant. -/
theorem fusion_iff (sources : List (List (Hit ι α) × ℚ)) (k : ℕ) (hw : ∀ s ∈ sources, 0 < s.2)
    (hk : 0 < k) : Meets sources k ↔ Holds (sources.map plain) k := by
  have hw' : ∀ s ∈ sources.map plain, 0 < s.2 := by
    intro s hs
    obtain ⟨s', hs', rfl⟩ := List.mem_map.mp hs
    exact hw s' hs'
  have honce := rankSum_once_iff hw' hk
  have hrrf := (nlist_fuses (k := k) sources).rrf
  have hne_of : ∀ {f : ι → ℚ} {x y : ι}, f y < f x → x ≠ y := by
    rintro f x y hlt rfl
    exact lt_irrefl _ hlt
  constructor
  · intro h
    have hsum : ∀ x, rankSum (sources.map plain) k x = rankOnce (sources.map plain) k x :=
      fun x => (hrrf x).symm.trans (h.once x)
    refine ⟨honce.mp hsum, fun x hx y hy hlt => ?_, fun htwo x hx y hy hlt => ?_⟩
    · exact (order_iff hsum hx hy (hne_of hlt)).mp (h.order x hx y hy hlt)
    · rw [List.length_map] at htwo
      obtain ⟨v, g, rfl⟩ := List.length_eq_two.mp htwo
      have hfallback := alike_iff.mp (h.fallback v g rfl) x hx y hy hlt
      have hforward := alike_iff.mp (h.accelerated v g rfl Record.entries
        (fun r => List.Perm.refl _)) x hx y hy hlt
      have hbackward := alike_iff.mp (h.accelerated v g rfl (fun r => r.entries.reverse)
        (fun r => r.entries.reverse_perm)) x hx y hy hlt
      refine ⟨(fallback_order (plain v) (plain g) hx hy (hne_of hlt)).mp hfallback, ?_⟩
      rcases (accelerated_order (fun r => List.Perm.refl _) (plain v) (plain g) hx hy
        (hne_of hlt)).mp hforward with hscore | ⟨-, hseen⟩
      · exact hscore
      · rcases (accelerated_order (fun r => r.entries.reverse_perm) (plain v) (plain g) hx hy
          (hne_of hlt)).mp hbackward with hscore | ⟨-, hback⟩
        · exact hscore
        · -- the map read in two directions cannot have the ids in one order
          rw [List.map_reverse, earlier_reverse] at hback
          exact absurd hback (earlier_asymm (Record.nodup _) hseen)
  · intro h
    have hsum := honce.mpr h.distinct
    have hperm := nlist_ids (k := k) sources
    refine ⟨?_, fun x => ?_, fun x => (hrrf x).trans (hsum x), fun x hx y hy hlt => ?_,
      ?_, ?_, ?_, ?_⟩
    · rw [hperm.nodup_iff, ← (nlist_fuses (k := k) sources).keys]
      exact Record.nodup _
    · rw [hperm.mem_iff, mem_firsts, mem_allIds]
    · exact (order_iff hsum hx hy (hne_of hlt)).mpr (h.small x hx y hy hlt)
    · rintro v g rfl
      exact alike_of_order (fun x hx y hy hne => engine_order v.1 g.1 v.2 g.2 hx hy hne)
    · rintro v g rfl
      exact alike_iff.mpr (fun x hx y hy hlt =>
        (fallback_order (plain v) (plain g) hx hy (hne_of hlt)).mpr (h.cutoff rfl x hx y hy hlt).1)
    · rintro v g rfl iter hiter
      exact alike_iff.mpr (fun x hx y hy hlt =>
        (accelerated_order hiter (plain v) (plain g) hx hy (hne_of hlt)).mpr
          (Or.inl (h.cutoff rfl x hx y hy hlt).2))
    · rintro rankedLists weights idExtractor rfl
      exact alike_of_order (fun x hx y hy hne =>
        public_order rankedLists weights idExtractor hw hx hy hne)

end Order

namespace Dominated

/-- The second of two hits, with the lowest score of its list, and the third of
four hits, with the highest one. -/
def sources : List (List (Hit ℕ Unit) × ℚ) :=
  [([⟨0,1,()⟩,⟨1,0,()⟩],1),([⟨2,1,()⟩,⟨3,1,()⟩,⟨4,1,()⟩,⟨5,0,()⟩],1)]

theorem larger_sum_later : ¬ Meets sources 60 := by
  intro h
  have hids : (weightedRrfNlist sources 60).map FusedResult.itemId = [0,2,3,4,1,5] := by
    decide +kernel
  have horder := h.order 1 (by decide) 4 (by decide) (by decide +kernel)
  rw [hids] at horder
  exact absurd horder (show ¬ List.Sublist [1,4] [0,2,3,4,1,5] by decide)

theorem sources_iff : Meets sources 60 ↔ Holds (sources.map plain) 60 :=
  fusion_iff sources 60 (by decide) (by decide)

end Dominated

end Uru.Query.RankFusion
