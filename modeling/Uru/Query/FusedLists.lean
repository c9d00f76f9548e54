import Mathlib.Algebra.BigOperators.Group.List.Basic
import Mathlib.Data.List.Nodup
import Mathlib.Tactic
import Uru.Lib.Ranking
import Uru.Lib.Record
import Uru.Lib.SortOn
import Uru.Query.RankFusion
import Uru.Query.RankFusionExact

/-!
# The lists of a query

The searches of a query, and of its expansions, give the lists that are fused;
one of the two pipelines brings their scores to a common range first. Where
only one list has a weight, the fused scores tell the order of its items: of
two with equal scores the earlier one is ahead.
-/

set_option autoImplicit false

namespace Uru.Query.FusedLists
open Uru.Lib
open Uru.Query.RankFusion hiding Source

inductive SourceType where
  | vector
  | graph
  | keyword
deriving DecidableEq

structure Source where
  base : SourceType
  exp : Option ℕ
deriving DecidableEq

section Fuse

variable {α : Type}

/-- The weights of chunk lists; those of expansions are discounted. -/
def weights (weight : SourceType → ℚ) (lists : Record Source (List (α × ℚ))) : Record Source ℚ :=
  lists.entries.foldl (fun r s => r.set s.1
    (match s.1.exp with
      | none => weight s.1.base
      | some _ => weight s.1.base*(7/10))) ∅

/-- Lists of entities have the weights of two searches only. -/
def entityWeights (weight : SourceType → ℚ) : Record Source ℚ :=
  ((∅ : Record Source ℚ).set ⟨.vector,none⟩ (weight .vector)).set ⟨.graph,none⟩ (weight .graph)

/-- `_stage2_normalize_fuse`: scores brought to the range from 0 to 1. -/
def normalized (results : List (α × ℚ)) : List (α × ℚ) :=
  match results.map Prod.snd with
  | [] => results
  | s::scores =>
    let minScore := scores.foldl min s
    let maxScore := scores.foldl max s
    if 0 < maxScore-minScore then
      results.map (fun e => (e.1,(e.2-minScore)/(maxScore-minScore)))
    else results.map (fun e => (e.1,1/2))

def handed (enableMultiStage : Bool) (lists : Record Source (List (α × ℚ))) :
    Record Source (List (α × ℚ)) :=
  if enableMultiStage then
    lists.entries.foldl (fun r s => r.set s.1 (normalized s.2)) ∅
  else lists

def Falling (l : List (α × ℚ)) : Prop := l.Pairwise (fun a b => b.2 ≤ a.2)

theorem normalized_map (l : List (α × ℚ)) :
    ∃ f : ℚ → ℚ, Monotone f ∧ normalized l = l.map (fun e => (e.1,f e.2)) := by
  unfold normalized
  split
  · exact ⟨id, monotone_id, (List.map_id l).symm⟩
  · rename_i s scores hscores
    by_cases hpos : 0 < scores.foldl max s-scores.foldl min s
    · refine ⟨fun x => (x-scores.foldl min s)/(scores.foldl max s-scores.foldl min s), ?_, ?_⟩
      · intro a b hab
        exact div_le_div_of_nonneg_right (sub_le_sub_right hab _) hpos.le
      · exact if_pos hpos
    · exact ⟨fun _ => 1/2, monotone_const, if_neg hpos⟩

theorem Falling.map {l : List (α × ℚ)} (h : Falling l) {f : ℚ → ℚ} (hf : Monotone f) :
    Falling (l.map (fun e => (e.1,f e.2))) :=
  List.pairwise_map.mpr (h.imp (fun hab => hf hab))

/-- A list that is handed on falls if the one it comes from does. -/
theorem handed_get {b : Bool} {lists : Record Source (List (α × ℚ))} {c : Source}
    {l : List (α × ℚ)} (h : (handed b lists).get c = some l) :
    ∃ l', lists.get c = some l' ∧ l.map Prod.fst = l'.map Prod.fst ∧ (Falling l' → Falling l) := by
  cases b with
  | false => exact ⟨l, h, rfl, fun hl => hl⟩
  | true =>
    have hfold : handed true lists =
        Record.ofList (lists.entries.map (fun s => (s.1,normalized s.2))) := by
      rw [handed, if_pos rfl, Record.ofList, List.foldl_map]
    have hkeys : (lists.entries.map (fun s => (s.1,normalized s.2))).map Prod.fst =
        lists.entries.map Prod.fst := by
      rw [List.map_map]
      rfl
    have hentries := Record.foldl_set_entries (lists.entries.map (fun s => (s.1,normalized s.2)))
      (∅ : Record Source (List (α × ℚ))) (by
        rw [List.map_append, hkeys]
        exact lists.nodup)
    rw [hfold, ← Record.mem_entries, Record.ofList, hentries] at h
    obtain ⟨s, hs, heq⟩ := List.mem_map.mp h
    obtain ⟨f, hf, hmap⟩ := normalized_map s.2
    cases heq
    refine ⟨s.2, (lists.mem_entries s.1 s.2).mp hs, ?_, fun hl => hmap ▸ hl.map hf⟩
    rw [hmap, List.map_map]
    rfl

theorem weights_get (weight : SourceType → ℚ) {lists : Record Source (List (α × ℚ))}
    {s : Source × List (α × ℚ)} (hs : s ∈ lists.entries) (hexp : s.1.exp = none) :
    (weights weight lists).get s.1 = some (weight s.1.base) := by
  set value : Source → ℚ := fun c =>
    match c.exp with
    | none => weight c.base
    | some _ => weight c.base*(7/10) with hvalue
  have hfold : weights weight lists =
      Record.ofList (lists.entries.map (fun s => (s.1,value s.1))) := by
    rw [weights, Record.ofList, List.foldl_map]
  have hkeys : (lists.entries.map (fun s => (s.1,value s.1))).map Prod.fst =
      lists.entries.map Prod.fst := by
    rw [List.map_map]
    rfl
  have hentries := Record.foldl_set_entries (lists.entries.map (fun s => (s.1,value s.1)))
    (∅ : Record Source ℚ) (by
      rw [List.map_append, hkeys]
      exact lists.nodup)
  rw [hfold, ← Record.mem_entries, Record.ofList, hentries]
  refine List.mem_map.mpr ⟨s, hs, ?_⟩
  rw [hvalue]
  simp only [hexp]

end Fuse

section Alone

variable {ι α σ : Type} [DecidableEq ι] [DecidableEq σ] {k : ℕ}

omit [DecidableEq ι] [DecidableEq σ] in
/-- A sum with one term that is not zero. -/
theorem sum_alone {β : Type} (f : σ × β → ℚ) {l : List (σ × β)} (hl : (l.map Prod.fst).Nodup)
    {c : σ × β} (hc : c ∈ l) (hzero : ∀ s ∈ l, s.1 ≠ c.1 → f s = 0) : (l.map f).sum = f c := by
  induction l with
  | nil => cases hc
  | cons s l ih =>
    rw [List.map_cons, List.nodup_cons] at hl
    rw [List.map_cons, List.sum_cons]
    rcases List.mem_cons.mp hc with rfl | hmem
    · have hrest : (l.map f).sum = 0 := by
        refine List.sum_eq_zero (fun x hx => ?_)
        obtain ⟨s, hs, rfl⟩ := List.mem_map.mp hx
        exact hzero s (List.mem_cons_of_mem c hs)
          (fun heq => hl.1 (heq ▸ List.mem_map_of_mem hs))
      rw [hrest, add_zero]
    · have hother : s.1 ≠ c.1 := fun heq => hl.1 (heq ▸ List.mem_map_of_mem hmem)
      rw [hzero s List.mem_cons_self hother, zero_add]
      exact ih hl.2 hmem (fun s' hs' => hzero s' (List.mem_cons_of_mem s hs'))

theorem places_zero (x : ι) (ids : List ι) (rank : ℕ) : places 0 k x ids rank = 0 := by
  induction ids generalizing rank with
  | nil => rfl
  | cons y ids ih => rw [places, ih, zero_div, ite_self, add_zero]

theorem tie_zero (x : ι) (scored : List (ι × ℚ)) : tie 0 x scored = 0 := by
  simp [tie]

def scored (id : α → ι) (l : List (α × ℚ)) : List (ι × ℚ) := l.map (fun e => (id e.1,e.2))

def aloneScore (k : ℕ) (p : List (ι × ℚ)) (x : ι) : ℚ :=
  places 1 k x (p.map Prod.fst) 1+
    tie 1 x ((p.map Prod.fst).zip (_minMaxNormalize (p.map Prod.snd)))

omit [DecidableEq ι] in
theorem alone_shares {lists : List (σ × List (α × ℚ))} (hn : (lists.map Prod.fst).Nodup)
    {weights : Record σ ℚ} {c : σ} {l : List (α × ℚ)} (hc : (c,l) ∈ lists)
    (hw : ∀ s ∈ lists, (weights.get s.1).getD 1 = if s.1 = c then 1 else 0) :
    normalizedWeights lists weights = lists.map (fun s => if s.1 = c then 1 else 0) := by
  have htotal : (lists.map (fun s => (weights.get s.1).getD 1)).sum = 1 := by
    refine (sum_alone (fun s : σ × List (α × ℚ) => (weights.get s.1).getD 1) hn hc
      (fun s hs hne => ?_)).trans ?_
    · exact (hw s hs).trans (if_neg hne)
    · exact (hw (c,l) hc).trans (if_pos rfl)
  simp only [normalizedWeights, htotal]
  rw [if_neg one_ne_zero]
  exact List.map_congr_left (fun s hs => by rw [hw s hs, div_one])

/-- Where the weights of the other lists are zero, one list gives the scores. -/
theorem fused_alone {lists : Record σ (List (α × ℚ))} {weights : Record σ ℚ} {id : α → ι} {c : σ}
    {l : List (α × ℚ)} (hc : lists.get c = some l) (hl : l ≠ [])
    (hw : ∀ s ∈ lists.entries, (weights.get s.1).getD 1 = if s.1 = c then 1 else 0) {e : α × ℚ}
    (he : e ∈ reciprocalRankFusion lists k (some weights) id) :
    e.2 = aloneScore k (scored id l) (id e.1) := by
  obtain ⟨r, hr, rfl⟩ := List.mem_map.mp he
  rw [Option.getD_some] at hr
  set kept := lists.entries.filter (fun s => !s.2.isEmpty) with hkept
  have hn : (kept.map Prod.fst).Nodup := lists.nodup.sublist (List.filter_sublist.map Prod.fst)
  have hmem : (c,l) ∈ kept := by
    rw [hkept, List.mem_filter, Record.mem_entries]
    exact ⟨hc, by simpa using hl⟩
  obtain ⟨item, hitem, hid⟩ := fused_item id kept (normalizedWeights_length _ _) hr
  have hscore := nlist_score hr
  have hsources : ((kept.map (fun s => converted id s.2)).zip
      (normalizedWeights kept weights)).map RankFusion.plain =
        kept.map (fun s => (scored id s.2,if s.1 = c then 1 else 0)) := by
    rw [alone_shares hn hmem (fun s hs => hw s (List.mem_filter.mp hs).1), List.zip_map',
      List.map_map]
    refine List.map_congr_left (fun s _ => ?_)
    simp [RankFusion.plain, converted, scored]
  rw [hsources] at hscore
  simp only [hitem, Option.getD_some, hid]
  rw [hscore, exactScore, finalScore, rankSum, tieSum, aloneScore, List.map_map, List.map_map]
  congr 1
  · refine (sum_alone _ hn hmem (fun s _ hne => ?_)).trans ?_
    · simp only [Function.comp_apply, if_neg hne]
      exact places_zero _ _ _
    · simp only [Function.comp_apply, if_pos]
      rfl
  · refine (sum_alone _ hn hmem (fun s _ hne => ?_)).trans ?_
    · simp only [Function.comp_apply, if_neg hne]
      exact tie_zero _ _
    · simp only [Function.comp_apply, if_pos]
      rfl

/-- Of two equal scores the earlier one is ahead. -/
theorem alone_earlier {p : List (ι × ℚ)} (hn : (p.map Prod.fst).Nodup) {e e' : ι × ℚ}
    (h : Earlier p e e') (heq : e.2 = e'.2) : aloneScore k p e'.1 < aloneScore k p e.1 := by
  obtain ⟨he, he'⟩ := h.mem
  obtain ⟨g, hg⟩ : ∃ g : ℚ → ℚ, _minMaxNormalize (p.map Prod.snd) = (p.map Prod.snd).map g :=
    normalizeBy_map _ _
  have htie : ∀ x ∈ p, tie 1 x.1 ((p.map Prod.fst).zip (_minMaxNormalize (p.map Prod.snd))) =
      1*g x.2*(1/100) := by
    intro x hx
    rw [hg, List.map_map, List.zip_map', tie, List.map_map]
    refine (sum_alone _ hn hx (fun s _ hne => ?_)).trans ?_
    · exact if_neg hne
    · exact if_pos rfl
  have hrank : ∀ x ∈ p, places 1 k x.1 (p.map Prod.fst) 1 =
      1/((k : ℚ)+(1+(p.map Prod.fst).idxOf x.1 : ℕ)) := by
    intro x hx
    rw [places_once hn, place, if_pos (List.mem_map_of_mem hx)]
  have hlt := earlier_idxOf hn (earlier_map Prod.fst h)
  rw [aloneScore, aloneScore, htie e he, htie e' he', heq, hrank e he, hrank e' he']
  refine add_lt_add_left (one_div_lt_one_div_of_lt ?_ ?_) _
  · positivity
  · exact_mod_cast Nat.add_lt_add_left (Nat.add_lt_add_left hlt 1) k

end Alone

section Agree

variable {ι α σ : Type} [DecidableEq ι] [DecidableEq σ] {k : ℕ} {id : α → ι}

/-- The same items, none of them strictly ahead of another in one list and
strictly behind it in the other. -/
def Agree (id : α → ι) (l l' : List (α × ℚ)) : Prop :=
  (l.map (fun e => id e.1)).Perm (l'.map (fun e => id e.1)) ∧
    ∀ a ∈ l, ∀ b ∈ l, ∀ a' ∈ l', ∀ b' ∈ l', id a'.1 = id a.1 → id b'.1 = id b.1 →
      b.2 < a.2 → b'.2 ≤ a'.2

theorem fusion_ids (lists : Record σ (List (α × ℚ))) (weights : Option (Record σ ℚ)) :
    ((reciprocalRankFusion lists k weights id).map (fun e => id e.1)).Perm
      (firsts (((lists.entries.filter (fun s => !s.2.isEmpty)).flatMap Prod.snd).map
        (fun e => id e.1))) := by
  rw [reciprocalRankFusion, List.map_map]
  set kept := lists.entries.filter (fun s => !s.2.isEmpty)
  have hlen := normalizedWeights_length kept (weights.getD ∅)
  rw [← shared_ids id kept _ hlen]
  refine (List.Perm.of_eq (List.map_congr_left (fun r hr => ?_))).trans (nlist_ids _)
  obtain ⟨item, hitem, hid⟩ := fused_item id kept hlen hr
  simp only [Function.comp_apply]
  rw [hitem, Option.getD_some, hid]

theorem mem_fusion {lists : Record σ (List (α × ℚ))} {weights : Option (Record σ ℚ)} {c : σ}
    {l : List (α × ℚ)} (hc : lists.get c = some l) {e : α × ℚ} (he : e ∈ l) :
    ∃ a ∈ reciprocalRankFusion lists k weights id, id a.1 = id e.1 := by
  refine List.mem_map.mp ((fusion_ids lists weights).mem_iff.mpr (mem_firsts.mpr ?_))
  refine List.mem_map.mpr ⟨e, List.mem_flatMap.mpr ⟨(c,l), ?_, he⟩, rfl⟩
  rw [List.mem_filter, Record.mem_entries]
  exact ⟨hc, by simpa using List.ne_nil_of_mem he⟩

theorem agree_refl (lists : Record σ (List (α × ℚ))) (weights : Option (Record σ ℚ)) :
    Agree id (reciprocalRankFusion lists k weights id)
      (reciprocalRankFusion lists k weights id) := by
  have hn : ((reciprocalRankFusion lists k weights id).map (fun e => id e.1)).Nodup :=
    (fusion_ids lists weights).nodup_iff.mpr (firsts_nodup _)
  refine ⟨List.Perm.refl _, fun a ha b hb a' ha' b' hb' hid hid' hlt => ?_⟩
  rw [List.inj_on_of_nodup_map hn ha' ha hid, List.inj_on_of_nodup_map hn hb' hb hid']
  exact hlt.le

/-- The list falls, and a better score never makes for a worse contribution. -/
structure Ranked (id : α → ι) (l : List (α × ℚ)) : Prop where
  falling : Falling l
  better : ∀ a ∈ l, ∀ b ∈ l, b.2 < a.2 → ∀ (weight : ℚ) (k : ℕ), 0 ≤ weight →
    place weight k (id b.1) (l.map (fun e => id e.1)) 1 ≤
      place weight k (id a.1) (l.map (fun e => id e.1)) 1

theorem Falling.ranked {l : List (α × ℚ)} (h : Falling l)
    (hn : (l.map (fun e => id e.1)).Nodup) : Ranked id l := by
  refine ⟨h, fun a ha b hb hlt weight k hw => ?_⟩
  have hne : a ≠ b := by
    rintro rfl
    exact lt_irrefl _ hlt
  have hearlier : Earlier l a b := (earlier_total ha hb hne).resolve_right
    (fun hba => absurd (List.pairwise_iff_forall_sublist.mp h hba) (not_le.mpr hlt))
  have hidx := earlier_idxOf hn (earlier_map (fun e => id e.1) hearlier)
  rw [place, place, if_pos (List.mem_map_of_mem ha), if_pos (List.mem_map_of_mem hb)]
  refine div_le_div_of_nonneg_left hw (by positivity) ?_
  exact_mod_cast Nat.add_le_add_left (Nat.add_le_add_left hidx.le 1) k

theorem handed_ranked {l l' : List (α × ℚ)} (hids : l.map Prod.fst = l'.map Prod.fst)
    (hfall : Falling l' → Falling l) (h : Falling l' ∧ (l'.map (fun e => id e.1)).Nodup) :
    Ranked id l := by
  refine (hfall h.1).ranked ?_
  have hmap := congrArg (List.map id) hids
  rw [List.map_map, List.map_map] at hmap
  have hn : (l'.map (id ∘ Prod.fst)).Nodup := h.2
  exact hmap ▸ hn

/-- Two items of equal scores that change places within the only list with a
weight. -/
theorem not_agree {lists lists' : Record σ (List (α × ℚ))} {weights weights' : Record σ ℚ} {c : σ}
    {l l' : List (α × ℚ)} (hc : lists.get c = some l) (hc' : lists'.get c = some l')
    (hw : ∀ s ∈ lists.entries, (weights.get s.1).getD 1 = if s.1 = c then 1 else 0)
    (hw' : ∀ s ∈ lists'.entries, (weights'.get s.1).getD 1 = if s.1 = c then 1 else 0)
    (hn : ((scored id l).map Prod.fst).Nodup) (hn' : ((scored id l').map Prod.fst).Nodup)
    {e e' : ι × ℚ} (h : Earlier (scored id l) e e') (h' : Earlier (scored id l') e' e)
    (heq : e.2 = e'.2) :
    ¬ Agree id (reciprocalRankFusion lists k (some weights) id)
      (reciprocalRankFusion lists' k (some weights') id) := by
  intro hagree
  obtain ⟨d, hd, rfl⟩ := List.mem_map.mp h.mem.1
  obtain ⟨d', hd', rfl⟩ := List.mem_map.mp h.mem.2
  have hl := List.ne_nil_of_mem hd
  have hl' : l' ≠ [] := by
    rintro rfl
    exact List.not_mem_nil h'.mem.1
  obtain ⟨a, ha, hida⟩ := @mem_fusion ι α σ _ _ k id lists (some weights) c l hc d hd
  obtain ⟨b, hb, hidb⟩ := @mem_fusion ι α σ _ _ k id lists (some weights) c l hc d' hd'
  obtain ⟨f, hf, hfd⟩ := List.mem_map.mp h'.mem.2
  obtain ⟨f', hf', hfd'⟩ := List.mem_map.mp h'.mem.1
  obtain ⟨a', ha', hida'⟩ := @mem_fusion ι α σ _ _ k id lists' (some weights') c l' hc' f hf
  obtain ⟨b', hb', hidb'⟩ := @mem_fusion ι α σ _ _ k id lists' (some weights') c l' hc' f' hf'
  replace hida' := hida'.trans (congrArg Prod.fst hfd)
  replace hidb' := hidb'.trans (congrArg Prod.fst hfd')
  have hlt := alone_earlier (k := k) hn h heq
  have hlt' := alone_earlier (k := k) hn' h' heq.symm
  refine absurd (hagree.2 a ha b hb a' ha' b' hb' (hida'.trans hida.symm)
    (hidb'.trans hidb.symm) ?_) (not_le.mpr ?_)
  · rw [fused_alone hc hl hw ha, fused_alone hc hl hw hb, hida, hidb]
    exact hlt
  · rw [fused_alone hc' hl' hw' ha', fused_alone hc' hl' hw' hb', hida', hidb']
    exact hlt'

def turn (l : List (α × ℚ)) : List (α × ℚ) := sortOn (fun e => OrderDual.toDual e.2) l.reverse

theorem turn_perm (l : List (α × ℚ)) : (turn l).Perm l :=
  (sortOn_perm _ _).trans l.reverse_perm

theorem turn_falling (l : List (α × ℚ)) : Falling (turn l) :=
  (sortOn_pairwise (fun e : α × ℚ => OrderDual.toDual e.2) l.reverse).imp
    (fun h => OrderDual.toDual_le_toDual.mp h)

theorem turn_earlier {l : List (α × ℚ)} (hl : l.Nodup) {e e' : α × ℚ} (h : Earlier l e e')
    (heq : e.2 = e'.2) : Earlier (turn l) e' e := by
  refine (sortOn_earlier (fun e : α × ℚ => OrderDual.toDual e.2) (List.nodup_reverse.mpr hl)
    (List.mem_reverse.mpr h.mem.2) (List.mem_reverse.mpr h.mem.1) (earlier_ne hl h).symm).mpr ?_
  exact Or.inr ⟨congrArg OrderDual.toDual heq.symm, earlier_reverse.mpr h⟩

theorem exists_tie {l : List (α × ℚ)} (h : ¬ (l.map Prod.snd).Nodup) :
    ∃ e e', Earlier l e e' ∧ e.2 = e'.2 := by
  rw [List.Nodup, List.pairwise_map, List.pairwise_iff_forall_sublist] at h
  push Not at h
  obtain ⟨e, e', hearlier, heq⟩ := h
  exact ⟨e, e', hearlier, heq⟩

end Agree

end Uru.Query.FusedLists
