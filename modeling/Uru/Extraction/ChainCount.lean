import Mathlib.Data.Set.Card
import Uru.Extraction.Derivation

/-!
# Counting chains

The partial matches of the engine are different lists of relationships, each of
which is a chain of the conditions so far. So there are at most as many of them
as there are such chains, and where these are few no cap stops the evaluation.
-/

set_option autoImplicit false

namespace Uru.Extraction

open Uru.Storage (UUID)

/-- The relationships of a chain that meets some conditions. -/
def Follows (entities : List Entity) (rels : Set Relationship) (cs : List InferenceCondition)
    (rs : List Relationship) : Prop :=
  (∀ r ∈ rs, r ∈ rels) ∧ ∃ ls, Chain entities (Relationship.key '' rels) cs ls ∧
    rs.map Relationship.key = ls.map Link.key

noncomputable def chainCount (entities : List Entity) (rels : Set Relationship)
    (cs : List InferenceCondition) : ℕ∞ := {rs | Follows entities rels cs rs}.encard

theorem Follows.mono {entities : List Entity} {rels rels' : Set Relationship} (h : rels ⊆ rels')
    {cs : List InferenceCondition} {rs : List Relationship} (hf : Follows entities rels cs rs) :
    Follows entities rels' cs rs := by
  obtain ⟨hrs, ls, hc, hkeys⟩ := hf
  exact ⟨fun r hr => h (hrs r hr), ls, hc.mono (Set.image_mono h), hkeys⟩

theorem chainCount_mono (entities : List Entity) {rels rels' : Set Relationship}
    (h : rels ⊆ rels') (cs : List InferenceCondition) :
    chainCount entities rels cs ≤ chainCount entities rels' cs :=
  Set.encard_le_encard (fun _ hf => hf.mono h)

section Different

theorem addAbsent_nodup {out rels : List Relationship} (h : out.Nodup) :
    (addAbsent out rels).Nodup := by
  induction rels generalizing out with
  | nil => exact h
  | cons r rels ih =>
    have hstep : addAbsent out (r::rels) = addAbsent (if r ∈ out then out else out++[r]) rels :=
      rfl
    rw [hstep]
    split_ifs with hr
    · exact ih h
    · exact ih (List.nodup_append.mpr ⟨h, List.nodup_singleton r, fun a ha b hb hab => by
        rw [List.mem_singleton.mp hb] at hab
        exact hr (hab ▸ ha)⟩)

variable (ctx : RuleEvaluationContext)

theorem candidateRels_nodup (hrels : ctx.relationships.Nodup) (prev : Relationship) (t : String) :
    (candidateRels ctx prev t).Nodup :=
  addAbsent_nodup (addAbsent_nodup ((hrels.filter _).filter _))

theorem filter_by_types_nodup {rels : List Relationship} (h : rels.Nodup)
    (sourceType targetType : Option String) :
    (ctx.filterRelationshipsByTypes rels sourceType targetType).Nodup := by
  unfold RuleEvaluationContext.filterRelationshipsByTypes
  split_ifs
  · exact h
  · exact h.filter _

/-- Extending a match by different relationships leads to different matches. -/
theorem extended_sublist (name : String) (p : PartialMatch) (rels : List Relationship) :
    ((rels.filterMap (extended ctx name p)).map PartialMatch.matchedRels).Sublist
      (rels.map (fun r => p.matchedRels++[r])) := by
  induction rels with
  | nil => exact List.Sublist.slnil
  | cons r rels ih =>
    rw [List.filterMap_cons, List.map_cons]
    unfold extended at ih ⊢
    cases ctx.ends r with
    | none => exact ih.cons _
    | some e => exact ih.cons_cons _

theorem extended_nodup (name : String) (p : PartialMatch) {rels : List Relationship}
    (h : rels.Nodup) :
    ((rels.filterMap (extended ctx name p)).map PartialMatch.matchedRels).Nodup := by
  refine (extended_sublist ctx name p rels).nodup (h.map fun r r' heq => ?_)
  exact List.singleton_inj.mp (List.append_cancel_left heq)

theorem extensions_prefix {c : InferenceCondition} {name : String} {p q : PartialMatch}
    (hq : q ∈ extensions ctx c name p) : q.matchedRels.dropLast = p.matchedRels := by
  unfold extensions at hq
  split at hq
  · cases hq
  · obtain ⟨r, -, hext⟩ := List.mem_filterMap.mp hq
    obtain ⟨e, -, rfl⟩ := Option.map_eq_some_iff.mp hext
    exact List.dropLast_concat

variable (hrels : ctx.relationships.Nodup)

include hrels

theorem firstMatches_nodup (c : InferenceCondition) :
    ((firstMatches ctx c).map PartialMatch.matchedRels).Nodup :=
  extended_nodup ctx _ _ (filter_by_types_nodup ctx (hrels.filter _) _ _)

theorem extensions_nodup (c : InferenceCondition) (name : String) (p : PartialMatch) :
    ((extensions ctx c name p).map PartialMatch.matchedRels).Nodup := by
  unfold extensions
  split
  · exact List.nodup_nil
  · exact extended_nodup ctx _ _ (filter_by_types_nodup ctx (candidateRels_nodup ctx hrels _ _) _ _)

/-- Extending different matches leads to different matches. -/
theorem flatMap_extensions_nodup (c : InferenceCondition) (name : String) {ps : List PartialMatch}
    (hps : (ps.map PartialMatch.matchedRels).Nodup) :
    ((ps.flatMap (extensions ctx c name)).map PartialMatch.matchedRels).Nodup := by
  rw [List.map_flatMap, List.nodup_flatMap]
  refine ⟨fun p _ => extensions_nodup ctx hrels c name p, ?_⟩
  refine (List.pairwise_map.mp hps).imp (fun {p p'} hne => ?_)
  intro rs hrs hrs'
  obtain ⟨q, hq, rfl⟩ := List.mem_map.mp hrs
  obtain ⟨q', hq', heq⟩ := List.mem_map.mp hrs'
  apply hne
  rw [← extensions_prefix ctx hq, ← extensions_prefix ctx hq', heq]

end Different

section Count

variable (ctx : RuleEvaluationContext)

structure Chains (done : List InferenceCondition) (ps : List PartialMatch) : Prop where
  nodup : (ps.map PartialMatch.matchedRels).Nodup
  known : ∀ p ∈ ps, ∀ r ∈ p.matchedRels, r ∈ ctx.relationships
  chain : ∀ p ∈ ps, ∃ ls, Represents p ls ∧ Chain ctx.entities ctx.facts done ls

def RuleEvaluationContext.rels : Set Relationship := { r | r ∈ ctx.relationships }

theorem image_rels : Relationship.key '' ctx.rels = ctx.facts := by
  ext x
  simp [RuleEvaluationContext.rels, RuleEvaluationContext.facts]

variable {ctx}

theorem Chains.length_le {done : List InferenceCondition} {ps : List PartialMatch}
    (h : Chains ctx done ps) : (ps.length : ℕ∞) ≤ chainCount ctx.entities ctx.rels done := by
  have hsub : ((ps.map PartialMatch.matchedRels).toFinset : Set (List Relationship)) ⊆
      {rs | Follows ctx.entities ctx.rels done rs} := by
    intro rs hrs
    obtain ⟨p, hp, rfl⟩ := List.mem_map.mp (List.mem_toFinset.mp (Finset.mem_coe.mp hrs))
    obtain ⟨ls, hrep, hc⟩ := h.chain p hp
    refine ⟨h.known p hp, ls, ?_, hrep.keys⟩
    rwa [image_rels]
  have hcard := Set.encard_le_encard hsub
  rwa [Set.encard_coe_eq_coe_finsetCard, List.toFinset_card_of_nodup h.nodup, List.length_map]
    at hcard

variable (hrels : ctx.relationships.Nodup) (hids : (ctx.entities.map Entity.id).Nodup)

include hrels hids

theorem chains_first (c : InferenceCondition) : Chains ctx [c] (firstMatches ctx c) := by
  refine ⟨firstMatches_nodup ctx hrels c, fun p hp r hr => ?_, fun p hp => ?_⟩
  · obtain ⟨r', hr', hext⟩ := List.mem_filterMap.mp hp
    obtain ⟨e, he, rfl⟩ := Option.map_eq_some_iff.mp hext
    obtain rfl := List.mem_singleton.mp hr
    exact (List.mem_filter.mp ((mem_filter_by_types ctx he).mp hr').1).1
  · obtain ⟨l, hl, hrep⟩ := firstMatches_link hids hp
    exact ⟨[l], hrep, .first hl⟩

theorem chains_next {done : List InferenceCondition} {ps : List PartialMatch}
    (h : Chains ctx done ps) (c : InferenceCondition) :
    Chains ctx (done++[c]) (ps.flatMap (extensions ctx c (ordinal done.length))) := by
  refine ⟨flatMap_extensions_nodup ctx hrels c _ h.nodup, fun q hq r hr => ?_, fun q hq => ?_⟩
  · obtain ⟨p, hp, hext⟩ := List.mem_flatMap.mp hq
    have hprefix := extensions_prefix ctx hext
    unfold extensions at hext
    split at hext
    · cases hext
    · obtain ⟨r', hr', hsome⟩ := List.mem_filterMap.mp hext
      obtain ⟨e, he, rfl⟩ := Option.map_eq_some_iff.mp hsome
      rcases List.mem_append.mp hr with hold | hnew
      · exact h.known p hp r hold
      · obtain rfl := List.mem_singleton.mp hnew
        exact ((mem_candidateRels ctx).mp ((mem_filter_by_types ctx he).mp hr').1).1
  · obtain ⟨p, hp, hext⟩ := List.mem_flatMap.mp hq
    obtain ⟨ls, hrep, hc⟩ := h.chain p hp
    rw [← Chain.length ctx hc] at hext
    obtain ⟨prev, l, hprev, hm, hconn, hrep'⟩ := extensions_link hids hrep hext
    exact ⟨ls++[l], hrep', hc.next hprev hm hconn⟩

/-- Where there are few chains of the conditions so far, there is room for them
all. -/
theorem roomy_of_few {m : ℕ} (cs : List InferenceCondition) {done : List InferenceCondition}
    {ps : List PartialMatch} (h : Chains ctx done ps)
    (hfew : ∀ k, k <+: cs → k ≠ [] → chainCount ctx.entities ctx.rels (done++k) < m) :
    Roomy ctx m done.length cs ps ∧
      Chains ctx (done++cs) (walk ctx m done.length cs ps) := by
  induction cs generalizing done ps with
  | nil =>
    rw [List.append_nil]
    exact ⟨trivial, h⟩
  | cons c cs ih =>
    have hnext := chains_next hrels hids h c
    have hlength : (done++[c]).length = done.length+1 := by simp
    have hroom : (ps.flatMap (extensions ctx c (ordinal done.length))).length < m := by
      have hc := hfew [c] ⟨cs, rfl⟩ (by simp)
      exact_mod_cast hnext.length_le.trans_lt hc
    have hrest := ih hnext (fun k hk hne => by
      rw [List.append_assoc]
      exact hfew (c::k) (List.cons_prefix_cons.mpr ⟨rfl, hk⟩) (by simp))
    rw [hlength, List.append_assoc] at hrest
    have hall : extendMatches ctx m c (ordinal done.length) [] ps =
        ps.flatMap (extensions ctx c (ordinal done.length)) := extendMatches_roomy ctx hroom
    rw [walk, hall]
    exact ⟨⟨hroom, hrest.1⟩, hrest.2⟩

/-- No cap stops a rule with few chains, and its matches are no more than these. -/
theorem within_caps_of_few {m : ℕ} {rule : InferenceRule}
    (hfew : ∀ k, k <+: rule.conditions → k ≠ [] → chainCount ctx.entities ctx.rels k < m) :
    WithinCaps ctx m rule ∧ ((evaluateInferenceRule ctx m rule).length : ℕ∞) ≤
      chainCount ctx.entities ctx.rels rule.conditions := by
  unfold WithinCaps evaluateInferenceRule
  cases hconds : rule.conditions with
  | nil => simp
  | cons c cs =>
    rw [hconds] at hfew
    obtain ⟨hroomy, hchains⟩ := roomy_of_few (m := m) hrels hids cs
      (chains_first hrels hids c) (fun k hk hne => hfew (c::k) (List.cons_prefix_cons.mpr
        ⟨rfl, hk⟩) (by simp))
    have hwalk : ((walk ctx m 1 cs (firstMatches ctx c)).length : ℕ∞) ≤
        chainCount ctx.entities ctx.rels (c::cs) := hchains.length_le
    have hfound := List.length_filterMap_le (ruleMatch rule)
      (walk ctx m 1 cs (firstMatches ctx c))
    have hlast : (walk ctx m 1 cs (firstMatches ctx c)).length < m := by
      exact_mod_cast hwalk.trans_lt (hfew (c::cs) (List.prefix_refl _) (by simp))
    refine ⟨⟨hroomy, by omega⟩, le_trans ?_ hwalk⟩
    rw [List.length_take]
    exact_mod_cast (min_le_right _ _).trans hfound

end Count

end Uru.Extraction
