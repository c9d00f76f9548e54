import Mathlib.Data.List.ProdSigma
import Uru.Extraction.ChainCount
import Uru.Extraction.RelationshipInferrer
import Uru.Lib.SortOn

/-!
# Inference and the bounded closure

Every pass stays within what the rules derive, and a run of passes computes the
rounds of derivation exactly if each new relationship of a round is listed by a
match that the limits and the reading of references let through.
-/

set_option autoImplicit false

namespace Uru.Extraction

open Uru.Storage (UUID)
open Uru.Lib

variable (inferrer : RelationshipInferrer) (g : Graph)

def derived (facts : Set Key) : Set Key :=
  { x | ∃ rule ∈ inferrer.inferenceRules, ¬ rule.confidence < inferrer.minConfidence ∧
    Derives g.entities facts rule x }

def present : Set Key := (context g (start g)).facts

def derivable (depth : ℕ) : Set Key := rounds (derived inferrer g) (present g) depth

section Sound

variable {inferrer g}

def Supported (ref : List String) : Prop := ∃ p, ref = ["first",p] ∨ ref = ["second",p]

theorem resolveRef_iff {m : RuleMatch} {ref : List String} {e : Entity} :
    resolveRef m ref = some e ↔ Supported ref ∧ resolveEntityRef ref m.entityMap = some e := by
  unfold resolveRef resolveEntityRef Supported
  split
  · rename_i group p
    split_ifs with h1 h2
    · subst h1
      simp
    · subst h2
      simp
    · simp [h1, h2]
  · rename_i hshape
    constructor
    · intro h
      cases h
    · rintro ⟨⟨p, rfl | rfl⟩, _⟩
      · exact absurd rfl (hshape _ _)
      · exact absurd rfl (hshape _ _)

theorem matchRelationship_iff {m : RuleMatch} {x : Key} :
    (matchRelationship inferrer m).map InferredRelationship.key = some x ↔
      ¬ m.confidence < inferrer.minConfidence ∧ Supported m.thenSource ∧
        Supported m.thenTarget ∧
        Concludes m.thenSource m.thenTarget m.thenRelationship m.entityMap x := by
  have hresolve : (∃ s t, resolveRef m m.thenSource = some s ∧
      resolveRef m m.thenTarget = some t ∧ s.id ≠ t.id ∧ x = (s.id,t.id,m.thenRelationship)) ↔
      Supported m.thenSource ∧ Supported m.thenTarget ∧
        Concludes m.thenSource m.thenTarget m.thenRelationship m.entityMap x := by
    simp only [resolveRef_iff, Concludes]
    constructor
    · rintro ⟨s, t, ⟨hs, hse⟩, ⟨ht, hte⟩, hx⟩
      exact ⟨hs, ht, s, t, hse, hte, hx⟩
    · rintro ⟨hs, ht, s, t, hse, hte, hx⟩
      exact ⟨s, t, ⟨hs, hse⟩, ⟨ht, hte⟩, hx⟩
  rw [← hresolve]
  unfold matchRelationship
  split_ifs with hconf
  · simp [hconf]
  · rw [and_iff_right hconf]
    split
    · rename_i s t hs ht
      rw [hs, ht]
      split_ifs with hid
      · simp [hid]
      · simp [hid, inferredRelationship, InferredRelationship.key, eq_comm]
    · rename_i hnone
      simp only [Option.map_none]
      constructor
      · intro h
        cases h
      · rintro ⟨s, t, hs, ht, _⟩
        exact absurd ht (hnone s t hs)

theorem ruleMatch_eq {rule : InferenceRule} {p : PartialMatch} {m : RuleMatch}
    (h : ruleMatch rule p = some m) : m.confidence = rule.confidence ∧
      m.thenSource = rule.thenSource ∧ m.thenTarget = rule.thenTarget ∧
      m.thenRelationship = rule.thenRelationship ∧ m.entityMap = p.entityMap := by
  unfold ruleMatch at h
  split at h
  · split_ifs at h
    cases h
    exact ⟨rfl, rfl, rfl, rfl, rfl⟩
  · cases h
    exact ⟨rfl, rfl, rfl, rfl, rfl⟩

theorem ruleMatch_some {rule : InferenceRule} {p : PartialMatch} {x : Key}
    (h : Concludes rule.thenSource rule.thenTarget rule.thenRelationship p.entityMap x) :
    ∃ m, ruleMatch rule p = some m := by
  obtain ⟨s, t, hs, ht, hne, _⟩ := h
  unfold ruleMatch
  rw [hs, ht]
  exact ⟨_, if_neg hne⟩

/-- What a pass lists, a rule derives, with references to the first or second
condition only. -/
theorem listed_derives {s : State} {x : Key} (h : Listed inferrer (passMatches inferrer g s) x) :
    ∃ rule ∈ inferrer.inferenceRules, ¬ rule.confidence < inferrer.minConfidence ∧
      Supported rule.thenSource ∧ Supported rule.thenTarget ∧
      Derives g.entities (context g s).facts rule x := by
  obtain ⟨before, m, after, heq, _, hx⟩ := h
  have hm : m ∈ passMatches inferrer g s := by
    rw [heq]
    exact List.mem_append_right _ List.mem_cons_self
  obtain ⟨rule, hrule, hfound⟩ := List.mem_flatMap.mp hm
  obtain ⟨p, ls, hmatch, hrep, hchain⟩ := ruleMatch_chain (context g s) g.entity_keys hfound
  obtain ⟨hconf, hsrc, htgt, hrel, hmap⟩ := ruleMatch_eq hmatch
  rw [matchRelationship_iff, hconf, hsrc, htgt, hrel, hmap, hrep.entities] at hx
  obtain ⟨hok, hs, ht, hconc⟩ := hx
  exact ⟨rule, hrule, hok, hs, ht, ls, hchain, hconc⟩

theorem advance_facts (s : State) : (context g (advance inferrer g s)).facts =
    (context g s).facts ∪ { x | x ∈ (newInferred inferrer g s).map InferredRelationship.key } := by
  ext x
  have hmock : (newInferred inferrer g s).map (Relationship.key ∘ toMockRelationship) =
      (newInferred inferrer g s).map InferredRelationship.key := rfl
  simp only [RuleEvaluationContext.facts, context, advance, State.extend, Set.mem_ofPred_eq,
    List.map_append, List.map_map, hmock, List.mem_append, Set.mem_union]

theorem mem_newInferred {s : State} {x : Key} :
    x ∈ (newInferred inferrer g s).map InferredRelationship.key ↔
      (x ∉ (context g s).facts ∧ x ∉ s.allInferred.map InferredRelationship.key) ∧
        Listed inferrer (passMatches inferrer g s) x := by
  rw [newInferred, filterDuplicates, mem_newOnly, mem_passInferred, List.mem_append, not_or]
  rfl

theorem advance_sound (s : State) : (context g (advance inferrer g s)).facts ⊆
    (context g s).facts ∪ derived inferrer g (context g s).facts := by
  rw [advance_facts]
  refine Set.union_subset_union_right _ (fun x hx => ?_)
  obtain ⟨rule, hrule, hconf, _, _, hd⟩ := listed_derives (mem_newInferred.mp hx).2
  exact ⟨rule, hrule, hconf, hd⟩

theorem advance_keeps (s : State) :
    (context g s).facts ⊆ (context g (advance inferrer g s)).facts := by
  rw [advance_facts]
  exact Set.subset_union_left

end Sound

section Runs

structure Reached (s : State) : Prop where
  current : s.currentRelationships.map Relationship.key =
    g.relationships.map Relationship.key++s.allInferred.map InferredRelationship.key
  nodup : (s.allInferred.map InferredRelationship.key).Nodup
  fresh : ∀ x ∈ s.allInferred.map InferredRelationship.key, x ∉ present g
  apart : ∀ x ∈ s.allInferred.map InferredRelationship.key, x.1 ≠ x.2.1

def after (depth : ℕ) : State := passes inferrer g depth (start g)

theorem after_eq (depth : ℕ) : after inferrer g depth = (advance inferrer g)^[depth] (start g) :=
  passes_eq inferrer g depth (start g)

variable {inferrer g}

theorem reached_advance {s : State} (h : Reached g s) : Reached g (advance inferrer g s) := by
  have hin : ∀ x, x ∈ s.allInferred.map InferredRelationship.key → x ∈ (context g s).facts := by
    intro x hx
    rw [RuleEvaluationContext.facts, context, Set.mem_ofPred_eq, h.current]
    exact List.mem_append_right _ hx
  have hgiven : present g ⊆ (context g s).facts := by
    intro x hx
    rw [RuleEvaluationContext.facts, context, Set.mem_ofPred_eq, h.current]
    exact List.mem_append_left _ hx
  have hall : (advance inferrer g s).allInferred.map InferredRelationship.key =
      s.allInferred.map InferredRelationship.key++
        (newInferred inferrer g s).map InferredRelationship.key := List.map_append
  constructor
  · rw [hall, ← List.append_assoc, ← h.current]
    simp only [advance, State.extend, List.map_append, List.map_map]
    rfl
  · rw [hall, List.nodup_append]
    refine ⟨h.nodup, newOnly_nodup _ _, fun x hx y hy hxy => ?_⟩
    exact (mem_newInferred.mp hy).1.2 (hxy ▸ hx)
  · rw [hall]
    intro x hx
    rcases List.mem_append.mp hx with hold | hnew
    · exact h.fresh x hold
    · exact fun hp => (mem_newInferred.mp hnew).1.1 (hgiven hp)
  · rw [hall]
    intro x hx
    rcases List.mem_append.mp hx with hold | hnew
    · exact h.apart x hold
    · obtain ⟨rule, _, _, _, _, ls, _, s', t', _, _, hne, rfl⟩ :=
        listed_derives (mem_newInferred.mp hnew).2
      exact hne

theorem reached_after (depth : ℕ) : Reached g (after inferrer g depth) := by
  rw [after_eq]
  induction depth with
  | zero => exact ⟨by simp [start], List.nodup_nil, by simp [start], by simp [start]⟩
  | succ depth ih =>
    rw [Function.iterate_succ_apply']
    exact reached_advance ih

theorem after_facts (depth : ℕ) : (context g (after inferrer g depth)).facts =
    present g ∪ { x | x ∈ (infer inferrer g depth).map InferredRelationship.key } := by
  ext x
  have hreached : Reached g (after inferrer g depth) := reached_after depth
  change x ∈ (after inferrer g depth).currentRelationships.map Relationship.key ↔ _
  rw [hreached.current, List.mem_append]
  rfl

end Runs

section Ends

theorem Chain.link_meets {entities : List Entity} {facts : Set Key} {cs : List InferenceCondition}
    {ls : List Link} (h : Chain entities facts cs ls) {l : Link} (hl : l ∈ ls) :
    l.source ∈ entities ∧ l.target ∈ entities := by
  induction h with
  | first hm =>
    cases List.mem_singleton.mp hl
    exact ⟨hm.source.1, hm.target.1⟩
  | next _ _ hm _ ih =>
    rcases List.mem_append.mp hl with hold | hnew
    · exact ih hold
    · cases List.mem_singleton.mp hnew
      exact ⟨hm.source.1, hm.target.1⟩

theorem resolve_link {ref : List String} {ls : List Link} {e : Entity}
    (h : resolveEntityRef ref (entityMap ls) = some e) :
    ∃ l ∈ ls, e = l.source ∨ e = l.target := by
  unfold resolveEntityRef at h
  split at h
  · obtain ⟨ends, hends, hp⟩ := Option.bind_eq_some_iff.mp h
    obtain ⟨i, hi, heq⟩ := List.mem_mapIdx.mp (mem_of_lookup hends)
    cases heq
    refine ⟨_, List.getElem_mem hi, ?_⟩
    unfold position at hp
    split_ifs at hp
    · exact .inl (Option.some.inj hp).symm
    · exact .inr (Option.some.inj hp).symm
  · cases h

/-- What a rule derives relates known entities. -/
theorem Derives.ends {entities : List Entity} {facts : Set Key} {rule : InferenceRule} {x : Key}
    (h : Derives entities facts rule x) :
    ∃ s t, s ∈ entities ∧ t ∈ entities ∧ x = (s.id,t.id,rule.thenRelationship) := by
  obtain ⟨ls, hchain, s, t, hs, ht, _, rfl⟩ := h
  have hknown : ∀ {ref : List String} {e : Entity},
      resolveEntityRef ref (entityMap ls) = some e → e ∈ entities := by
    intro ref e he
    obtain ⟨l, hl, rfl | rfl⟩ := resolve_link he
    · exact (hchain.link_meets hl).1
    · exact (hchain.link_meets hl).2
  exact ⟨s, t, hknown hs, hknown ht, rfl⟩

end Ends

section Exactness

/-- The relationships inferred are those derivable in so many rounds and not
given, each once, and none relates an entity to itself. -/
structure Exact (depth : ℕ) : Prop where
  nodup : ((infer inferrer g depth).map InferredRelationship.key).Nodup
  apart : ∀ r ∈ infer inferrer g depth, r.sourceEntityId ≠ r.targetEntityId
  derivable : ∀ x, x ∈ (infer inferrer g depth).map InferredRelationship.key ↔
    x ∈ derivable inferrer g depth ∧ x ∉ present g

def NoCapReached : Prop :=
  ∀ (k : ℕ) (name : String) (xs : List Key), xs.Nodup → (∀ x ∈ xs, x ∉ derivable inferrer g k ∧
    ∃ rule ∈ inferrer.inferenceRules, rule.name = name ∧
      ¬ rule.confidence < inferrer.minConfidence ∧
        Derives g.entities (derivable inferrer g k) rule x) →
    xs.length ≤ min inferrer.maxInferencesPerRule maxMatches

def New (s : State) (x : Key) : Prop :=
  x ∈ derived inferrer g (context g s).facts ∧ x ∉ (context g s).facts

def AllListed : Prop :=
  ∀ k x, New inferrer g (after inferrer g k) x →
    Listed inferrer (passMatches inferrer g (after inferrer g k)) x

/-- What a rule with references to the first or second condition derives from
the relationships of a round. -/
def DerivedSupported (k : ℕ) (x : Key) : Prop :=
  ∃ rule ∈ inferrer.inferenceRules, ¬ rule.confidence < inferrer.minConfidence ∧
    Supported rule.thenSource ∧ Supported rule.thenTarget ∧
    Derives g.entities (derivable inferrer g k) rule x

/-- The relationships after some rounds: the given ones, and one without an id
for each that was derived. -/
def stored (k : ℕ) : Set Relationship :=
  { r | r ∈ g.relationships ∨
    r.id = none ∧ r.key ∈ derivable inferrer g k ∧ r.key ∉ present g }

/-- In each round each rule has fewer chains than a rule may have matches, and
the rules of one name have no more than they may have inferences. -/
structure FewChains : Prop where
  conditions : ∀ k, ∀ rule ∈ inferrer.inferenceRules, ∀ cs, cs <+: rule.conditions → cs ≠ [] →
    chainCount g.entities (stored inferrer g k) cs < maxMatches
  names : ∀ k name, ((inferrer.inferenceRules.filter (fun rule => rule.name = name)).map
    (fun rule => chainCount g.entities (stored inferrer g k) rule.conditions)).sum ≤
      inferrer.maxInferencesPerRule

/-- The matches of a pass, as the code counts them, stay below every cap. -/
def PassWithinCaps (s : State) : Prop :=
  (∀ rule ∈ inferrer.inferenceRules, WithinCaps (context g s) maxMatches rule) ∧
    ∀ m ∈ passMatches inferrer g s, (passMatches inferrer g s).countP
      (fun m' => m'.ruleName = m.ruleName) ≤ inferrer.maxInferencesPerRule

variable {inferrer g}

theorem exact_iff_complete (depth : ℕ) : Exact inferrer g depth ↔
    (context g (after inferrer g depth)).facts = derivable inferrer g depth := by
  have hreached : Reached g (after inferrer g depth) := reached_after depth
  have hstart : present g ⊆ derivable inferrer g depth := start_subset_rounds _ _ _
  rw [after_facts]
  constructor
  · intro h
    ext x
    constructor
    · rintro (hx | hx)
      · exact hstart hx
      · exact ((h.derivable x).mp hx).1
    · intro hx
      by_cases hp : x ∈ present g
      · exact .inl hp
      · exact .inr ((h.derivable x).mpr ⟨hx, hp⟩)
  · intro h
    refine ⟨hreached.nodup, fun r hr => hreached.apart _ (List.mem_map_of_mem hr), fun x => ?_⟩
    rw [← h]
    constructor
    · exact fun hx => ⟨.inr hx, hreached.fresh x hx⟩
    · exact fun hx => hx.1.resolve_left hx.2

theorem after_succ (k : ℕ) :
    after inferrer g (k+1) = advance inferrer g (after inferrer g k) := by
  rw [after_eq, after_eq, Function.iterate_succ_apply']

/-- The passes compute every round exactly if they list all that is new. -/
theorem exact_iff_allListed :
    (∀ depth, Exact inferrer g depth) ↔ AllListed inferrer g := by
  have hsound : ∀ s, (context g (advance inferrer g s)).facts ⊆
      (context g s).facts ∪ derived inferrer g (context g s).facts := advance_sound
  have hrun := run_eq_rounds_iff hsound advance_keeps (start g)
  simp only [← after_eq] at hrun
  rw [forall_congr' exact_iff_complete]
  refine hrun.trans (forall_congr' (fun k => ?_))
  rw [after_succ, advance_facts]
  constructor
  · intro h x hx
    have hnew := (h hx.1).resolve_left hx.2
    exact (mem_newInferred.mp hnew).2
  · intro h x hx
    by_cases hin : x ∈ (context g (after inferrer g k)).facts
    · exact .inl hin
    · refine .inr (mem_newInferred.mpr ⟨⟨hin, fun hold => hin ?_⟩, h x ⟨hx, hin⟩⟩)
      rw [after_facts]
      exact .inr hold

/-- Where no cap binds, a relationship is listed if a rule with references to
the first or second condition derives it. -/
theorem listed_iff {s : State} (hw : PassWithinCaps inferrer g s) (x : Key) :
    Listed inferrer (passMatches inferrer g s) x ↔
      ∃ rule ∈ inferrer.inferenceRules, ¬ rule.confidence < inferrer.minConfidence ∧
        Supported rule.thenSource ∧ Supported rule.thenTarget ∧
        Derives g.entities (context g s).facts rule x := by
  refine ⟨listed_derives, ?_⟩
  rintro ⟨rule, hrule, hconf, hs, ht, ls, hchain, hconc⟩
  obtain ⟨p, hrep, hlisted⟩ := chain_ruleMatch (context g s) g.entity_keys (hw.1 rule hrule) hchain
  rw [← hrep.entities] at hconc
  obtain ⟨m, hm⟩ := ruleMatch_some hconc
  have hmem : m ∈ passMatches inferrer g s := List.mem_flatMap.mpr ⟨rule, hrule, hlisted m hm⟩
  obtain ⟨before, rest, heq⟩ := List.append_of_mem hmem
  have hcount := hw.2 m hmem
  rw [heq, List.countP_append, List.countP_cons_of_pos (by simp)] at hcount
  obtain ⟨hc, hsrc, htgt, hrel, hmap⟩ := ruleMatch_eq hm
  refine ⟨before, m, rest, heq, by omega, matchRelationship_iff.mpr ?_⟩
  rw [hc, hsrc, htgt, hrel, hmap]
  exact ⟨hconf, hs, ht, hconc⟩

theorem after_current (k : ℕ) : (after inferrer g k).currentRelationships =
    g.relationships++(after inferrer g k).allInferred.map toMockRelationship := by
  induction k with
  | zero => exact (List.append_nil _).symm
  | succ k ih =>
    rw [after_succ]
    simp only [advance, State.extend, ih, List.map_append, List.append_assoc]

theorem after_nodup (hrels : g.relationships.Nodup) (k : ℕ) :
    (after inferrer g k).currentRelationships.Nodup := by
  have hreached : Reached g (after inferrer g k) := reached_after k
  have hmock : ((after inferrer g k).allInferred.map toMockRelationship).Nodup := by
    apply List.Nodup.of_map Relationship.key
    rw [List.map_map]
    exact hreached.nodup
  rw [after_current, List.nodup_append]
  refine ⟨hrels, hmock, fun r hr r' hr' heq => ?_⟩
  obtain ⟨i, hi, rfl⟩ := List.mem_map.mp hr'
  exact hreached.fresh i.key (List.mem_map_of_mem hi)
    (List.mem_map.mpr ⟨r, hr, congrArg Relationship.key heq⟩)

theorem after_stored {k : ℕ}
    (hfacts : (context g (after inferrer g k)).facts = derivable inferrer g k) :
    (context g (after inferrer g k)).rels ⊆ stored inferrer g k := by
  have hreached : Reached g (after inferrer g k) := reached_after k
  intro r hr
  change r ∈ (after inferrer g k).currentRelationships at hr
  have hkey : r.key ∈ derivable inferrer g k := hfacts ▸ List.mem_map_of_mem hr
  rw [after_current] at hr
  rcases List.mem_append.mp hr with hgiven | hmock
  · exact .inl hgiven
  · obtain ⟨i, hi, rfl⟩ := List.mem_map.mp hmock
    exact .inr ⟨rfl, hkey, hreached.fresh i.key (List.mem_map_of_mem hi)⟩

theorem ruleMatch_name {rule : InferenceRule} {p : PartialMatch} {m : RuleMatch}
    (h : ruleMatch rule p = some m) : m.ruleName = rule.name := by
  unfold ruleMatch at h
  split at h
  · split_ifs at h
    cases h
    rfl
  · cases h
    rfl

/-- The matches of the rules of one name are no more than the chains of these. -/
theorem named_count_le (ctx : RuleEvaluationContext) (count : InferenceRule → ℕ∞) (name : String)
    {rules : List InferenceRule} (h : ∀ rule ∈ rules,
      ((evaluateInferenceRule ctx maxMatches rule).length : ℕ∞) ≤ count rule) :
    ((evaluateInferenceRules ctx rules).countP (fun m => m.ruleName = name) : ℕ∞) ≤
      ((rules.filter (fun rule => rule.name = name)).map count).sum := by
  induction rules with
  | nil => exact le_rfl
  | cons rule rules ih =>
    obtain ⟨hrule, hrest⟩ := List.forall_mem_cons.mp h
    have hnames : ∀ m ∈ evaluateInferenceRule ctx maxMatches rule, m.ruleName = rule.name := by
      intro m hm
      unfold evaluateInferenceRule at hm
      split at hm
      · cases hm
      · obtain ⟨p, -, hp⟩ := List.mem_filterMap.mp (List.mem_of_mem_take hm)
        exact ruleMatch_name hp
    unfold evaluateInferenceRules at ih ⊢
    rw [List.flatMap_cons, List.countP_append, Nat.cast_add]
    by_cases hname : rule.name = name
    · rw [List.filter_cons_of_pos (by simpa using hname), List.map_cons, List.sum_cons]
      refine add_le_add (le_trans ?_ hrule) (ih hrest)
      exact_mod_cast List.countP_le_length
    · have hzero : (evaluateInferenceRule ctx maxMatches rule).countP
          (fun m => m.ruleName = name) = 0 := by
        rw [List.countP_eq_zero]
        intro m hm
        rw [decide_eq_true_eq, hnames m hm]
        exact hname
      rw [List.filter_cons_of_neg (by simpa using hname), hzero, Nat.cast_zero, zero_add]
      exact ih hrest

/-- With few chains no cap binds on the matches of a pass. -/
theorem pass_within_caps (hrels : g.relationships.Nodup) (hfew : FewChains inferrer g) {k : ℕ}
    (hfacts : (context g (after inferrer g k)).facts = derivable inferrer g k) :
    PassWithinCaps inferrer g (after inferrer g k) := by
  have hcount := chainCount_mono g.entities (after_stored hfacts)
  have hrule : ∀ rule ∈ inferrer.inferenceRules,
      WithinCaps (context g (after inferrer g k)) maxMatches rule ∧
        ((evaluateInferenceRule (context g (after inferrer g k)) maxMatches rule).length : ℕ∞) ≤
          chainCount g.entities (stored inferrer g k) rule.conditions := by
    intro rule hmem
    obtain ⟨hcaps, hlength⟩ : WithinCaps (context g (after inferrer g k)) maxMatches rule ∧ _ :=
      within_caps_of_few (after_nodup hrels k) g.entity_keys
        (fun cs hcs hne => (hcount cs).trans_lt (hfew.conditions k rule hmem cs hcs hne))
    exact ⟨hcaps, hlength.trans (hcount rule.conditions)⟩
  refine ⟨fun rule hmem => (hrule rule hmem).1, fun m _ => ?_⟩
  have hnamed := named_count_le (context g (after inferrer g k))
    (fun rule => chainCount g.entities (stored inferrer g k) rule.conditions) m.ruleName
    (fun rule hmem => (hrule rule hmem).2)
  exact_mod_cast hnamed.trans (hfew.names k m.ruleName)

/-- With few chains, the passes are exact if and only if the rules with references
to the first or second condition derive all that is new in each round. -/
theorem exact_iff_supported (hrels : g.relationships.Nodup) (hfew : FewChains inferrer g) :
    (∀ depth, Exact inferrer g depth) ↔ ∀ k, ∀ x ∈ derived inferrer g (derivable inferrer g k),
      x ∉ derivable inferrer g k → DerivedSupported inferrer g k x := by
  constructor
  · intro h k x hx hnew
    have hfacts := (exact_iff_complete k).mp (h k)
    have hlisted := exact_iff_allListed.mp h k x ⟨hfacts ▸ hx, hfacts ▸ hnew⟩
    rw [DerivedSupported, ← hfacts]
    exact listed_derives hlisted
  · intro h
    have hall : ∀ k, (context g (after inferrer g k)).facts = derivable inferrer g k := by
      intro k
      induction k with
      | zero => rfl
      | succ k ih =>
        rw [after_succ]
        apply Set.Subset.antisymm
        · refine (advance_sound _).trans ?_
          rw [ih]
          exact subset_rfl
        · rintro x (hold | hx)
          · exact advance_keeps _ (ih ▸ hold)
          · by_cases hin : x ∈ derivable inferrer g k
            · exact advance_keeps _ (ih ▸ hin)
            · have hnew : x ∉ (context g (after inferrer g k)).facts := ih ▸ hin
              have hsupported := h k x hx hin
              rw [DerivedSupported, ← ih] at hsupported
              rw [advance_facts]
              refine .inr (mem_newInferred.mpr ⟨⟨hnew, fun hold => hnew ?_⟩, ?_⟩)
              · rw [after_facts]
                exact .inr hold
              · exact (listed_iff (pass_within_caps hrels hfew ih) x).mpr hsupported
    exact fun depth => (exact_iff_complete depth).mpr (hall depth)

theorem derivable_congr {inferrer' : RelationshipInferrer} {g' : Graph}
    (hrules : ∀ rule, rule ∈ inferrer'.inferenceRules ↔ rule ∈ inferrer.inferenceRules)
    (hconf : inferrer'.minConfidence = inferrer.minConfidence)
    (hentities : ∀ e, e ∈ g'.entities ↔ e ∈ g.entities) (hpresent : present g' = present g)
    (depth : ℕ) : derivable inferrer' g' depth = derivable inferrer g depth := by
  have hmeets : ∀ facts c l, Meets g'.entities facts c l ↔ Meets g.entities facts c l := by
    intro facts c l
    constructor
    · intro h
      exact { h with
        source := ⟨(hentities _).mp h.source.1, h.source.2⟩
        target := ⟨(hentities _).mp h.target.1, h.target.2⟩ }
    · intro h
      exact { h with
        source := ⟨(hentities _).mpr h.source.1, h.source.2⟩
        target := ⟨(hentities _).mpr h.target.1, h.target.2⟩ }
  have hchain : ∀ facts cs ls, Chain g'.entities facts cs ls ↔ Chain g.entities facts cs ls := by
    intro facts cs ls
    constructor
    · intro h
      induction h with
      | first hm => exact .first ((hmeets _ _ _).mp hm)
      | next _ hprev hm hc ih => exact .next ih hprev ((hmeets _ _ _).mp hm) hc
    · intro h
      induction h with
      | first hm => exact .first ((hmeets _ _ _).mpr hm)
      | next _ hprev hm hc ih => exact .next ih hprev ((hmeets _ _ _).mpr hm) hc
  have hderived : derived inferrer' g' = derived inferrer g := by
    funext facts
    ext x
    simp only [derived, Set.mem_ofPred_eq, hrules, hconf, Derives, hchain]
  rw [derivable, derivable, hderived, hpresent]

end Exactness

namespace Reporting

def person (id : UUID) : Entity := ⟨id, "PERSON"⟩

def graph : Graph where
  entities := [person 1, person 2, person 3, person 4]
  relationships := [⟨some 11, 1, 2, "MANAGES"⟩, ⟨some 12, 2, 3, "MANAGES"⟩,
    ⟨some 13, 3, 4, "MANAGES"⟩]
  entity_keys := by decide

def manages : InferenceCondition := ⟨"MANAGES", none, none⟩

def rule : InferenceRule where
  name := "top of the chain"
  conditions := [manages, manages, manages]
  thenRelationship := "OVERSEES"
  thenSource := ["first", "source"]
  thenTarget := ["third", "target"]
  confidence := 1/2

def configured : RelationshipInferrer := ⟨[rule], 3/10, 500⟩

def link (s t : UUID) : Link := ⟨(s,t,"MANAGES"), person s, person t⟩

theorem link_meets {s t : UUID} (h : (s,t,"MANAGES") ∈ present graph)
    (hs : person s ∈ graph.entities) (ht : person t ∈ graph.entities) :
    Meets graph.entities (present graph) manages (link s t) :=
  ⟨h, rfl, ⟨hs, rfl⟩, ⟨ht, rfl⟩, rfl, rfl⟩

theorem oversees_derivable : (1,4,"OVERSEES") ∈ derivable configured graph 1 := by
  have hfact : ∀ {x : Key}, x ∈ graph.relationships.map Relationship.key → x ∈ present graph :=
    fun hx => hx
  have h12 := link_meets (s := 1) (t := 2) (hfact (by decide)) (by decide) (by decide)
  have h23 := link_meets (s := 2) (t := 3) (hfact (by decide)) (by decide) (by decide)
  have h34 := link_meets (s := 3) (t := 4) (hfact (by decide)) (by decide) (by decide)
  have hchain := ((Chain.first h12).next rfl h23 (.inl rfl)).next rfl h34 (.inl rfl)
  exact .inr ⟨rule, List.mem_cons_self, by norm_num [rule, configured], _, hchain,
    person 1, person 4, by decide, by decide, by decide, rfl⟩

/-- Four entities leave room for sixteen relationships of the one type. -/
theorem no_cap_reached : NoCapReached configured graph := by
  intro k name xs hxs hnew
  have hends : ∀ x ∈ xs, x ∈ ([1,2,3,4] ×ˢ [1,2,3,4] : List (UUID × UUID)).map
      (fun p => (p.1,p.2,"OVERSEES")) := by
    intro x hx
    obtain ⟨_, r, hr, _, _, hd⟩ := hnew x hx
    obtain ⟨s, t, hs, ht, rfl⟩ := hd.ends
    have hid : ∀ {e : Entity}, e ∈ graph.entities → e.id ∈ [1,2,3,4] := fun he =>
      List.mem_map_of_mem (f := Entity.id) he
    rw [List.mem_singleton.mp hr]
    exact List.mem_map.mpr ⟨(s.id,t.id), List.mem_product.mpr ⟨hid hs, hid ht⟩, rfl⟩
  exact (hxs.subperm hends).length_le.trans (by decide)

theorem nothing_inferred : infer configured graph 1 = [] := by decide +kernel

def known : Graph where
  entities := graph.entities
  relationships := [⟨some 11, 1, 2, "MANAGES"⟩, ⟨some 12, 3, 4, "MANAGES"⟩,
    ⟨some 13, 1, 2, "OVERSEES"⟩]
  entity_keys := graph.entity_keys

def direct : InferenceRule :=
  { rule with conditions := [manages], thenTarget := ["first", "target"] }

def roomy : RelationshipInferrer := ⟨[direct], 3/10, 500⟩

theorem derivable_known (k : ℕ) :
    derivable roomy known k ⊆ present known ∪ { x | x.2.2 = "OVERSEES" } := by
  induction k with
  | zero => exact Set.subset_union_left
  | succ k ih =>
    refine Set.union_subset ih (fun x hx => ?_)
    obtain ⟨r, hr, -, hd⟩ := hx
    obtain ⟨s, t, -, -, rfl⟩ := hd.ends
    obtain rfl := List.mem_singleton.mp hr
    exact .inr rfl

/-- The chains of the one condition are the two managers. -/
theorem chainCount_known (k : ℕ) :
    chainCount known.entities (stored roomy known k) [manages] ≤ 2 := by
  have hsub : {rs | Follows known.entities (stored roomy known k) [manages] rs} ⊆
      {[⟨some 11, 1, 2, "MANAGES"⟩], [⟨some 12, 3, 4, "MANAGES"⟩]} := by
    rintro rs ⟨hrs, ls, hchain, hkeys⟩
    generalize hcs : [manages] = cs at hchain
    cases hchain with
    | next hls =>
      have hlength := congrArg List.length hcs
      cases hls <;> simp at hlength
    | first hm =>
      obtain rfl := (List.cons.inj hcs).1
      obtain ⟨r, rfl, hkey⟩ := List.map_eq_singleton_iff.mp hkeys
      have htype : r.key.2.2 = "MANAGES" := by
        rw [hkey]
        exact hm.type
      rcases hrs r (List.mem_singleton_self r) with hgiven | ⟨-, hderived, hnew⟩
      · simp only [known, List.mem_cons, List.not_mem_nil, or_false] at hgiven
        rcases hgiven with rfl | rfl | rfl
        · exact .inl rfl
        · exact .inr rfl
        · exact absurd htype (by decide)
      · rcases derivable_known k hderived with hold | hoversees
        · exact absurd hold hnew
        · exact absurd (htype.symm.trans hoversees) (by decide)
  exact (Set.encard_le_encard hsub).trans (Set.encard_pair (by decide)).le

theorem fewChains_known : FewChains roomy known := by
  constructor
  · intro k r hr cs hcs hne
    obtain rfl := List.mem_singleton.mp hr
    have hone : cs = [manages] := by
      rcases List.prefix_cons_iff.mp hcs with hnil | ⟨t, rfl, ht⟩
      · exact absurd hnil hne
      · rw [List.prefix_nil.mp ht]
    rw [hone]
    exact (chainCount_known k).trans_lt (by norm_num [maxMatches])
  · intro k name
    by_cases hname : direct.name = name
    · rw [show roomy.inferenceRules = [direct] from rfl,
        List.filter_cons_of_pos (by simpa using hname)]
      simp only [List.filter_nil, List.map_cons, List.map_nil, List.sum_cons, List.sum_nil, add_zero]
      exact (chainCount_known k).trans (by norm_num [roomy])
    · rw [show roomy.inferenceRules = [direct] from rfl,
        List.filter_cons_of_neg (by simpa using hname)]
      simp

-- The known relationship uses up a limit of one, and the new one is not inferred.
example : infer ⟨[direct], 3/10, 1⟩ known 1 = [] := by decide +kernel

example : (infer ⟨[direct], 3/10, 2⟩ known 1).map InferredRelationship.key = [(3,4,"OVERSEES")] := by
  decide +kernel

end Reporting

end Uru.Extraction
