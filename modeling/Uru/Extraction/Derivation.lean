import Uru.Extraction.RuleEngine
import Uru.Lib.Rounds

/-!
# What the rules derive

A rule holds of a chain of relationships, one for each condition, each of them
connected to the one before. The matches that the engine finds are such chains;
and every chain is found unless there are too many.
-/

set_option autoImplicit false

namespace Uru.Extraction

open Uru.Storage (UUID)
open Uru.Lib

abbrev Key := UUID × UUID × String

def Relationship.key (r : Relationship) : Key :=
  (r.sourceEntityId,r.targetEntityId,r.relationshipType)

structure Link where
  key : Key
  source : Entity
  target : Entity

def Link.ends (l : Link) : Entity × Entity := (l.source,l.target)

structure Meets (entities : List Entity) (facts : Set Key) (c : InferenceCondition) (l : Link) :
    Prop where
  fact : l.key ∈ facts
  type : l.key.2.2 = c.relationship
  source : l.source ∈ entities ∧ l.source.id = l.key.1
  target : l.target ∈ entities ∧ l.target.id = l.key.2.1
  sourceType : typeMatches c.sourceType l.source
  targetType : typeMatches c.targetType l.target

def Connected (x y : Key) : Prop := y.1 = x.2.1 ∨ y.1 = x.1 ∨ y.2.1 = x.2.1

inductive Chain (entities : List Entity) (facts : Set Key) :
    List InferenceCondition → List Link → Prop
  | first {c : InferenceCondition} {l : Link} (h : Meets entities facts c l) :
      Chain entities facts [c] [l]
  | next {cs : List InferenceCondition} {ls : List Link} {c : InferenceCondition} {prev l : Link}
      (hls : Chain entities facts cs ls) (hprev : ls.getLast? = some prev)
      (h : Meets entities facts c l) (hc : Connected prev.key l.key) :
      Chain entities facts (cs++[c]) (ls++[l])

def entityMap (ls : List Link) : EntityMap := ls.mapIdx (fun i l => (ordinal i,l.ends))

def Concludes (thenSource thenTarget : List String) (thenRelationship : String) (m : EntityMap)
    (x : Key) : Prop :=
  ∃ s t, resolveEntityRef thenSource m = some s ∧ resolveEntityRef thenTarget m = some t ∧
    s.id ≠ t.id ∧ x = (s.id,t.id,thenRelationship)

def Derives (entities : List Entity) (facts : Set Key) (rule : InferenceRule) (x : Key) : Prop :=
  ∃ ls, Chain entities facts rule.conditions ls ∧
    Concludes rule.thenSource rule.thenTarget rule.thenRelationship (entityMap ls) x

theorem Meets.mono {entities : List Entity} {facts facts' : Set Key} (h : facts ⊆ facts')
    {c : InferenceCondition} {l : Link} (hm : Meets entities facts c l) :
    Meets entities facts' c l := { hm with fact := h hm.fact }

theorem Chain.mono {entities : List Entity} {facts facts' : Set Key} (h : facts ⊆ facts')
    {cs : List InferenceCondition} {ls : List Link} (hc : Chain entities facts cs ls) :
    Chain entities facts' cs ls := by
  induction hc with
  | first hm => exact .first (hm.mono h)
  | next _ hprev hm hconn ih => exact .next ih hprev (hm.mono h) hconn

theorem Derives.mono {entities : List Entity} {facts facts' : Set Key} (h : facts ⊆ facts')
    {rule : InferenceRule} {x : Key} (hd : Derives entities facts rule x) :
    Derives entities facts' rule x := by
  obtain ⟨ls, hc, hx⟩ := hd
  exact ⟨ls, hc.mono h, hx⟩

section Context

variable (ctx : RuleEvaluationContext)

def RuleEvaluationContext.facts : Set Key := { x | x ∈ ctx.relationships.map Relationship.key }

theorem mem_addAbsent {out rels : List Relationship} {r : Relationship} :
    r ∈ addAbsent out rels ↔ r ∈ out ∨ r ∈ rels := by
  induction rels generalizing out with
  | nil => simp [addAbsent]
  | cons q rels ih =>
    have hstep : addAbsent out (q::rels) = addAbsent (if q ∈ out then out else out++[q]) rels :=
      rfl
    rw [hstep, ih]
    split_ifs with hq
    · grind
    · simp [or_assoc]

theorem mem_candidateRels {prev r : Relationship} {t : String} :
    r ∈ candidateRels ctx prev t ↔ r ∈ ctx.relationships ∧ r.relationshipType = t ∧
      Connected prev.key r.key := by
  simp only [candidateRels, mem_addAbsent, RuleEvaluationContext.relsBySource,
    RuleEvaluationContext.relsByTarget, List.mem_filter, decide_eq_true_eq, Connected,
    Relationship.key]
  tauto

variable (hids : (ctx.entities.map Entity.id).Nodup)

include hids

theorem find_entity_iff {id : UUID} {e : Entity} :
    ctx.findEntityById id = some e ↔ e ∈ ctx.entities ∧ e.id = id := by
  unfold RuleEvaluationContext.findEntityById
  constructor
  · intro h
    exact ⟨List.mem_reverse.mp (List.mem_of_find?_eq_some h), by
      simpa using List.find?_some h⟩
  · rintro ⟨he, rfl⟩
    cases hf : ctx.entities.reverse.find? (fun e' => e'.id = e.id) with
    | none =>
      rw [List.find?_eq_none] at hf
      exact absurd (by simp) (hf e (List.mem_reverse.mpr he))
    | some e' =>
      have hmem := List.mem_reverse.mp (List.mem_of_find?_eq_some hf)
      have hid : e'.id = e.id := by simpa using List.find?_some hf
      rw [List.inj_on_of_nodup_map hids hmem he hid]

theorem ends_iff {r : Relationship} {s t : Entity} : ctx.ends r = some (s,t) ↔
    (s ∈ ctx.entities ∧ s.id = r.sourceEntityId) ∧
      (t ∈ ctx.entities ∧ t.id = r.targetEntityId) := by
  rw [← find_entity_iff ctx hids, ← find_entity_iff ctx hids]
  unfold RuleEvaluationContext.ends
  split
  · rename_i s' t' hs ht
    rw [hs, ht]
    simp
  · rename_i hnone
    constructor
    · intro h
      cases h
    · rintro ⟨hs, ht⟩
      exact absurd ht (hnone s t hs)

omit hids in
theorem mem_filter_by_types {rels : List Relationship} {r : Relationship} {c : InferenceCondition}
    {e : Entity × Entity} (he : ctx.ends r = some e) :
    r ∈ ctx.filterRelationshipsByTypes rels c.sourceType c.targetType ↔
      r ∈ rels ∧ typeMatches c.sourceType e.1 ∧ typeMatches c.targetType e.2 := by
  unfold RuleEvaluationContext.filterRelationshipsByTypes
  split_ifs with h
  · simp [typeMatches, h.1, h.2]
  · simp [List.mem_filter, he]

/-- The links that a relationship of the context makes for a condition. -/
theorem meets_iff {c : InferenceCondition} {r : Relationship} (hr : r ∈ ctx.relationships)
    {s t : Entity} : Meets ctx.entities ctx.facts c ⟨r.key, s, t⟩ ↔
      ctx.ends r = some (s,t) ∧ r.relationshipType = c.relationship ∧
        typeMatches c.sourceType s ∧ typeMatches c.targetType t := by
  rw [ends_iff ctx hids]
  constructor
  · intro h
    exact ⟨⟨h.source, h.target⟩, h.type, h.sourceType, h.targetType⟩
  · rintro ⟨⟨hs, ht⟩, htype, hst, htt⟩
    have hfact : r.key ∈ ctx.facts := List.mem_map.mpr ⟨r, hr, rfl⟩
    exact ⟨hfact, htype, hs, ht, hst, htt⟩

end Context

structure Represents (p : PartialMatch) (ls : List Link) : Prop where
  entities : p.entityMap = entityMap ls
  keys : p.matchedRels.map Relationship.key = ls.map Link.key

section Represent

variable {ctx : RuleEvaluationContext}

theorem entityMap_snoc (ls : List Link) (l : Link) :
    entityMap (ls++[l]) = entityMap ls++[(ordinal ls.length,l.ends)] := by
  simp [entityMap, List.mapIdx_append]

theorem extended_represents {p q : PartialMatch} {ls : List Link} (hp : Represents p ls)
    {r : Relationship} (h : extended ctx (ordinal ls.length) p r = some q) :
    ∃ s t, ctx.ends r = some (s,t) ∧ Represents q (ls++[⟨r.key, s, t⟩]) := by
  obtain ⟨⟨s, t⟩, he, rfl⟩ := Option.map_eq_some_iff.mp h
  refine ⟨s, t, he, ?_, ?_⟩
  · rw [entityMap_snoc, hp.entities]
    rfl
  · rw [List.map_append, List.map_append, hp.keys]
    rfl

theorem Represents.last {p : PartialMatch} {ls : List Link} (hp : Represents p ls) :
    p.matchedRels.getLast?.map Relationship.key = ls.getLast?.map Link.key := by
  rw [← List.getLast?_map, ← List.getLast?_map, hp.keys]

variable (hids : (ctx.entities.map Entity.id).Nodup) {c : InferenceCondition}

include hids

/-- Extending a match goes one link further. -/
theorem extensions_link {p q : PartialMatch} {ls : List Link} (hp : Represents p ls)
    (hq : q ∈ extensions ctx c (ordinal ls.length) p) :
    ∃ prev l, ls.getLast? = some prev ∧ Meets ctx.entities ctx.facts c l ∧
      Connected prev.key l.key ∧ Represents q (ls++[l]) := by
  unfold extensions at hq
  have hlast := hp.last
  cases hl : p.matchedRels.getLast? with
  | none =>
    rw [hl] at hq
    cases hq
  | some prev =>
    rw [hl] at hq hlast
    obtain ⟨link, hlink, hkey⟩ := Option.map_eq_some_iff.mp hlast.symm
    obtain ⟨r, hr, hext⟩ := List.mem_filterMap.mp hq
    obtain ⟨s, t, he, hrep⟩ := extended_represents hp hext
    obtain ⟨hcand, hst, htt⟩ := (mem_filter_by_types ctx he).mp hr
    obtain ⟨hrel, htype, hconn⟩ := (mem_candidateRels ctx).mp hcand
    exact ⟨link, _, hlink, (meets_iff ctx hids hrel).mpr ⟨he, htype, hst, htt⟩,
      hkey ▸ hconn, hrep⟩

theorem link_extensions {p : PartialMatch} {ls : List Link} (hp : Represents p ls) {prev l : Link}
    (hprev : ls.getLast? = some prev) (hl : Meets ctx.entities ctx.facts c l)
    (hc : Connected prev.key l.key) :
    ∃ q ∈ extensions ctx c (ordinal ls.length) p, Represents q (ls++[l]) := by
  have hlast := hp.last
  rw [hprev] at hlast
  obtain ⟨r₀, hr₀, hkey⟩ := Option.map_eq_some_iff.mp hlast
  obtain ⟨r, hr, hrk⟩ := List.mem_map.mp hl.fact
  obtain ⟨k, s, t⟩ := l
  subst hrk
  obtain ⟨he, htype, hst, htt⟩ := (meets_iff ctx hids hr).mp hl
  have hext : extended ctx (ordinal ls.length) p r =
      some ⟨p.matchedRels++[r], p.entityMap++[(ordinal ls.length,(s,t))]⟩ := by
    rw [extended, he]
    rfl
  obtain ⟨s', t', he', hrep⟩ := extended_represents hp hext
  rw [he] at he'
  cases he'
  refine ⟨_, ?_, hrep⟩
  unfold extensions
  rw [hr₀]
  exact List.mem_filterMap.mpr ⟨r, (mem_filter_by_types ctx he).mpr
    ⟨(mem_candidateRels ctx).mpr ⟨hr, htype, hkey ▸ hc⟩, hst, htt⟩, hext⟩

omit hids in
theorem represents_nil : Represents ⟨[], []⟩ [] := ⟨rfl, rfl⟩

theorem firstMatches_link {p : PartialMatch} (hp : p ∈ firstMatches ctx c) :
    ∃ l, Meets ctx.entities ctx.facts c l ∧ Represents p [l] := by
  obtain ⟨r, hr, hext⟩ := List.mem_filterMap.mp hp
  obtain ⟨s, t, he, hrep⟩ := extended_represents represents_nil hext
  obtain ⟨hidx, hst, htt⟩ := (mem_filter_by_types ctx he).mp hr
  obtain ⟨hrel, htype⟩ := List.mem_filter.mp hidx
  exact ⟨_, (meets_iff ctx hids hrel).mpr ⟨he, of_decide_eq_true htype, hst, htt⟩, hrep⟩

theorem link_firstMatches {l : Link} (hl : Meets ctx.entities ctx.facts c l) :
    ∃ p ∈ firstMatches ctx c, Represents p [l] := by
  obtain ⟨r, hr, hrk⟩ := List.mem_map.mp hl.fact
  obtain ⟨k, s, t⟩ := l
  subst hrk
  obtain ⟨he, htype, hst, htt⟩ := (meets_iff ctx hids hr).mp hl
  have hext : extended ctx (ordinal 0) ⟨[], []⟩ r = some ⟨[r], [(ordinal 0,(s,t))]⟩ := by
    rw [extended, he]
    rfl
  obtain ⟨s', t', he', hrep⟩ := extended_represents represents_nil hext
  rw [he] at he'
  cases he'
  exact ⟨_, List.mem_filterMap.mpr ⟨r, (mem_filter_by_types ctx he).mpr
    ⟨List.mem_filter.mpr ⟨hr, decide_eq_true htype⟩, hst, htt⟩, hext⟩, hrep⟩

end Represent

section Walk

variable (ctx : RuleEvaluationContext)

def Grows : ℕ → List InferenceCondition → PartialMatch → PartialMatch → Prop
  | _, [], p, q => q = p
  | i, c::cs, p, q => ∃ p' ∈ extensions ctx c (ordinal i) p, Grows (i+1) cs p' q

theorem grows_snoc (i : ℕ) (cs : List InferenceCondition) (c : InferenceCondition)
    (p q : PartialMatch) : Grows ctx i (cs++[c]) p q ↔
      ∃ p', Grows ctx i cs p p' ∧ q ∈ extensions ctx c (ordinal (i+cs.length)) p' := by
  induction cs generalizing i p with
  | nil => simp [Grows]
  | cons d cs ih =>
    simp only [List.cons_append, Grows, ih, List.length_cons]
    have hidx : i+1+cs.length = i+(cs.length+1) := by omega
    rw [hidx]
    constructor
    · rintro ⟨p₁, hp₁, p₂, hp₂, hq⟩
      exact ⟨p₂, ⟨p₁, hp₁, hp₂⟩, hq⟩
    · rintro ⟨p₂, ⟨p₁, hp₁, hp₂⟩, hq⟩
      exact ⟨p₁, hp₁, p₂, hp₂, hq⟩

def Roomy (m : ℕ) : ℕ → List InferenceCondition → List PartialMatch → Prop
  | _, [], _ => True
  | i, c::cs, ps => (ps.flatMap (extensions ctx c (ordinal i))).length < m ∧
      Roomy m (i+1) cs (ps.flatMap (extensions ctx c (ordinal i)))

theorem extendMatches_subset {m : ℕ} {c : InferenceCondition} {name : String}
    {out ps : List PartialMatch} {q : PartialMatch}
    (h : q ∈ extendMatches ctx m c name out ps) :
    q ∈ out ∨ ∃ p ∈ ps, q ∈ extensions ctx c name p := by
  induction ps generalizing out with
  | nil => exact .inl h
  | cons p ps ih =>
    unfold extendMatches at h
    split_ifs at h
    · exact .inl h
    · rcases ih h with hin | ⟨p', hp', hq⟩
      · rcases List.mem_append.mp hin with hout | hext
        · exact .inl hout
        · exact .inr ⟨p, List.mem_cons_self, hext⟩
      · exact .inr ⟨p', List.mem_cons_of_mem _ hp', hq⟩

theorem extendMatches_roomy {m : ℕ} {c : InferenceCondition} {name : String}
    {out ps : List PartialMatch}
    (h : (out++ps.flatMap (extensions ctx c name)).length < m) :
    extendMatches ctx m c name out ps = out++ps.flatMap (extensions ctx c name) := by
  induction ps generalizing out with
  | nil => simp [extendMatches]
  | cons p ps ih =>
    rw [List.flatMap_cons, ← List.append_assoc] at h
    have hout : ¬ m ≤ out.length := by
      rw [List.length_append, List.length_append] at h
      omega
    rw [extendMatches, if_neg hout, ih h, List.flatMap_cons, List.append_assoc]

theorem walk_subset {m i : ℕ} {cs : List InferenceCondition} {ps : List PartialMatch}
    {q : PartialMatch} (h : q ∈ walk ctx m i cs ps) : ∃ p ∈ ps, Grows ctx i cs p q := by
  induction cs generalizing i ps with
  | nil => exact ⟨q, h, rfl⟩
  | cons c cs ih =>
    obtain ⟨p', hp', hg⟩ := ih h
    rcases extendMatches_subset ctx hp' with hnil | ⟨p, hp, hext⟩
    · cases hnil
    · exact ⟨p, hp, p', hext, hg⟩

theorem walk_roomy {m i : ℕ} {cs : List InferenceCondition} {ps : List PartialMatch}
    (hr : Roomy ctx m i cs ps) {p q : PartialMatch} (hp : p ∈ ps) (hg : Grows ctx i cs p q) :
    q ∈ walk ctx m i cs ps := by
  induction cs generalizing i ps p with
  | nil =>
    rw [show q = p from hg]
    exact hp
  | cons c cs ih =>
    obtain ⟨hlen, hrest⟩ := hr
    obtain ⟨p', hp', hg⟩ := hg
    have hall : extendMatches ctx m c (ordinal i) [] ps =
        ps.flatMap (extensions ctx c (ordinal i)) := extendMatches_roomy ctx hlen
    rw [walk, hall]
    exact ih hrest (List.mem_flatMap.mpr ⟨p, hp, hp'⟩) hg

variable (hids : (ctx.entities.map Entity.id).Nodup)

include hids

theorem grows_chain {done cs : List InferenceCondition} {p q : PartialMatch} {ls : List Link}
    (hc : Chain ctx.entities ctx.facts done ls) (hlen : ls.length = done.length)
    (hp : Represents p ls) (hg : Grows ctx done.length cs p q) :
    ∃ ls', Chain ctx.entities ctx.facts (done++cs) ls' ∧ Represents q ls' := by
  induction cs generalizing done p ls with
  | nil =>
    rw [show q = p from hg, List.append_nil]
    exact ⟨ls, hc, hp⟩
  | cons c cs ih =>
    obtain ⟨p', hp', hg⟩ := hg
    rw [← hlen] at hp'
    obtain ⟨prev, l, hprev, hm, hconn, hrep⟩ := extensions_link hids hp hp'
    have hnext := Chain.next hc hprev hm hconn
    have hlen' : (ls++[l]).length = (done++[c]).length := by simp [hlen]
    have hg' : Grows ctx (done++[c]).length cs p' q := by
      rw [List.length_append]
      exact hg
    obtain ⟨ls', hls', hq⟩ := ih hnext hlen' hrep hg'
    rw [List.append_assoc] at hls'
    exact ⟨ls', hls', hq⟩

omit hids in
theorem Chain.length {cs : List InferenceCondition} {ls : List Link}
    (hc : Chain ctx.entities ctx.facts cs ls) : ls.length = cs.length := by
  induction hc with
  | first _ => rfl
  | next _ _ _ _ ih => simp [ih]

theorem chain_grows {conds : List InferenceCondition} {ls : List Link}
    (hc : Chain ctx.entities ctx.facts conds ls) :
    ∃ c cs, conds = c::cs ∧ ∃ p ∈ firstMatches ctx c, ∃ q,
      Grows ctx 1 cs p q ∧ Represents q ls := by
  induction hc with
  | @first c l hm =>
    obtain ⟨p, hp, hrep⟩ := link_firstMatches hids hm
    exact ⟨c, [], rfl, p, hp, p, rfl, hrep⟩
  | @next cs ls c prev l hls hprev hm hconn ih =>
    obtain ⟨c₀, cs₀, rfl, p, hp, q, hg, hrep⟩ := ih
    obtain ⟨q', hq', hrep'⟩ := link_extensions hids hrep hprev hm hconn
    refine ⟨c₀, cs₀++[c], rfl, p, hp, q', (grows_snoc ctx 1 cs₀ c p q').mpr ⟨q, hg, ?_⟩, hrep'⟩
    rw [Chain.length ctx hls, List.length_cons, Nat.add_comm] at hq'
    exact hq'

def WithinCaps (m : ℕ) (rule : InferenceRule) : Prop :=
  match rule.conditions with
  | [] => True
  | c::cs => Roomy ctx m 1 cs (firstMatches ctx c) ∧
      ((walk ctx m 1 cs (firstMatches ctx c)).filterMap (ruleMatch rule)).length ≤ m

/-- The matches of a rule are chains. -/
theorem ruleMatch_chain {m : ℕ} {rule : InferenceRule} {found : RuleMatch}
    (h : found ∈ evaluateInferenceRule ctx m rule) :
    ∃ p ls, ruleMatch rule p = some found ∧ Represents p ls ∧
      Chain ctx.entities ctx.facts rule.conditions ls := by
  unfold evaluateInferenceRule at h
  cases hconds : rule.conditions with
  | nil =>
    rw [hconds] at h
    cases h
  | cons c cs =>
    rw [hconds] at h
    obtain ⟨q, hq, hfound⟩ := List.mem_filterMap.mp (List.mem_of_mem_take h)
    obtain ⟨p, hp, hg⟩ := walk_subset ctx hq
    obtain ⟨l, hl, hrep⟩ := firstMatches_link hids hp
    obtain ⟨ls, hls, hqrep⟩ := grows_chain ctx hids (.first hl) rfl hrep hg
    exact ⟨q, ls, hfound, hqrep, hls⟩

/-- Every chain is matched, where no cap stops the evaluation. -/
theorem chain_ruleMatch {m : ℕ} {rule : InferenceRule} (hw : WithinCaps ctx m rule)
    {ls : List Link} (hc : Chain ctx.entities ctx.facts rule.conditions ls) :
    ∃ p, Represents p ls ∧
      ∀ found, ruleMatch rule p = some found → found ∈ evaluateInferenceRule ctx m rule := by
  obtain ⟨c, cs, hconds, p, hp, q, hg, hrep⟩ := chain_grows ctx hids hc
  refine ⟨q, hrep, fun found hfound => ?_⟩
  unfold WithinCaps at hw
  unfold evaluateInferenceRule
  rw [hconds] at hw ⊢
  simp only at hw ⊢
  rw [List.take_of_length_le hw.2]
  exact List.mem_filterMap.mpr ⟨q, walk_roomy ctx hw.1 hp hg, hfound⟩

end Walk

end Uru.Extraction
