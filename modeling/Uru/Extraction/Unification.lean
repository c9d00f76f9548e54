import Mathlib.Tactic
import Uru.Extraction.MergeGroups

/-!
# Unified entities

Unifying maps each entity to the one that its group has been merged into, and
moves the relationships along. No two entities that are not connected by matches
become one, what the entities of a group say is kept, and every relationship
between unconnected entities stays. The relationships added between merged
entities name entities that are gone.
-/

set_option autoImplicit false

namespace Uru.Extraction.Unification
open Uru.Lib EntityBlocking CrossToolUnifier MergeGroups

section Conserve

open Relation

variable {ι : Type} [LinearOrder ι] {es : List (Entity ι)}

/-- The groups are the classes of more than one entity under a key of ids. -/
structure Classes (es : List (Entity ι)) (root : ι → ι) (groups : List (Finset ι)) : Prop where
  disjoint : groups.Pairwise Disjoint
  several : ∀ g ∈ groups, 1 < g.card
  members : ∀ g ∈ groups, ∀ id ∈ g, id ∈ es.map Entity.id
  same : ∀ g ∈ groups, ∃ k, ∀ e ∈ es, e.id ∈ g ↔ root e.id = k
  whole : ∀ a ∈ es, ∀ b ∈ es, a.id ≠ b.id → root a.id = root b.id → ∃ g ∈ groups, a.id ∈ g

def classes (es : List (Entity ι)) (root : ι → ι) : List (Finset ι) :=
  (((groupBy (fun e => some (root e.id)) es).values).map (fun group =>
    (group.map Entity.id).toFinset)).filter (fun group => 1 < group.card)

theorem mem_class {root : ι → ι} {k : ι} {e : Entity ι} (he : e ∈ es) :
    e.id ∈ ((es.filter (fun e => some (root e.id) = some k)).map Entity.id).toFinset ↔
      root e.id = k := by
  rw [List.mem_toFinset, List.mem_map]
  constructor
  · rintro ⟨e', he', hid⟩
    obtain ⟨hmem, hroot⟩ := List.mem_filter.mp he'
    rw [← hid]
    exact Option.some.inj (of_decide_eq_true hroot)
  · rintro rfl
    exact ⟨e, List.mem_filter.mpr ⟨he, decide_eq_true rfl⟩, rfl⟩

theorem classes_spec (es : List (Entity ι)) (root : ι → ι) :
    Classes es root (classes es root) := by
  let groups := groupBy (fun e => some (root e.id)) es
  have hgroup : ∀ g ∈ classes es root, 1 < g.card ∧ ∃ k,
      g = ((es.filter (fun e => some (root e.id) = some k)).map Entity.id).toFinset := by
    intro g hg
    obtain ⟨hg, hcard⟩ := List.mem_filter.mp hg
    obtain ⟨l, hl, rfl⟩ := List.mem_map.mp hg
    obtain ⟨k, rfl, -⟩ := mem_values_groupBy.mp hl
    exact ⟨of_decide_eq_true hcard, k, rfl⟩
  constructor
  · apply List.Pairwise.filter
    rw [List.pairwise_map]
    show (groups.entries.map Prod.snd).Pairwise _
    rw [List.pairwise_map]
    have hkeys : groups.entries.Pairwise (fun a b => a.1 ≠ b.1) :=
      List.pairwise_map.mp groups.nodup
    apply hkeys.imp_of_mem
    rintro ⟨k, l⟩ ⟨k', l'⟩ hl hl' hne
    have hvalue : ∀ {k : ι} {l : List (Entity ι)}, (k,l) ∈ groups.entries →
        l = es.filter (fun e => some (root e.id) = some k) := by
      intro k l hmem
      rw [Record.mem_entries, groupBy_get] at hmem
      split_ifs at hmem
      exact (Option.some.inj hmem).symm
    rw [Finset.disjoint_left]
    intro id hid hid'
    obtain ⟨e, he, rfl⟩ := List.mem_map.mp (List.mem_toFinset.mp hid)
    rw [hvalue hl] at hid he
    rw [hvalue hl'] at hid'
    have hmem := List.mem_of_mem_filter he
    rw [mem_class hmem] at hid hid'
    exact hne (hid.symm.trans hid')
  · exact fun g hg => (hgroup g hg).1
  · intro g hg id hid
    obtain ⟨-, k, rfl⟩ := hgroup g hg
    obtain ⟨e, he, rfl⟩ := List.mem_map.mp (List.mem_toFinset.mp hid)
    exact List.mem_map_of_mem (List.mem_of_mem_filter he)
  · intro g hg
    obtain ⟨-, k, rfl⟩ := hgroup g hg
    exact ⟨k, fun e he => mem_class he⟩
  · intro a ha b hb hne hroot
    have hmem : ∀ e ∈ es, root e.id = root a.id → e.id ∈
        ((es.filter (fun e => some (root e.id) = some (root a.id))).map Entity.id).toFinset :=
      fun e he h => (mem_class he).mpr h
    refine ⟨_, List.mem_filter.mpr ⟨List.mem_map.mpr ⟨es.filter (fun e =>
      some (root e.id) = some (root a.id)), mem_values_groupBy.mpr ⟨root a.id, rfl, ?_⟩, rfl⟩, ?_⟩,
      hmem a ha rfl⟩
    · exact List.ne_nil_of_mem (List.mem_filter.mpr ⟨ha, decide_eq_true rfl⟩)
    · apply decide_eq_true
      exact Finset.one_lt_card.mpr ⟨a.id, hmem a ha rfl, b.id, hmem b hb hroot.symm, hne⟩

theorem classes_nil (es : List (Entity ι)) (root : ι → ι) :
    classes es root = [] ↔ ∀ a ∈ es, ∀ b ∈ es, root a.id = root b.id → a.id = b.id := by
  have hc := classes_spec es root
  constructor
  · intro hnil a ha b hb hroot
    by_contra hne
    obtain ⟨g, hg, -⟩ := hc.whole a ha b hb hne hroot
    rw [hnil] at hg
    cases hg
  · intro hroot
    apply List.eq_nil_iff_forall_not_mem.mpr
    intro g hg
    obtain ⟨x, hx, y, hy, hne⟩ := Finset.one_lt_card.mp (hc.several g hg)
    obtain ⟨a, ha, rfl⟩ := List.mem_map.mp (hc.members g hg x hx)
    obtain ⟨b, hb, rfl⟩ := List.mem_map.mp (hc.members g hg y hy)
    obtain ⟨k, hk⟩ := hc.same g hg
    exact hne (hroot a ha b hb (((hk a ha).mp hx).trans ((hk b hb).mp hy).symm))

theorem updateRelationships_eq (rels : List (Relationship ι)) (m : Record ι ι) :
    updateRelationships rels m =
      (rels.filter (fun rel =>
        image m rel.sourceEntityId ≠ image m rel.targetEntityId)).map (fun rel => { rel with
          sourceEntityId := image m rel.sourceEntityId
          targetEntityId := image m rel.targetEntityId }) := by
  induction rels with
  | nil => rfl
  | cons rel rels ih =>
    unfold updateRelationships at ih ⊢
    rw [List.filterMap_cons, List.filter_cons, ih]
    by_cases h : image m rel.sourceEntityId = image m rel.targetEntityId
    · simp [h]
    · simp [h]

structure Conserves (es : List (Entity ι)) (pairs : List (ι × ι)) (onto : ι → ι)
    (unified : List (Entity ι)) (merged : ℕ) : Prop where
  connected : ∀ a ∈ es, ∀ b ∈ es,
    onto a.id = onto b.id ↔ EqvGen (fun x y => (x,y) ∈ pairs) a.id b.id
  distinct : (unified.map Entity.id).Nodup
  remaining : ∀ id, id ∈ unified.map Entity.id ↔ ∃ e ∈ es, onto e.id = id
  merges : ∀ m ∈ unified, onto m.id = m.id ∧ Merges (es.filter (fun e => onto e.id = m.id)) m
  counted : unified.length+merged = es.length

omit [LinearOrder ι] in
theorem merges_self (m : Entity ι) : Merges [m] m := by
  constructor <;> simp

omit [LinearOrder ι] in
theorem filter_unique (hids : (es.map Entity.id).Nodup) {m : Entity ι} (hm : m ∈ es)
    {p : Entity ι → Bool} (hp : ∀ e ∈ es, p e = true ↔ e.id = m.id) : es.filter p = [m] := by
  have hn : (es.filter p).Nodup := hids.of_map.filter p
  apply List.perm_singleton.mp
  apply (List.perm_ext_iff_of_nodup hn (List.nodup_singleton m)).mpr
  intro e
  rw [List.mem_filter, List.mem_singleton]
  constructor
  · rintro ⟨he, hpe⟩
    exact List.inj_on_of_nodup_map hids he hm ((hp e he).mp hpe)
  · rintro rfl
    exact ⟨hm, (hp e hm).mpr rfl⟩

section Mapped

variable {pairs : List (ι × ι)} {root : ι → ι} {groups : List (Finset ι)} {s : Unifying ι}
  {onto : ι → ι}

theorem onto_processed (h : Kept es groups s)
    (honto : ∀ id, onto id = (s.entityMapping.get id).getD id) {id : ι}
    (hid : id ∈ s.processedIds) :
    ∃ g ∈ groups, id ∈ g ∧ onto id ∈ g ∧ ∃ m ∈ s.unifiedEntities, onto id = m.id ∧
      Stands es s.entityMapping g m := by
  obtain ⟨g, hg, hmem⟩ := (h.processed id).mp hid
  obtain ⟨m, hm, hs⟩ := h.groups g hg
  have hto : onto id = m.id := by
    rw [honto, hs.mapped id hmem]
    rfl
  exact ⟨g, hg, hmem, hto ▸ hs.mem, m, hm, hto, hs⟩

theorem onto_left (h : Kept es groups s)
    (honto : ∀ id, onto id = (s.entityMapping.get id).getD id) {id : ι}
    (hid : id ∉ s.processedIds) : onto id = id := by
  rw [honto, h.unmapped id hid]
  rfl

/-- An entity is mapped within its class. -/
theorem onto_root (hc : Classes es root groups) (h : Kept es groups s)
    (honto : ∀ id, onto id = (s.entityMapping.get id).getD id) {e : Entity ι} (he : e ∈ es) :
    root (onto e.id) = root e.id ∧ onto e.id ∈ es.map Entity.id := by
  by_cases hid : e.id ∈ s.processedIds
  · obtain ⟨g, hg, hmem, hto, -⟩ := onto_processed h honto hid
    obtain ⟨k, hk⟩ := hc.same g hg
    have hin := hc.members g hg _ hto
    obtain ⟨e', he', heq⟩ := List.mem_map.mp hin
    refine ⟨?_, hin⟩
    rw [(hk e he).mp hmem, ← heq]
    exact (hk e' he').mp (heq ▸ hto)
  · rw [onto_left h honto hid]
    exact ⟨rfl, List.mem_map_of_mem he⟩

theorem onto_same (hc : Classes es root groups) (h : Kept es groups s)
    (honto : ∀ id, onto id = (s.entityMapping.get id).getD id) {a b : Entity ι} (ha : a ∈ es)
    (hb : b ∈ es) : onto a.id = onto b.id ↔ root a.id = root b.id := by
  constructor
  · intro heq
    rw [← (onto_root hc h honto ha).1, heq, (onto_root hc h honto hb).1]
  · intro hroot
    by_cases hne : a.id = b.id
    · rw [hne]
    · obtain ⟨g, hg, hag⟩ := hc.whole a ha b hb hne hroot
      obtain ⟨k, hk⟩ := hc.same g hg
      have hbg : b.id ∈ g := (hk b hb).mpr (hroot ▸ (hk a ha).mp hag)
      obtain ⟨m, -, hs⟩ := h.groups g hg
      rw [honto, honto, hs.mapped _ hag, hs.mapped _ hbg]
      rfl

theorem mem_unprocessed {e : Entity ι} : e ∈ es.filter (fun e => e.id ∉ s.processedIds) ↔
    e ∈ es ∧ e.id ∉ s.processedIds := by
  rw [List.mem_filter, decide_eq_true_eq]

/-- A merged entity is its own image, and has taken over its group. -/
theorem onto_merged (hc : Classes es root groups) (h : Kept es groups s)
    (honto : ∀ id, onto id = (s.entityMapping.get id).getD id) {m : Entity ι}
    (hm : m ∈ s.unifiedEntities) : m.id ∈ s.processedIds ∧ onto m.id = m.id ∧
      (∃ e ∈ es, e.id = m.id) ∧ Merges (es.filter (fun e => onto e.id = m.id)) m := by
  obtain ⟨g, hg, hs⟩ := h.survivors m hm
  have hself : onto m.id = m.id := by
    rw [honto, hs.mapped _ hs.mem]
    rfl
  obtain ⟨e', he', heq⟩ := List.mem_map.mp (hc.members g hg _ hs.mem)
  refine ⟨(h.processed m.id).mpr ⟨g, hg, hs.mem⟩, hself, ⟨e', he', heq⟩, ?_⟩
  have hsame : es.filter (fun e => onto e.id = m.id) = es.filter (fun e => e.id ∈ g) := by
    apply List.filter_congr
    intro e he
    obtain ⟨k, hk⟩ := hc.same g hg
    have hiff := onto_same hc h honto he he'
    rw [heq, hself] at hiff
    rw [decide_eq_decide, hiff, hk e he, ← (hk e' he').mp (heq ▸ hs.mem), heq]
  rw [hsame]
  exact hs.merges

/-- An entity in no group is the only one mapped to it. -/
theorem merges_unprocessed (hids : (es.map Entity.id).Nodup) (h : Kept es groups s)
    (honto : ∀ id, onto id = (s.entityMapping.get id).getD id) {m : Entity ι} (hm : m ∈ es)
    (hno : m.id ∉ s.processedIds) : Merges (es.filter (fun e => onto e.id = m.id)) m := by
  rw [filter_unique hids hm]
  · exact merges_self m
  · intro e he
    rw [decide_eq_true_eq]
    constructor
    · intro hto
      by_cases hid : e.id ∈ s.processedIds
      · obtain ⟨g, hg, -, hmemg, -⟩ := onto_processed h honto hid
        exact absurd ((h.processed m.id).mpr ⟨g, hg, hto ▸ hmemg⟩) hno
      · rwa [onto_left h honto hid] at hto
    · intro heq
      rw [heq, onto_left h honto hno]

theorem processed_card (hids : (es.map Entity.id).Nodup) (hc : Classes es root groups)
    (h : Kept es groups s) :
    (es.filter (fun e => e.id ∈ s.processedIds)).length = s.processedIds.card := by
  rw [← List.length_map Entity.id, ← List.toFinset_card_of_nodup
    (hids.sublist (List.filter_sublist.map _))]
  congr 1
  ext id
  rw [List.mem_toFinset, List.mem_map]
  constructor
  · rintro ⟨e, he, rfl⟩
    exact of_decide_eq_true (List.mem_filter.mp he).2
  · intro hid
    obtain ⟨g, hg, hmem⟩ := (h.processed id).mp hid
    obtain ⟨e, he, rfl⟩ := List.mem_map.mp (hc.members g hg id hmem)
    exact ⟨e, List.mem_filter.mpr ⟨he, decide_eq_true hid⟩, rfl⟩

theorem conserves (hids : (es.map Entity.id).Nodup) (hc : Classes es root groups)
    (hpairs : ∀ x y, root x = root y ↔ EqvGen (fun x y => (x,y) ∈ pairs) x y)
    (h : Kept es groups s) (honto : ∀ id, onto id = (s.entityMapping.get id).getD id) :
    Conserves es pairs onto
      (s.unifiedEntities++s.entities.filter (fun e => e.id ∉ s.processedIds))
      s.entitiesMerged := by
  have hrest : s.entities.filter (fun e => e.id ∉ s.processedIds) =
      es.filter (fun e => e.id ∉ s.processedIds) :=
    h.others (fun id => decide (id ∉ s.processedIds)) (fun id hid => by simpa using hid)
  rw [hrest]
  constructor
  · intro a ha b hb
    rw [onto_same hc h honto ha hb, hpairs]
  · rw [List.map_append, List.nodup_append]
    refine ⟨h.distinct, hids.sublist (List.filter_sublist.map _), ?_⟩
    intro id hid id' hid' heq
    obtain ⟨m, hm, rfl⟩ := List.mem_map.mp hid
    obtain ⟨e, he, rfl⟩ := List.mem_map.mp hid'
    exact (mem_unprocessed.mp he).2 (heq ▸ (onto_merged hc h honto hm).1)
  · intro id
    rw [List.map_append, List.mem_append]
    constructor
    · rintro (hid | hid)
      · obtain ⟨m, hm, rfl⟩ := List.mem_map.mp hid
        obtain ⟨-, hself, ⟨e, he, heq⟩, -⟩ := onto_merged hc h honto hm
        exact ⟨e, he, by rw [heq, hself]⟩
      · obtain ⟨e, he, rfl⟩ := List.mem_map.mp hid
        obtain ⟨hmem, hno⟩ := mem_unprocessed.mp he
        exact ⟨e, hmem, onto_left h honto hno⟩
    · rintro ⟨e, he, rfl⟩
      by_cases hid : e.id ∈ s.processedIds
      · obtain ⟨g, -, -, -, m, hm, hto, -⟩ := onto_processed h honto hid
        exact Or.inl (hto ▸ List.mem_map_of_mem hm)
      · rw [onto_left h honto hid]
        exact Or.inr (List.mem_map_of_mem (mem_unprocessed.mpr ⟨he, hid⟩))
  · intro m hm
    rcases List.mem_append.mp hm with hm | hm
    · obtain ⟨-, hself, -, hmerges⟩ := onto_merged hc h honto hm
      exact ⟨hself, hmerges⟩
    · obtain ⟨hmem, hno⟩ := mem_unprocessed.mp hm
      exact ⟨onto_left h honto hno, merges_unprocessed hids h honto hmem hno⟩
  · have hsplit : (es.filter (fun e => e.id ∈ s.processedIds)).length+
        (es.filter (fun e => e.id ∉ s.processedIds)).length = es.length := by
      rw [← List.countP_eq_length_filter, ← List.countP_eq_length_filter,
        List.length_eq_countP_add_countP (fun e => decide (e.id ∈ s.processedIds))]
      simp
    have hcard := processed_card hids hc h
    rw [List.length_append]
    have hcounted := h.counted
    omega

end Mapped

section Result

variable (u : Unifier) (order : SetOrder ι) (rels : List (Relationship ι))
  (useEmbeddings useFuzzy : Bool) {entityIndex : Option (Walked ι)}

/-- Mapping the entities that are left to themselves moves none. -/
theorem image_rest {groups : List (Finset ι)} {s : Unifying ι} (h : Kept es groups s) (id : ι) :
    image ((s.entities.filter (fun e => e.id ∉ s.processedIds)).foldl
      (fun m e => m.set e.id e.id) s.entityMapping) id = (s.entityMapping.get id).getD id := by
  let rest := s.entities.filter (fun e => e.id ∉ s.processedIds)
  have hfold : rest.foldl (fun m e => m.set e.id e.id) s.entityMapping =
      (rest.map Entity.id).foldl (fun m id => m.set id id) s.entityMapping := by
    rw [List.foldl_map]
  unfold image
  rw [hfold, get_set_all _ _ (fun id => id)]
  split_ifs with hmem
  · obtain ⟨e, he, rfl⟩ := List.mem_map.mp hmem
    rw [h.unmapped e.id (of_decide_eq_true (List.mem_filter.mp he).2)]
    rfl
  · rfl

structure Unified (es : List (Entity ι)) (pairs : List (ι × ι)) (groups : List (Finset ι))
    (s : Unifying ι) (r : UnificationResult ι) : Prop where
  grouped : groups = classes es ((Forest.singletons ι).attaches pairs).root
  kept : Kept es groups s
  unified : r.unifiedEntities =
    s.unifiedEntities++s.entities.filter (fun e => e.id ∉ s.processedIds)
  mapping : ∀ id, image r.entityMapping id = (s.entityMapping.get id).getD id
  merged : r.entitiesMerged = s.entitiesMerged
  mergeGroups : r.mergeGroups = groups.map order.walk
  related : r.newRelationships = findNewRelationships order groups s.entities
  unchanged : groups = [] → r.updatedRelationships = if es = [] then [] else rels
  updated : groups ≠ [] → r.updatedRelationships = updateRelationships rels r.entityMapping

variable {u order rels useEmbeddings useFuzzy}

/-- What is found to be merged are the classes under the matches. -/
theorem findMergeGroups_classes {groups : List (Finset ι)}
    (h : findMergeGroups u es useEmbeddings useFuzzy entityIndex = some groups) :
    groups = classes es ((Forest.singletons ι).attaches
      (matched u es useEmbeddings useFuzzy entityIndex)).root := by
  unfold findMergeGroups at h
  dsimp only at h
  split_ifs at h
  obtain ⟨forest, hforest, h⟩ := Option.bind_eq_some_iff.mp h
  obtain ⟨-, -, h⟩ := Option.bind_eq_some_iff.mp h
  rw [← Forest.attachesWithin_eq hforest]
  exact (Option.some.inj h).symm

theorem findMergeGroups_some (hfields : hashableFields u es = true)
    (hmany : es.length ≤ u.recursionLimit)
    (hindex : ∀ x, entityIndex = some x → Indexes u.naming x.index es) :
    ∃ groups, findMergeGroups u es useEmbeddings useFuzzy entityIndex = some groups := by
  have hknown : ∀ p ∈ matched u es useEmbeddings useFuzzy entityIndex,
      p.1 ∈ es.map Entity.id ∧ p.2 ∈ es.map Entity.id :=
    fun p hp => matched_known u hindex useEmbeddings useFuzzy hp
  have hlength : (es.map Entity.id).length ≤ u.recursionLimit := by rwa [List.length_map]
  obtain ⟨hforest, hwithin⟩ := Forest.attachesWithin_some
    (Forest.within_singletons (es.map Entity.id)) hlength hknown
  obtain ⟨found, hfound⟩ := Forest.findsWithin_some hwithin hlength (List.Subset.refl _)
  refine ⟨classes es ((Forest.singletons ι).attaches
    (matched u es useEmbeddings useFuzzy entityIndex)).root, ?_⟩
  unfold findMergeGroups
  dsimp only
  rw [if_pos ⟨hfields, hknown⟩, hforest]
  dsimp only [bind, Option.bind]
  rw [hfound]
  rfl

theorem unify_unified {r : UnificationResult ι}
    (hr : unify u order es rels useEmbeddings useFuzzy entityIndex = some r) : ∃ groups s,
      Unified order rels es (matched u es useEmbeddings useFuzzy entityIndex) groups s r := by
  have hstart := kept_start es
  by_cases hes : es = []
  · rw [unify, if_pos hes] at hr
    obtain rfl := Option.some.inj hr
    refine ⟨[], ⟨es,[],∅,∅,0⟩, ?_⟩
    constructor
    · rw [hes]
      rfl
    · exact hstart
    · rw [hes]
      rfl
    · exact fun id => rfl
    · rfl
    · rfl
    · rfl
    · exact fun _ => (if_pos hes).symm
    · exact fun hne => absurd rfl hne
  · rw [unify, if_neg hes] at hr
    cases hgroups : findMergeGroups u es useEmbeddings useFuzzy entityIndex with
    | none =>
      rw [hgroups] at hr
      cases hr
    | some groups =>
      have hclasses := findMergeGroups_classes hgroups
      rw [hgroups] at hr
      cases hcase : groups with
      | nil =>
        rw [hcase] at hr hclasses
        obtain rfl := Option.some.inj hr
        refine ⟨[], ⟨es,[],∅,∅,0⟩, ?_⟩
        constructor
        · exact hclasses
        · exact hstart
        · simp
        · exact fun id => rfl
        · rfl
        · rfl
        · rfl
        · exact fun _ => (if_neg hes).symm
        · exact fun hne => absurd rfl hne
      | cons g gs =>
        have hc := classes_spec es ((Forest.singletons ι).attaches
          (matched u es useEmbeddings useFuzzy entityIndex)).root
        rw [← hclasses, hcase] at hc
        rw [hcase] at hr hclasses
        obtain ⟨s, hs, hkept⟩ := kept_run order hstart hc.disjoint
          (fun g' hg' => (hc.several g' hg').le) hc.members
        dsimp only at hr
        rw [hs, Option.map_some] at hr
        obtain rfl := Option.some.inj hr
        refine ⟨g::gs, s, ?_⟩
        constructor
        · exact hclasses
        · exact hkept
        · rfl
        · exact image_rest hkept
        · rfl
        · rfl
        · rfl
        · exact fun hnil => by cases hnil
        · exact fun _ => rfl

variable (u order rels useEmbeddings useFuzzy)

/-- Fields that can be hashed, and no more entities than a find has calls, raise nothing. -/
theorem unify_some (hfields : hashableFields u es = true) (hmany : es.length ≤ u.recursionLimit)
    (hindex : ∀ x, entityIndex = some x → Indexes u.naming x.index es) :
    ∃ r, unify u order es rels useEmbeddings useFuzzy entityIndex = some r := by
  obtain ⟨groups, hgroups⟩ := findMergeGroups_some hfields hmany hindex
  rw [unify, hgroups]
  split_ifs with hes
  · exact ⟨_, rfl⟩
  · cases hcase : groups with
    | nil => exact ⟨_, rfl⟩
    | cons g gs =>
      have hc := classes_spec es ((Forest.singletons ι).attaches
        (matched u es useEmbeddings useFuzzy entityIndex)).root
      rw [← findMergeGroups_classes hgroups, hcase] at hc
      obtain ⟨s, hs, -⟩ := kept_run order (kept_start es) hc.disjoint
        (fun g' hg' => (hc.several g' hg').le) hc.members
      dsimp only
      rw [hs]
      exact ⟨_, rfl⟩

theorem unified_conserves (hids : (es.map Entity.id).Nodup) {pairs : List (ι × ι)}
    {groups : List (Finset ι)} {s : Unifying ι} {r : UnificationResult ι}
    (h : Unified order rels es pairs groups s r) :
    Conserves es pairs (image r.entityMapping) r.unifiedEntities r.entitiesMerged := by
  rw [h.unified, h.merged]
  have hc : Classes es ((Forest.singletons ι).attaches pairs).root groups := by
    rw [h.grouped]
    exact classes_spec es _
  exact conserves hids hc (Forest.attaches_same pairs) h.kept h.mapping

omit [LinearOrder ι] in
theorem lookup_spec [DecidableEq ι] {l : List (Entity ι)} (hids : (l.map Entity.id).Nodup) {id : ι}
    {e : Entity ι} : (Record.ofList (l.map (fun e => (e.id,e)))).get id = some e ↔
      e ∈ l ∧ e.id = id := by
  have hn : (((∅ : Record ι (Entity ι)).entries++l.map (fun e => (e.id,e))).map
      Prod.fst).Nodup := by
    show ((l.map (fun e => (e.id,e))).map Prod.fst).Nodup
    rw [List.map_map]
    exact hids
  rw [← Record.mem_entries, Record.ofList, Record.foldl_set_entries _ _ hn]
  show (id,e) ∈ l.map (fun e => (e.id,e)) ↔ _
  rw [List.mem_map]
  constructor
  · rintro ⟨e', he', heq⟩
    cases heq
    exact ⟨he', rfl⟩
  · rintro ⟨he, rfl⟩
    exact ⟨e, he, rfl⟩

/-- What a new relationship names. -/
theorem new_relationship {groups : List (Finset ι)} {l : List (Entity ι)}
    (hids : (l.map Entity.id).Nodup) {rel : Relationship ι}
    (hrel : rel ∈ findNewRelationships order groups l) : ∃ g ∈ groups, ∃ base ∈ l, ∃ other ∈ l,
      base.id ∈ g ∧ other.id ∈ g ∧ base.id ≠ other.id ∧
      (¬ ∃ d ∈ base.sourceDocumentIds, d ∈ other.sourceDocumentIds) ∧
      rel.sourceEntityId = base.id ∧ rel.targetEntityId = other.id := by
  unfold findNewRelationships at hrel
  obtain ⟨g, hg, hrel⟩ := List.mem_flatMap.mp hrel
  let found := (order.walk g).filterMap (Record.ofList (l.map (fun e => (e.id,e)))).get
  have hfound : ∀ e ∈ found, e ∈ l ∧ e.id ∈ g := by
    intro e he
    obtain ⟨id, hid, hget⟩ := List.mem_filterMap.mp he
    obtain ⟨hl, rfl⟩ := (lookup_spec hids).mp hget
    rw [← List.mem_toFinset, order.toFinset] at hid
    exact ⟨hl, hid⟩
  have hdistinct : found.Nodup := by
    apply (order.nodup g).filterMap
    intro a b e ha hb
    rw [Option.mem_def, lookup_spec hids] at ha hb
    rw [← ha.2, ← hb.2]
  change rel ∈ groupReferences order found at hrel
  cases hcase : found with
  | nil =>
    rw [hcase] at hrel
    cases hrel
  | cons base others =>
    rw [hcase] at hrel hfound hdistinct
    unfold groupReferences at hrel
    dsimp only at hrel
    split_ifs at hrel
    · cases hrel
    · obtain ⟨other, hother, heq⟩ := List.mem_filterMap.mp hrel
      split_ifs at heq with hshare
      cases heq
      obtain ⟨hbase, hbaseg⟩ := hfound base List.mem_cons_self
      obtain ⟨hmem, hmemg⟩ := hfound other (List.mem_cons_of_mem _ hother)
      refine ⟨g, hg, base, hbase, other, hmem, hbaseg, hmemg, ?_, hshare, rfl, rfl⟩
      intro hid
      have hsame := List.inj_on_of_nodup_map hids hbase hmem hid
      exact (List.nodup_cons.mp hdistinct).1 (hsame ▸ hother)

end Result

section Three

def sortedSets : SetOrder ℕ := ⟨fun s => s.sort (· ≤ ·),fun s => s.sort_nodup _,
  fun s => s.sort_toFinset _⟩

def mentioned (id document : ℕ) (name : String) : Entity ℕ :=
  { company id name with sourceDocumentIds := [document] }

def mentions : List (Entity ℕ) :=
  [mentioned 1 10 "Acme corp",mentioned 2 20 "acme CORP",mentioned 3 30 "Acme corps"]

def owns (source target : ℕ) : Relationship ℕ where
  namespaceId := 0
  sourceEntityId := source
  targetEntityId := target
  relationshipType := "OWNS".toList
  description := []
  properties := ∅
  sourceDocumentIds := []
  sourceChunkIds := []
  confidence := 1

theorem unindexed (x : Walked ℕ) (h : (none : Option (Walked ℕ)) = some x) :
    Indexes plainNames x.index mentions := by
  cases h

def ranked : List (Entity ℕ) :=
  [{ mentioned 1 10 "Acme corp" with confidence := 1/2 },
    { mentioned 2 20 "acme CORP" with confidence := 1/2 },mentioned 3 30 "Acme corps"]

theorem unindexed_ranked (x : Walked ℕ) (h : (none : Option (Walked ℕ)) = some x) :
    Indexes plainNames x.index ranked := by
  cases h

theorem findMergeGroups_ranked :
    findMergeGroups plainUnifier ranked true true none = some [{1,2,3}] := by
  obtain ⟨groups, hgroups⟩ : ∃ groups,
      findMergeGroups plainUnifier ranked true true none = some groups :=
    findMergeGroups_some (by decide) (by decide) unindexed_ranked
  rw [hgroups, findMergeGroups_classes hgroups]
  let pairs := matched plainUnifier ranked true true none
  have hroot : ∀ p ∈ pairs, ((Forest.singletons ℕ).attaches pairs).root p.1 =
      ((Forest.singletons ℕ).attaches pairs).root p.2 :=
    fun p hp => (Forest.attaches_same pairs p.1 p.2).mpr (.rel _ _ hp)
  have h12 := hroot (1,2) (by decide +kernel)
  have h13 := hroot (1,3) (by decide +kernel)
  change some (classes ranked ((Forest.singletons ℕ).attaches pairs).root) = _
  generalize ((Forest.singletons ℕ).attaches pairs).root = root at h12 h13
  dsimp only at h12 h13
  have hone : groupBy (fun e => some (root e.id)) ranked = (∅ : Record ℕ _).set (root 1) ranked := by
    simp [groupBy, ranked, mentioned, company, ← h12, ← h13, Record.set_set]
  unfold classes
  rw [hone]
  rfl

end Three

end Conserve

end Uru.Extraction.Unification
