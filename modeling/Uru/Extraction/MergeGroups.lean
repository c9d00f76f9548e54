import Mathlib.Algebra.BigOperators.Group.List.Basic
import Mathlib.Tactic
import Uru.Extraction.CrossToolUnifier

/-!
# Merging groups of entities

Matches are joined into groups, and the entities of a group are merged into the
most confident one, one group after the other. A group that has been merged
stands for all that its entities said, and merging another changes nothing of it.
-/

set_option autoImplicit false

namespace Uru.Extraction.MergeGroups
open Uru.Lib EntityBlocking CrossToolUnifier

section Merge

variable {ι : Type} [DecidableEq ι]

def addNew (xs ys : List ι) : List ι := ys.foldl (fun xs y => if y ∈ xs then xs else xs++[y]) xs

def addAttributes (own other : Record Text Field) : Record Text Field :=
  other.entries.foldl (fun own a => if (own.get a.1).isSome then own else own.set a.1 a.2) own

def mergeWith (e other : Entity ι) : Entity ι :=
  { e with
    sourceDocumentIds := addNew e.sourceDocumentIds other.sourceDocumentIds
    sourceChunkIds := addNew e.sourceChunkIds other.sourceChunkIds
    mentionCount := e.mentionCount+other.mentionCount
    attributes := addAttributes e.attributes other.attributes
    confidence := max e.confidence other.confidence
    description := if e.description = [] then other.description else e.description }

/-- The most confident entity, the others merged into it; an empty group raises. -/
def mergeEntityGroup (es : List (Entity ι)) : Option (Entity ι) :=
  match sortOn (fun e => OrderDual.toDual e.confidence) es with
  | [] => none
  | base::rest => some (rest.foldl mergeWith base)

theorem mem_addNew (xs ys : List ι) (z : ι) : z ∈ addNew xs ys ↔ z ∈ xs ∨ z ∈ ys := by
  unfold addNew
  induction ys generalizing xs with
  | nil => simp
  | cons y ys ih =>
    rw [List.foldl_cons, ih, List.mem_cons]
    split_ifs with hy
    · constructor
      · rintro (h | h)
        · exact Or.inl h
        · exact Or.inr (Or.inr h)
      · rintro (h | rfl | h)
        · exact Or.inl h
        · exact Or.inl hy
        · exact Or.inr h
    · rw [List.mem_append, List.mem_singleton, or_assoc]

theorem addAttributes_get (own other : Record Text Field) (k : Text) :
    (addAttributes own other).get k = (own.get k).or (other.get k) := by
  have hfold : ∀ (entries : List (Text × Field)) (own : Record Text Field),
      (entries.foldl (fun own a => if (own.get a.1).isSome then own else own.set a.1 a.2) own).get k =
        (own.get k).or (find entries k) := by
    intro entries
    induction entries with
    | nil => simp [find]
    | cons a entries ih =>
      intro own
      obtain ⟨k', v⟩ := a
      rw [List.foldl_cons, ih]
      by_cases hk : k' = k
      · subst hk
        cases hown : own.get k' with
        | none => simp [find]
        | some w => simp [hown]
      · split_ifs
        · simp [find, hk]
        · simp [find, hk, Ne.symm hk]
  exact hfold other.entries own

structure Folded (e : Entity ι) (rest : List (Entity ι)) (m : Entity ι) : Prop where
  id : m.id = e.id
  name : m.name = e.name
  entityType : m.entityType = e.entityType
  documents : ∀ d, d ∈ m.sourceDocumentIds ↔ ∃ x ∈ e::rest, d ∈ x.sourceDocumentIds
  chunks : ∀ c, c ∈ m.sourceChunkIds ↔ ∃ x ∈ e::rest, c ∈ x.sourceChunkIds
  mentions : m.mentionCount = ((e::rest).map Entity.mentionCount).sum
  confidence : (∀ x ∈ rest, x.confidence ≤ e.confidence) → m.confidence = e.confidence
  attributes : ∀ k, m.attributes.get k = (e::rest).findSome? (fun x => x.attributes.get k)
  description : m.description = [] ↔ ∀ x ∈ e::rest, x.description = []

theorem foldl_mergeWith (e : Entity ι) (rest : List (Entity ι)) :
    Folded e rest (rest.foldl mergeWith e) := by
  induction rest generalizing e with
  | nil =>
    exact ⟨rfl, rfl, rfl, by simp, by simp, by simp, fun _ => rfl, fun k => by
      cases h : e.attributes.get k <;> simp [h], by simp⟩
  | cons x rest ih =>
    have h := ih (mergeWith e x)
    constructor
    · exact h.id
    · exact h.name
    · exact h.entityType
    · intro d
      rw [List.foldl_cons, h.documents]
      simp [mergeWith, mem_addNew, or_assoc]
    · intro c
      rw [List.foldl_cons, h.chunks]
      simp [mergeWith, mem_addNew, or_assoc]
    · rw [List.foldl_cons, h.mentions]
      simp [mergeWith, add_assoc]
    · intro hle
      have hx : (mergeWith e x).confidence = e.confidence :=
        max_eq_left (hle x List.mem_cons_self)
      rw [List.foldl_cons, h.confidence, hx]
      intro y hy
      rw [hx]
      exact hle y (List.mem_cons_of_mem _ hy)
    · intro k
      rw [List.foldl_cons, h.attributes]
      simp only [List.findSome?_cons, mergeWith, addAttributes_get]
      cases e.attributes.get k <;> cases x.attributes.get k <;> rfl
    · rw [List.foldl_cons, h.description]
      simp only [List.mem_cons, forall_eq_or_imp, mergeWith]
      by_cases he : e.description = []
      · simp [he]
      · simp [he]

structure Merges (es : List (Entity ι)) (m : Entity ι) : Prop where
  survivor : ∃ e ∈ es, e.id = m.id ∧ e.name = m.name ∧ e.entityType = m.entityType ∧
    e.confidence = m.confidence
  confidence : ∀ e ∈ es, e.confidence ≤ m.confidence
  documents : ∀ d, d ∈ m.sourceDocumentIds ↔ ∃ e ∈ es, d ∈ e.sourceDocumentIds
  chunks : ∀ c, c ∈ m.sourceChunkIds ↔ ∃ e ∈ es, c ∈ e.sourceChunkIds
  mentions : m.mentionCount = (es.map Entity.mentionCount).sum
  missing : ∀ k, m.attributes.get k = none ↔ ∀ e ∈ es, e.attributes.get k = none
  attributes : ∀ k v, m.attributes.get k = some v → ∃ e ∈ es, e.attributes.get k = some v ∧
    ∀ x ∈ es, x.attributes.get k ≠ none → x.confidence ≤ e.confidence
  description : m.description = [] ↔ ∀ e ∈ es, e.description = []

theorem mergeEntityGroup_merges {es : List (Entity ι)} (hes : es ≠ []) :
    ∃ m, mergeEntityGroup es = some m ∧ Merges es m := by
  unfold mergeEntityGroup
  have hperm := sortOn_perm (fun e : Entity ι => OrderDual.toDual e.confidence) es
  have hsorted := sortOn_pairwise (fun e : Entity ι => OrderDual.toDual e.confidence) es
  cases hsort : sortOn (fun e => OrderDual.toDual e.confidence) es with
  | nil =>
    rw [hsort] at hperm
    exact absurd hperm.symm.eq_nil hes
  | cons base rest =>
    rw [hsort] at hperm hsorted
    have h := foldl_mergeWith base rest
    have hmem : ∀ e, e ∈ base::rest ↔ e ∈ es := fun e => hperm.mem_iff
    have hbase : ∀ x ∈ rest, x.confidence ≤ base.confidence := (List.pairwise_cons.mp hsorted).1
    have hconfidence := h.confidence hbase
    refine ⟨_, rfl, ?_⟩
    constructor
    · exact ⟨base, (hmem base).mp List.mem_cons_self, h.id.symm, h.name.symm, h.entityType.symm,
        hconfidence.symm⟩
    · intro e he
      rw [hconfidence]
      rcases List.mem_cons.mp ((hmem e).mpr he) with rfl | he
      · exact le_refl _
      · exact hbase e he
    · intro d
      rw [h.documents]
      simp only [hmem]
    · intro c
      rw [h.chunks]
      simp only [hmem]
    · rw [h.mentions]
      exact (hperm.map _).sum_eq
    · intro k
      rw [h.attributes, List.findSome?_eq_none_iff]
      simp only [hmem]
    · intro k v hv
      rw [h.attributes, List.findSome?_eq_some_iff] at hv
      obtain ⟨before, e, after, hsplit, hev, hnone⟩ := hv
      rw [hsplit] at hsorted hmem
      refine ⟨e, (hmem e).mp (by simp), hev, fun x hx hsome => ?_⟩
      rcases List.mem_append.mp ((hmem x).mpr hx) with hx | hx
      · exact absurd (hnone x hx) hsome
      · rcases List.mem_cons.mp hx with rfl | hx
        · exact le_refl _
        · exact (List.pairwise_cons.mp (List.pairwise_append.mp hsorted).2.1).1 x hx
    · rw [h.description]
      simp only [hmem]

end Merge

section Unify

variable {ι : Type} [LinearOrder ι]

structure SetOrder (ι : Type) [DecidableEq ι] where
  walk : Finset ι → List ι
  nodup : ∀ s, (walk s).Nodup
  toFinset : ∀ s, (walk s).toFinset = s

structure Relationship (ι : Type) where
  namespaceId : ι
  sourceEntityId : ι
  targetEntityId : ι
  relationshipType : Text
  description : Text
  properties : Record Text Field
  sourceDocumentIds : List ι
  sourceChunkIds : List ι
  confidence : ℚ

structure UnificationResult (ι : Type) where
  unifiedEntities : List (Entity ι)
  entityMapping : Record ι ι
  updatedRelationships : List (Relationship ι)
  newRelationships : List (Relationship ι)
  entitiesMerged : ℕ
  mergeGroups : List (List ι)

variable (u : Unifier) (order : SetOrder ι)

def matched (es : List (Entity ι)) (useEmbeddings useFuzzy : Bool)
    (entityIndex : Option (Walked ι)) : List (ι × ι) :=
  u.correlationRules.flatMap (fieldPairs u es)++findExactNameMatches u es++
    (if useEmbeddings then findEmbeddingMatches u es entityIndex else [])++
    (if useFuzzy then findFuzzyMatches u es entityIndex else [])

def hashableFields (es : List (Entity ι)) : Bool :=
  u.correlationRules.all (fun rule => (findFieldMatchPairs u es rule).isSome)

/-- A value that cannot be hashed, a match with an entity that is not in the list and a find of
too many calls raise. -/
def findMergeGroups (es : List (Entity ι)) (useEmbeddings useFuzzy : Bool)
    (entityIndex : Option (Walked ι)) : Option (List (Finset ι)) :=
  let pairs := matched u es useEmbeddings useFuzzy entityIndex
  if hashableFields u es = true ∧ ∀ p ∈ pairs, p.1 ∈ es.map Entity.id ∧ p.2 ∈ es.map Entity.id then do
    let forest ← (Forest.singletons ι).attachesWithin u.recursionLimit pairs
    let _ ← forest.findsWithin u.recursionLimit (es.map Entity.id)
    let groups := (groupBy (fun e => some (forest.root e.id)) es).values
    return (groups.map (fun group => (group.map Entity.id).toFinset)).filter (fun group =>
      1 < group.card)
  else none

structure Unifying (ι : Type) where
  entities : List (Entity ι)
  unifiedEntities : List (Entity ι)
  entityMapping : Record ι ι
  processedIds : Finset ι
  entitiesMerged : ℕ

def Unifying.merge (s : Unifying ι) (group : Finset ι) : Option (Unifying ι) :=
  (mergeEntityGroup (s.entities.filter (fun e => e.id ∈ group))).map (fun mergedEntity =>
    ⟨s.entities.map (fun e => if e.id = mergedEntity.id then mergedEntity else e),
      s.unifiedEntities++[mergedEntity],
      (order.walk group).foldl (fun m id => m.set id mergedEntity.id) s.entityMapping,
      s.processedIds ∪ group,s.entitiesMerged+(group.card-1)⟩)

def image (entityMapping : Record ι ι) (id : ι) : ι := (entityMapping.get id).getD id

def updateRelationships (rels : List (Relationship ι)) (entityMapping : Record ι ι) :
    List (Relationship ι) :=
  rels.filterMap (fun rel =>
    let newSource := image entityMapping rel.sourceEntityId
    let newTarget := image entityMapping rel.targetEntityId
    if newSource = newTarget then none
    else some { rel with sourceEntityId := newSource, targetEntityId := newTarget })

def crossReferenced (allDocIds : List ι) (base other : Entity ι) : Relationship ι where
  namespaceId := base.namespaceId
  sourceEntityId := base.id
  targetEntityId := other.id
  relationshipType := "CROSS_REFERENCED".toList
  description := "Entity '".toList++base.name++"' referenced across documents".toList
  properties := (∅ : Record Text Field).set "inferred".toList (.other 1)
  sourceDocumentIds := allDocIds
  sourceChunkIds := []
  confidence := 7/10

def groupReferences (groupEntities : List (Entity ι)) : List (Relationship ι) :=
  match groupEntities with
  | [] => []
  | base::others =>
    let allDocIds := (groupEntities.flatMap Entity.sourceDocumentIds).toFinset
    if others = [] ∨ allDocIds.card < 2 then []
    else others.filterMap (fun other =>
      if ∃ d ∈ base.sourceDocumentIds, d ∈ other.sourceDocumentIds then none
      else some (crossReferenced (order.walk allDocIds) base other))

def findNewRelationships (mergeGroups : List (Finset ι)) (es : List (Entity ι)) :
    List (Relationship ι) :=
  let entityLookup := Record.ofList (es.map (fun e => (e.id,e)))
  mergeGroups.flatMap (fun group =>
    groupReferences order ((order.walk group).filterMap entityLookup.get))

def unify (es : List (Entity ι)) (rels : List (Relationship ι)) (useEmbeddings useFuzzy : Bool)
    (entityIndex : Option (Walked ι)) : Option (UnificationResult ι) :=
  if es = [] then some ⟨[],∅,[],[],0,[]⟩
  else
    match findMergeGroups u es useEmbeddings useFuzzy entityIndex with
    | none => none
    | some [] => some ⟨es,∅,rels,[],0,[]⟩
    | some groups =>
      (groups.foldlM (Unifying.merge order) ⟨es,[],∅,∅,0⟩).map (fun s =>
        let rest := s.entities.filter (fun e => e.id ∉ s.processedIds)
        let entityMapping := rest.foldl (fun m e => m.set e.id e.id) s.entityMapping
        { unifiedEntities := s.unifiedEntities++rest
          entityMapping := entityMapping
          updatedRelationships := updateRelationships rels entityMapping
          newRelationships := findNewRelationships order groups s.entities
          entitiesMerged := s.entitiesMerged
          mergeGroups := groups.map order.walk })

end Unify

section Run

variable {ι : Type} [LinearOrder ι] (order : SetOrder ι) {es : List (Entity ι)}

structure Stands (es : List (Entity ι)) (entityMapping : Record ι ι) (group : Finset ι)
    (m : Entity ι) : Prop where
  mem : m.id ∈ group
  mapped : ∀ id ∈ group, entityMapping.get id = some m.id
  merges : Merges (es.filter (fun e => e.id ∈ group)) m

structure Kept (es : List (Entity ι)) (done : List (Finset ι)) (s : Unifying ι) : Prop where
  processed : ∀ id, id ∈ s.processedIds ↔ ∃ g ∈ done, id ∈ g
  survivors : ∀ m ∈ s.unifiedEntities, ∃ g ∈ done, Stands es s.entityMapping g m
  groups : ∀ g ∈ done, ∃ m ∈ s.unifiedEntities, Stands es s.entityMapping g m
  unmapped : ∀ id, id ∉ s.processedIds → s.entityMapping.get id = none
  distinct : (s.unifiedEntities.map Entity.id).Nodup
  counted : s.entitiesMerged+s.unifiedEntities.length = s.processedIds.card
  others : ∀ p : ι → Bool, (∀ id ∈ s.processedIds, p id = false) →
    s.entities.filter (fun e => p e.id) = es.filter (fun e => p e.id)
  ids : s.entities.map Entity.id = es.map Entity.id
  replaced : ∀ m ∈ s.unifiedEntities, ∀ e ∈ s.entities, e.id = m.id → e = m
  left : ∀ e ∈ s.entities, e.id ∉ s.unifiedEntities.map Entity.id → e ∈ es

theorem get_set_all (m : Record ι ι) (ids : List ι) (f : ι → ι) (id : ι) :
    (ids.foldl (fun m id => m.set id (f id)) m).get id =
      if id ∈ ids then some (f id) else m.get id := by
  induction ids generalizing m with
  | nil => rfl
  | cons id' ids ih =>
    rw [List.foldl_cons, ih, Record.get_set]
    by_cases h : id = id'
    · subst h
      simp
    · simp [h]

theorem ids_replace (m : Entity ι) (es : List (Entity ι)) :
    (es.map (fun e => if e.id = m.id then m else e)).map Entity.id = es.map Entity.id := by
  rw [List.map_map]
  apply List.map_congr_left
  intro e _
  dsimp only [Function.comp_apply]
  split_ifs with he
  · exact he.symm
  · rfl

theorem filter_replace {m : Entity ι} {p : ι → Bool} (es : List (Entity ι))
    (hp : p m.id = false) :
    (es.map (fun e => if e.id = m.id then m else e)).filter (fun e => p e.id) =
      es.filter (fun e => p e.id) := by
  induction es with
  | nil => rfl
  | cons e es ih =>
    rw [List.map_cons, List.filter_cons, List.filter_cons, ih]
    by_cases he : e.id = m.id
    · rw [if_pos he, he, hp]
      rfl
    · rw [if_neg he]

theorem kept_start (es : List (Entity ι)) : Kept es [] ⟨es,[],∅,∅,0⟩ := by
  constructor <;> simp

theorem kept_merge {done : List (Finset ι)} {s : Unifying ι} (h : Kept es done s)
    {g : Finset ι} (hdisjoint : ∀ g' ∈ done, Disjoint g' g) (hpos : 1 ≤ g.card)
    (hsub : ∀ id ∈ g, id ∈ es.map Entity.id) :
    ∃ s', s.merge order g = some s' ∧ Kept es (done++[g]) s' := by
  have hnew : ∀ id ∈ g, id ∉ s.processedIds := by
    intro id hid hold
    obtain ⟨g', hg', hid'⟩ := (h.processed id).mp hold
    exact Finset.disjoint_left.mp (hdisjoint g' hg') hid' hid
  have hgroup : s.entities.filter (fun e => e.id ∈ g) = es.filter (fun e => e.id ∈ g) := by
    apply h.others (fun id => decide (id ∈ g))
    intro id hid
    exact decide_eq_false (fun hg => hnew id hg hid)
  have hne : es.filter (fun e => e.id ∈ g) ≠ [] := by
    obtain ⟨id, hid⟩ := Finset.card_pos.mp hpos
    obtain ⟨e, he, rfl⟩ := List.mem_map.mp (hsub id hid)
    exact List.ne_nil_of_mem (List.mem_filter.mpr ⟨he, decide_eq_true hid⟩)
  obtain ⟨m, hm, hmerges⟩ := mergeEntityGroup_merges hne
  have hmem : m.id ∈ g := by
    obtain ⟨e, he, hid, -⟩ := hmerges.survivor
    rw [← hid]
    exact of_decide_eq_true (List.mem_filter.mp he).2
  have hget : ∀ id, ((order.walk g).foldl (fun m' id => m'.set id m.id) s.entityMapping).get id =
      if id ∈ g then some m.id else s.entityMapping.get id := by
    intro id
    rw [get_set_all _ _ (fun _ => m.id)]
    have hwalk : id ∈ order.walk g ↔ id ∈ g := by
      rw [← List.mem_toFinset, order.toFinset]
    simp only [hwalk]
  have hstill : ∀ g' ∈ done, ∀ m', Stands es s.entityMapping g' m' →
      Stands es ((order.walk g).foldl (fun m' id => m'.set id m.id) s.entityMapping) g' m' := by
    intro g' hg' m' hs
    refine ⟨hs.mem, fun id hid => ?_, hs.merges⟩
    rw [hget, if_neg (Finset.disjoint_left.mp (hdisjoint g' hg') hid)]
    exact hs.mapped id hid
  have hstands : Stands es
      ((order.walk g).foldl (fun m' id => m'.set id m.id) s.entityMapping) g m :=
    ⟨hmem, fun id hid => by rw [hget, if_pos hid], hmerges⟩
  have hfresh : ∀ m' ∈ s.unifiedEntities, m'.id ≠ m.id := by
    intro m' hm' heq
    obtain ⟨g', hg', hs⟩ := h.survivors m' hm'
    exact Finset.disjoint_left.mp (hdisjoint g' hg') hs.mem (heq ▸ hmem)
  refine ⟨_, by rw [Unifying.merge, hgroup, hm, Option.map_some], ?_⟩
  constructor
  · intro id
    dsimp only
    rw [Finset.mem_union, h.processed]
    simp [or_and_right, exists_or]
  · intro m' hm'
    rcases List.mem_append.mp hm' with hm' | hm'
    · obtain ⟨g', hg', hs⟩ := h.survivors m' hm'
      exact ⟨g', List.mem_append_left _ hg', hstill g' hg' m' hs⟩
    · rw [List.mem_singleton.mp hm']
      exact ⟨g, List.mem_append_right _ (List.mem_singleton_self g), hstands⟩
  · intro g' hg'
    rcases List.mem_append.mp hg' with hg' | hg'
    · obtain ⟨m', hm', hs⟩ := h.groups g' hg'
      exact ⟨m', List.mem_append_left _ hm', hstill g' hg' m' hs⟩
    · rw [List.mem_singleton.mp hg']
      exact ⟨m, List.mem_append_right _ (List.mem_singleton_self m), hstands⟩
  · intro id hid
    rw [Finset.mem_union, not_or] at hid
    rw [hget, if_neg hid.2]
    exact h.unmapped id hid.1
  · dsimp only
    rw [List.map_append, List.map_singleton, List.nodup_append]
    refine ⟨h.distinct, List.nodup_singleton _, ?_⟩
    intro id hid id' hid' heq
    obtain ⟨m', hm', rfl⟩ := List.mem_map.mp hid
    exact hfresh m' hm' (heq.trans (List.mem_singleton.mp hid'))
  · dsimp only
    rw [Finset.card_union_of_disjoint (Finset.disjoint_right.mpr hnew), ← h.counted,
      List.length_append, List.length_singleton]
    omega
  · intro p hp
    have hold := h.others p (fun id hid => hp id (Finset.mem_union_left _ hid))
    exact (filter_replace _ (hp m.id (Finset.mem_union_right _ hmem))).trans hold
  · exact (ids_replace m _).trans h.ids
  · intro m' hm' e he heq
    obtain ⟨e', he', rfl⟩ := List.mem_map.mp he
    rcases List.mem_append.mp hm' with hm' | hm'
    · split_ifs at heq ⊢ with hid
      · exact absurd heq.symm (hfresh m' hm')
      · exact h.replaced m' hm' e' he' heq
    · rw [List.mem_singleton] at hm'
      subst hm'
      split_ifs at heq ⊢ with hid
      · rfl
      · exact absurd heq hid
  · intro e he hno
    obtain ⟨e', he', rfl⟩ := List.mem_map.mp he
    rw [List.map_append, List.mem_append, not_or] at hno
    split_ifs at hno ⊢ with hid
    · exact absurd (List.mem_singleton_self m.id) hno.2
    · exact h.left e' he' hno.1

theorem kept_run {s : Unifying ι} {done rest : List (Finset ι)} (h : Kept es done s)
    (hdisjoint : (done++rest).Pairwise Disjoint) (hpos : ∀ g ∈ rest, 1 ≤ g.card)
    (hsub : ∀ g ∈ rest, ∀ id ∈ g, id ∈ es.map Entity.id) :
    ∃ s', rest.foldlM (Unifying.merge order) s = some s' ∧ Kept es (done++rest) s' := by
  induction rest generalizing done s with
  | nil => exact ⟨s, rfl, by rwa [List.append_nil]⟩
  | cons g rest ih =>
    obtain ⟨s', hs', hkept⟩ := kept_merge order h
      (fun g' hg' => (List.pairwise_append.mp hdisjoint).2.2 g' hg' g List.mem_cons_self)
      (hpos g List.mem_cons_self) (hsub g List.mem_cons_self)
    rw [List.append_cons] at hdisjoint ⊢
    obtain ⟨s'', hs'', hkept'⟩ := ih hkept hdisjoint
      (fun g' hg' => hpos g' (List.mem_cons_of_mem _ hg'))
      (fun g' hg' => hsub g' (List.mem_cons_of_mem _ hg'))
    refine ⟨s'', ?_, hkept'⟩
    rw [List.foldlM_cons, hs']
    exact hs''

end Run

section Known

variable {ι : Type} [LinearOrder ι] {es : List (Entity ι)}

def Known (es : List (Entity ι)) (p : ι × ι) : Prop :=
  p.1 ∈ es.map Entity.id ∧ p.2 ∈ es.map Entity.id

omit [LinearOrder ι] in
theorem known_of_pair {a b : Entity ι} (h : (a,b) ∈ pairsOf es) : Known es (a.id,b.id) :=
  ⟨List.mem_map_of_mem (pairsOf_mem h).1, List.mem_map_of_mem (pairsOf_mem h).2⟩

omit [LinearOrder ι] in
theorem fieldPairs_known (u : Unifier) (rule : CorrelationRule) {p : ι × ι}
    (hp : p ∈ fieldPairs u es rule) : Known es p := by
  unfold fieldPairs at hp
  obtain ⟨fieldName, -, hp⟩ := List.mem_flatMap.mp hp
  obtain ⟨group, hgroup, hp⟩ := List.mem_flatMap.mp hp
  obtain ⟨⟨a, b⟩, hab, rfl⟩ := List.mem_map.mp hp
  obtain ⟨k, rfl, -⟩ := mem_values_groupBy.mp hgroup
  have hpair := (pairsOf_filter.mp hab).1
  unfold candidates at hpair
  split_ifs at hpair
  · exact known_of_pair hpair
  · exact known_of_pair (pairsOf_filter.mp hpair).1

omit [LinearOrder ι] in
theorem exact_names_known (u : Unifier) {p : ι × ι} (hp : p ∈ findExactNameMatches u es) :
    Known es p := by
  unfold findExactNameMatches at hp
  obtain ⟨group, hgroup, hp⟩ := List.mem_flatMap.mp hp
  obtain ⟨k, hk, -⟩ := mem_values_groupBy.mp hgroup
  have hsub : ∀ e ∈ group, e ∈ es := fun e he => List.mem_of_mem_filter (hk ▸ he)
  cases group with
  | nil => cases hp
  | cons first rest =>
    obtain ⟨e, he, rfl⟩ := List.mem_map.mp hp
    exact ⟨List.mem_map_of_mem (hsub first List.mem_cons_self),
      List.mem_map_of_mem (hsub e (List.mem_cons_of_mem _ he))⟩

theorem candidates_known {z : Naming} {x : EntityIndex ι} (h : Indexes z x es) {q : Entity ι}
    {accepts : Entity ι → Bool} {batch : List (Entity ι) → List (ℕ × ℚ)} {n k : ℕ}
    {skipIds : Finset ι} {ids : List ι} {r : Entity ι × ℚ}
    (hr : r ∈ x.findCandidates z q accepts batch n k skipIds ids) : r.1 ∈ es := by
  unfold EntityIndex.findCandidates at hr
  obtain ⟨c, -, hc⟩ := List.mem_filterMap.mp (mem_sortOn.mp hr)
  obtain ⟨candidate, hget, rfl⟩ := Option.map_eq_some_iff.mp hc
  have hmem := List.mem_of_mem_take (List.mem_of_getElem? hget)
  exact ((mem_uncapped h accepts _ candidate).mp hmem).1

theorem blocked_known {search : Entity ι → Finset ι → List (Entity ι × ℚ)} {qs : List (Entity ι)}
    (hqs : ∀ q ∈ qs, q ∈ es) (hsearch : ∀ q skip, ∀ r ∈ search q skip, r.1 ∈ es) {p : ι × ι}
    (hp : p ∈ (blockedMatches search qs).pairs) : Known es p := by
  induction qs using List.reverseRecOn with
  | nil => cases hp
  | append_singleton qs q ih =>
    let s := blockedMatches search qs
    have hstep : blockedMatches search (qs++[q]) =
        { (search q s.processedIds).foldl (fun s r => s.see q r) s with
          processedIds := insert q.id s.processedIds } := List.foldl_append
    rw [hstep] at hp
    rcases see_pairs _ q _ hp with hp | ⟨r, hr, rfl⟩
    · exact ih (fun q' hq' => hqs q' (List.mem_append_left _ hq')) hp
    · exact ⟨List.mem_map_of_mem (hqs q (List.mem_append_right _ (List.mem_singleton_self q))),
        List.mem_map_of_mem (hsearch q _ r hr)⟩

variable (u : Unifier) {entityIndex : Option (Walked ι)}

theorem embeddings_known (h : ∀ x, entityIndex = some x → Indexes u.naming x.index es)
    {p : ι × ι} (hp : p ∈ findEmbeddingMatches u es entityIndex) : Known es p := by
  cases entityIndex with
  | none =>
    obtain ⟨a, b, hab, -, -, -, rfl⟩ := (mem_embedding_pairs u).mp hp
    exact known_of_pair hab
  | some x =>
    unfold findEmbeddingMatches at hp
    dsimp only at hp
    split_ifs at hp
    · cases hp
    · apply blocked_known (fun q hq => List.mem_of_mem_filter hq) _ hp
      intro q skip r hr
      unfold EntityIndex.findEmbeddingCandidates at hr
      cases hq : q.embedding with
      | none =>
        rw [hq] at hr
        cases hr
      | some query =>
        rw [hq] at hr
        exact candidates_known (h x rfl) hr

theorem fuzzy_known (h : ∀ x, entityIndex = some x → Indexes u.naming x.index es)
    {p : ι × ι} (hp : p ∈ findFuzzyMatches u es entityIndex) : Known es p := by
  cases entityIndex with
  | none =>
    obtain ⟨a, b, hab, -, -, rfl⟩ := (mem_fuzzy_pairs u).mp hp
    exact known_of_pair hab
  | some x =>
    apply blocked_known (fun q hq => hq) _ hp
    intro q skip r hr
    unfold EntityIndex.findFuzzyCandidates at hr
    split_ifs at hr
    · cases hr
    · exact candidates_known (h x rfl) hr

theorem matched_known (h : ∀ x, entityIndex = some x → Indexes u.naming x.index es)
    (useEmbeddings useFuzzy : Bool) {p : ι × ι}
    (hp : p ∈ matched u es useEmbeddings useFuzzy entityIndex) : Known es p := by
  unfold matched at hp
  simp only [List.mem_append] at hp
  rcases hp with ((hp | hp) | hp) | hp
  · obtain ⟨rule, -, hp⟩ := List.mem_flatMap.mp hp
    exact fieldPairs_known u rule hp
  · exact exact_names_known u hp
  · split_ifs at hp
    · exact embeddings_known u h hp
    · cases hp
  · split_ifs at hp
    · exact fuzzy_known u h hp
    · cases hp

end Known

end Uru.Extraction.MergeGroups
