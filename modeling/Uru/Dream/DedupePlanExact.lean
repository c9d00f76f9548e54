import Uru.Dream.DedupeClasses

/-!
# What the plan depends on

The plan is one function of the set of listed entities: the order of the listing
disappears in the sort of the entities, the order of the kernel in the sort of
the pairs. Its operations are the classes of the pairs that the kernel accepts.
-/

set_option autoImplicit false

namespace Uru.Dream.DedupePlan

open Uru.Storage Uru.Lib Relation

variable {S : Scoring}

section Scored

variable {names : List String} {embeddings : List Embedding} {threshold : ℚ}

theorem mem_rowCandidates {i j : ℕ} : j ∈ rowCandidates S names i ↔
    i < j ∧ j < names.length ∧
      ∃ k ∈ S.keys (names.getD i ""), k ∈ S.keys (names.getD j "") := by
  simp only [rowCandidates, inverted, List.mem_filter, List.mem_range, decide_eq_true_eq]
  constructor
  · rintro ⟨hj, hij, k, hk, _, hkj⟩
    exact ⟨hij, hj, k, hk, hkj⟩
  · rintro ⟨hij, hj, k, hk, hkj⟩
    exact ⟨hj, hij, k, hk, hj, hkj⟩

theorem mem_scored {i j : ℕ} {s : ℚ} :
    (i,j,s) ∈ blockAndScorePairs S embeddings names threshold ↔
      i < j ∧ j < names.length ∧
      (∃ k ∈ S.keys (names.getD i ""), k ∈ S.keys (names.getD j "")) ∧
      S.rounded threshold ≤ s ∧ s = S.dot (embeddings.getD i []) (embeddings.getD j []) := by
  simp only [blockAndScorePairs, List.mem_flatMap, List.mem_range, List.mem_filterMap]
  constructor
  · rintro ⟨i', hi, j', hj, hsome⟩
    split_ifs at hsome with hs
    cases hsome
    obtain ⟨hij, hjn, hk⟩ := mem_rowCandidates.mp hj
    exact ⟨hij, hjn, hk, hs, rfl⟩
  · rintro ⟨hij, hjn, hk, hs, rfl⟩
    have hi : i < names.length := hij.trans hjn
    exact ⟨i, hi, j, mem_rowCandidates.mpr ⟨hij, hjn, hk⟩, if_pos hs⟩

/-- The score of a pair is determined by its indices. -/
theorem scored_key {p q : Pair} (hp : p ∈ blockAndScorePairs S embeddings names threshold)
    (hq : q ∈ blockAndScorePairs S embeddings names threshold) (h : pairKey p = pairKey q) :
    p = q := by
  obtain ⟨i, j, s⟩ := p
  obtain ⟨i', j', s'⟩ := q
  have hij : i = i' ∧ j = j' := by simpa [pairKey] using h
  obtain ⟨rfl, rfl⟩ := hij
  rw [(mem_scored.mp hp).2.2.2.2, (mem_scored.mp hq).2.2.2.2]

/-- Two kernels give the planner the same pairs in the same order. -/
theorem sorted_pairs (K K' : Kernel S) (embeddings : List Embedding) (names : List String)
    (threshold : ℚ) : sortOn pairKey (K.pairs embeddings names threshold) =
      sortOn pairKey (K'.pairs embeddings names threshold) := by
  have hK := K.scored embeddings names threshold
  exact sortOn_congr (hK.trans (K'.scored embeddings names threshold).symm)
    (fun p hp q hq => scored_key (hK.mem_iff.mp hp) (hK.mem_iff.mp hq))

end Scored

section Listing

variable (fetched : Fetched)

theorem rejoin_id (f : UUID → Option (Option Embedding)) (e : Candidate) :
    (rejoin f e).id = e.id := by
  unfold rejoin
  split
  · rfl
  · split <;> rfl

theorem rejoin_ids (es : List Candidate) :
    (rejoinEmbeddings fetched es).map (fun e => e.id) = es.map (fun e => e.id) := by
  unfold rejoinEmbeddings
  cases fetched with
  | none => rfl
  | some f => simp [rejoin_id]

theorem rejoin_perm {es es' : List Candidate} (h : es.Perm es') :
    (rejoinEmbeddings fetched es).Perm (rejoinEmbeddings fetched es') := by
  unfold rejoinEmbeddings
  cases fetched with
  | none => exact h
  | some f => exact h.map _

theorem listed_ids (ns : Namespace) (n : ℕ) :
    ((ns.listEntities n).map (fun e => e.id)).Nodup :=
  ns.keys.sublist ((List.take_sublist n ns.entities).map _)

theorem same_of_id {es : List Candidate} (hids : (es.map (fun e => e.id)).Nodup) {a b : Candidate}
    (ha : a ∈ es) (hb : b ∈ es) (h : a.id = b.id) : a = b :=
  List.inj_on_of_nodup_map hids ha hb h

theorem same_of_sortKey {es : List Candidate} (hids : (es.map (fun e => e.id)).Nodup)
    (a : Candidate) (ha : a ∈ es) (b : Candidate) (hb : b ∈ es) (h : a.sortKey = b.sortKey) :
    a = b := by
  refine same_of_id hids ha hb ?_
  simpa [Candidate.sortKey] using congrArg (fun k => (ofLex (ofLex k).2).2) h

variable {listed : List Candidate} (hids : (listed.map (fun e => e.id)).Nodup)

include hids

theorem sortedEntities_ids : ((sortedEntities fetched listed).map (fun e => e.id)).Nodup := by
  unfold sortedEntities
  rw [((sortOn_perm _ _).map _).nodup_iff, rejoin_ids]
  exact hids

theorem sortedEntities_congr {listed' : List Candidate} (h : listed.Perm listed') :
    sortedEntities fetched listed = sortedEntities fetched listed' := by
  refine sortOn_congr (rejoin_perm fetched h) (same_of_sortKey ?_)
  rw [rejoin_ids]
  exact hids

theorem sortedEntities_lt :
    (sortedEntities fetched listed).Pairwise (fun a b => a.sortKey < b.sortKey) := by
  have hn := sortedEntities_ids fetched hids
  have hle := sortOn_pairwise Candidate.sortKey (rejoinEmbeddings fetched listed)
  refine (hle.and (List.pairwise_map.mp hn)).imp_of_mem (fun {a b} ha hb hab => ?_)
  exact lt_of_le_of_ne hab.1 (fun hk => hab.2
    (congrArg (fun e => e.id) (same_of_sortKey hn a ha b hb hk)))

end Listing

structure Accepted (S : Scoring) (cfg : Config) (entities : List Candidate) (a b : Candidate) :
    Prop where
  left : a ∈ entities
  right : b ∈ entities
  left_embedded : a.embedded
  right_embedded : b.embedded
  one_type : a.entityType = b.entityType
  before : a.sortKey < b.sortKey
  blocked : ∃ k ∈ S.keys a.name, k ∈ S.keys b.name
  similar : S.rounded (cfg.threshold a.entityType) ≤ S.dot a.vector b.vector

/-- The operations are the classes of the accepted pairs, no entity has a part in
two, and each carries the merge of its members. -/
structure PlanExact (S : Scoring) (cfg : Config) (entities : List Candidate)
    (ops : List DreamOp) : Prop where
  members : ∀ op ∈ ops, ∀ id ∈ op.memberIds, ∃ e ∈ entities, e.id = id
  classes : ∀ op ∈ ops, ∀ a ∈ entities, a.id ∈ op.memberIds → ∀ b ∈ entities,
    (b.id ∈ op.memberIds ↔ EqvGen (Accepted S cfg entities) a b)
  covered : ∀ a b, Accepted S cfg entities a b → ∃ op ∈ ops, a.id ∈ op.memberIds
  merges : ∀ op ∈ ops, op.dropIds ≠ []
  once : (ops.flatMap DreamOp.dropIds).Nodup
  survivors : ∀ op ∈ ops, ∀ op' ∈ ops, op.keepId ∉ op'.dropIds
  consolidates : ∀ op ∈ ops,
    Consolidates entities (fun e => e ∈ entities ∧ e.id ∈ op.memberIds) op

section Bucket

variable (K : Kernel S) (cfg : Config) {entities : List Candidate}
  (hids : (entities.map (fun e => e.id)).Nodup)
  (hsorted : entities.Pairwise (fun a b => a.sortKey < b.sortKey)) (entityType : String)

theorem mem_buckets {e : Candidate} : e ∈ buckets entities entityType ↔
    e ∈ entities ∧ e.embedded ∧ e.entityType = entityType := by
  simp [buckets, and_comm]

theorem buckets_sublist : (buckets entities entityType).Sublist entities :=
  List.filter_sublist.trans List.filter_sublist

theorem mem_edges {i j : ℕ} : (i,j) ∈ edges (bucketPairs K cfg entities entityType) ↔
    ∃ s, (i,j,s) ∈ blockAndScorePairs S ((buckets entities entityType).map Candidate.vector)
      ((buckets entities entityType).map (fun e => e.name)) (cfg.threshold entityType) := by
  simp only [edges, bucketPairs, List.mem_map, mem_sortOn, (K.scored _ _ _).mem_iff]
  constructor
  · rintro ⟨⟨a, b, s⟩, hs, hab⟩
    cases hab
    exact ⟨s, hs⟩
  · rintro ⟨s, hs⟩
    exact ⟨_, hs, rfl⟩

theorem edge_lt {i j : ℕ} (h : (i,j) ∈ edges (bucketPairs K cfg entities entityType)) :
    i < j ∧ j < (buckets entities entityType).length := by
  obtain ⟨s, hs⟩ := (mem_edges K cfg entityType).mp h
  obtain ⟨hij, hj, _⟩ := mem_scored.mp hs
  exact ⟨hij, by simpa using hj⟩

include hsorted

/-- An edge of a bucket is an accepted pair of its entities. -/
theorem edge_accepted {i j : ℕ} {a b : Candidate}
    (ha : (buckets entities entityType)[i]? = some a)
    (hb : (buckets entities entityType)[j]? = some b) :
    (i,j) ∈ edges (bucketPairs K cfg entities entityType) ↔ Accepted S cfg entities a b := by
  obtain ⟨hi, rfl⟩ := List.getElem?_eq_some_iff.mp ha
  obtain ⟨hj, rfl⟩ := List.getElem?_eq_some_iff.mp hb
  have hlt := List.pairwise_iff_getElem.mp (hsorted.sublist (buckets_sublist entityType))
  obtain ⟨hae, haemb, hat⟩ := (mem_buckets entityType).mp (List.getElem_mem hi)
  obtain ⟨hbe, hbemb, hbt⟩ := (mem_buckets entityType).mp (List.getElem_mem hj)
  have hij : i < j ↔ ((buckets entities entityType)[i]).sortKey <
      ((buckets entities entityType)[j]).sortKey := by
    refine ⟨hlt i j hi hj, fun h => ?_⟩
    rcases lt_trichotomy i j with hl | rfl | hg
    · exact hl
    · exact absurd h (lt_irrefl _)
    · exact absurd (h.trans (hlt j i hj hi hg)) (lt_irrefl _)
  have hthr : cfg.threshold ((buckets entities entityType)[i]).entityType =
      cfg.threshold entityType := congrArg cfg.threshold hat
  simp only [mem_edges, mem_scored, List.getD_eq_getElem?_getD, List.getElem?_map, ha, hb,
    Option.map_some, Option.getD_some, List.length_map, hij]
  constructor
  · rintro ⟨s, hl, _, hk, hs, rfl⟩
    exact ⟨hae, hbe, haemb, hbemb, hat.trans hbt.symm, hl, hk, hthr ▸ hs⟩
  · intro h
    exact ⟨_, h.before, hj, h.blocked, hthr ▸ h.similar, rfl⟩

omit hsorted in
include hids in
theorem buckets_ids : ((buckets entities entityType).map (fun e => e.id)).Nodup :=
  hids.sublist ((buckets_sublist entityType).map _)

/-- Joined indices carry entities of one class. -/
theorem joined_accepted {i j : ℕ} (h : Joined (bucketPairs K cfg entities entityType) i j)
    (d : Candidate) : EqvGen (Accepted S cfg entities)
      ((buckets entities entityType)[i]?.getD d) ((buckets entities entityType)[j]?.getD d) := by
  induction h with
  | rel i j hij =>
    obtain ⟨hlt, hj⟩ := edge_lt K cfg entityType hij
    have ha := List.getElem?_eq_getElem (hlt.trans hj)
    have hb := List.getElem?_eq_getElem hj
    rw [ha, hb]
    exact .rel _ _ ((edge_accepted K cfg hsorted entityType ha hb).mp hij)
  | refl i => exact .refl _
  | symm i j _ ih => exact ih.symm
  | trans i j k _ _ hij hjk => exact hij.trans _ _ _ hjk

/-- Entities of one class stand at joined indices. An entity outside the bucket
has the index past its end. -/
theorem accepted_joined {a b : Candidate} (h : EqvGen (Accepted S cfg entities) a b) :
    Joined (bucketPairs K cfg entities entityType) ((buckets entities entityType).idxOf a)
      ((buckets entities entityType).idxOf b) := by
  induction h with
  | rel a b hab =>
    by_cases ht : a.entityType = entityType
    · have ha := (mem_buckets entityType).mpr ⟨hab.left, hab.left_embedded, ht⟩
      have hb := (mem_buckets entityType).mpr
        ⟨hab.right, hab.right_embedded, hab.one_type.symm.trans ht⟩
      exact .rel _ _ ((edge_accepted K cfg hsorted entityType
        (List.getElem?_idxOf ha) (List.getElem?_idxOf hb)).mpr hab)
    · have ha : a ∉ buckets entities entityType := fun h =>
        ht ((mem_buckets entityType).mp h).2.2
      have hb : b ∉ buckets entities entityType := fun h =>
        ht (hab.one_type.trans ((mem_buckets entityType).mp h).2.2)
      rw [List.idxOf_eq_length ha, List.idxOf_eq_length hb]
      exact .refl _
  | refl a => exact .refl _
  | symm a b _ ih => exact ih.symm
  | trans a b c _ _ hab hbc => exact hab.trans _ _ _ hbc

end Bucket

section Operations

variable (K : Kernel S) (cfg : Config) {entities : List Candidate} (entityType : String)

def idsAt (bucket : List Candidate) (c : List ℕ) : List UUID :=
  c.filterMap (fun i => bucket[i]?.map (fun e => e.id))

theorem mem_idsAt {bucket : List Candidate} {c : List ℕ} {x : UUID} :
    x ∈ idsAt bucket c ↔ ∃ i ∈ c, ∃ e, bucket[i]? = some e ∧ e.id = x := by
  simp [idsAt]

theorem index_of_id {bucket : List Candidate} (hids : (bucket.map (fun e => e.id)).Nodup)
    {i j : ℕ} {a b : Candidate} (ha : bucket[i]? = some a) (hb : bucket[j]? = some b)
    (h : a.id = b.id) : i = j := by
  obtain ⟨hi, rfl⟩ := List.getElem?_eq_some_iff.mp ha
  obtain ⟨hj, rfl⟩ := List.getElem?_eq_some_iff.mp hb
  have hlen : ∀ k, k < bucket.length → k < (bucket.map (fun e => e.id)).length := fun k hk => by
    rwa [List.length_map]
  have hsame : (⟨i, hlen i hi⟩ : Fin _) = ⟨j, hlen j hj⟩ :=
    List.nodup_iff_injective_get.mp hids (by simpa using h)
  exact congrArg Fin.val hsame

theorem idsAt_nodup {bucket : List Candidate} (hids : (bucket.map (fun e => e.id)).Nodup)
    {c : List ℕ} (hc : c.Nodup) : (idsAt bucket c).Nodup := by
  refine hc.filterMap (fun i j x hi hj => ?_)
  obtain ⟨a, ha, rfl⟩ := Option.map_eq_some_iff.mp hi
  obtain ⟨b, hb, hab⟩ := Option.map_eq_some_iff.mp hj
  exact index_of_id hids ha hb hab.symm

/-- A component becomes one operation on its members. -/
theorem componentOp_some {pairs : List Pair} {c : List ℕ}
    (hall : (entities.map (fun e => e.id)).Nodup) (hc : c.Nodup)
    (hne : ∃ i ∈ c, i < (buckets entities entityType).length) :
    ∃ op, componentOp cfg entities entityType pairs c = some op ∧
      op.memberIds.Perm (idsAt (buckets entities entityType) c) ∧
      Consolidates entities (fun e => e ∈ entities ∧ e.id ∈ op.memberIds) op := by
  have hids := buckets_ids hall entityType
  have hat : idsAt (buckets entities entityType) c =
      (c.filterMap (fun i => (buckets entities entityType)[i]?)).map (fun e => e.id) := by
    rw [List.map_filterMap]
    rfl
  have hn := idsAt_nodup hids hc
  unfold componentOp
  cases hm : c.filterMap (fun i => (buckets entities entityType)[i]?) with
  | nil =>
    obtain ⟨i, hi, hlt⟩ := hne
    have hmem : (buckets entities entityType)[i] ∈
        c.filterMap (fun i => (buckets entities entityType)[i]?) :=
      List.mem_filterMap.mpr ⟨i, hi, List.getElem?_eq_getElem hlt⟩
    rw [hm] at hmem
    cases hmem
  | cons head rest =>
    rw [hat, hm] at hn ⊢
    have hperm := componentOp_members entityType (cfg.threshold entityType) head rest c
      (bestPairScores pairs) entities hn
    have hmem : ∀ e ∈ head::rest, e ∈ entities ∧ e.entityType = entityType := by
      intro e he
      rw [← hm] at he
      obtain ⟨i, -, he⟩ := List.mem_filterMap.mp he
      obtain ⟨he, -, ht⟩ := (mem_buckets entityType).mp (List.mem_of_getElem? he)
      exact ⟨he, ht⟩
    have hsame : (fun e => e ∈ entities ∧ e.id ∈ (buildComponentOp entityType
        (cfg.threshold entityType) head rest c (bestPairScores pairs) entities).memberIds) =
          (· ∈ head::rest) := by
      funext e
      refine propext ⟨fun ⟨he, hid⟩ => ?_, fun he => ⟨(hmem e he).1,
        hperm.mem_iff.mpr (List.mem_map_of_mem he)⟩⟩
      obtain ⟨m, hm, heq⟩ := List.mem_map.mp (hperm.mem_iff.mp hid)
      exact same_of_id hall (hmem m hm).1 he heq ▸ hm
    refine ⟨_, rfl, hperm, ?_⟩
    rw [hsame]
    exact componentOp_consolidates entityType _ head rest c _ hall hmem

variable (hids : (entities.map (fun e => e.id)).Nodup)
  (hsorted : entities.Pairwise (fun a b => a.sortKey < b.sortKey))

theorem touched_lt {i : ℕ} (h : i ∈ touched (bucketPairs K cfg entities entityType)) :
    i < (buckets entities entityType).length := by
  obtain ⟨⟨j, k⟩, he, hi⟩ := mem_touched.mp h
  obtain ⟨hjk, hk⟩ := edge_lt K cfg entityType he
  rcases hi with rfl | rfl
  · exact hjk.trans hk
  · exact hk

theorem component_nodup {pairs : List Pair} {c : List ℕ} (hc : c ∈ connectedComponents pairs) :
    c.Nodup :=
  (List.nodup_flatten.mp (components_nodup pairs)).1 c hc

include hids

theorem component_of_op {c : List ℕ}
    (hc : c ∈ connectedComponents (bucketPairs K cfg entities entityType)) :
    ∃ op, componentOp cfg entities entityType (bucketPairs K cfg entities entityType) c =
        some op ∧ op.memberIds.Perm (idsAt (buckets entities entityType) c) ∧
      Consolidates entities (fun e => e ∈ entities ∧ e.id ∈ op.memberIds) op := by
  obtain ⟨i, hi⟩ := List.exists_mem_of_ne_nil c (component_nonempty hc)
  exact componentOp_some cfg entityType hids (component_nodup hc)
    ⟨i, hi, touched_lt K cfg entityType (component_touched hc hi)⟩

/-- The operations of a bucket are those of its components. -/
theorem mem_bucketOps {op : DreamOp} (h : op ∈ bucketOps K cfg entities entityType) :
    Consolidates entities (fun e => e ∈ entities ∧ e.id ∈ op.memberIds) op ∧
    ∃ c ∈ connectedComponents (bucketPairs K cfg entities entityType),
      op.memberIds.Perm (idsAt (buckets entities entityType) c) := by
  unfold bucketOps at h
  split_ifs at h
  · cases h
  · obtain ⟨c, hc, hop⟩ := List.mem_filterMap.mp h
    obtain ⟨op', hop', hperm, hcons⟩ := component_of_op K cfg entityType hids hc
    rw [hop'] at hop
    cases hop
    exact ⟨hcons, c, hc, hperm⟩

theorem bucketOps_covers {i : ℕ}
    (h : i ∈ touched (bucketPairs K cfg entities entityType)) :
    ∃ op ∈ bucketOps K cfg entities entityType, ∀ e,
      (buckets entities entityType)[i]? = some e → e.id ∈ op.memberIds := by
  obtain ⟨c, hc, hi⟩ := component_exists h
  obtain ⟨op, hop, hperm, -⟩ := component_of_op K cfg entityType hids hc
  obtain ⟨⟨j, k⟩, he, _⟩ := mem_touched.mp h
  obtain ⟨hjk, hk⟩ := edge_lt K cfg entityType he
  refine ⟨op, ?_, fun e he => hperm.mem_iff.mpr (mem_idsAt.mpr ⟨i, hi, e, he, rfl⟩)⟩
  unfold bucketOps
  rw [if_neg (by omega)]
  exact List.mem_filterMap.mpr ⟨c, hc, hop⟩

theorem bucketOps_nodup :
    ((bucketOps K cfg entities entityType).flatMap DreamOp.memberIds).Nodup := by
  have hperm : ∀ cs : List (List ℕ),
      (∀ c ∈ cs, c ∈ connectedComponents (bucketPairs K cfg entities entityType)) →
      ((cs.filterMap (componentOp cfg entities entityType
        (bucketPairs K cfg entities entityType))).flatMap DreamOp.memberIds).Perm
          (idsAt (buckets entities entityType) cs.flatten) := by
    intro cs hcs
    induction cs with
    | nil => exact .nil
    | cons c cs ih =>
      obtain ⟨op, hop, hp, -⟩ := component_of_op K cfg entityType hids (hcs c List.mem_cons_self)
      have happ : idsAt (buckets entities entityType) (c::cs).flatten =
          idsAt (buckets entities entityType) c++
            idsAt (buckets entities entityType) cs.flatten := by
        rw [List.flatten_cons]
        exact List.filterMap_append
      rw [List.filterMap_cons_some hop, List.flatMap_cons, happ]
      exact hp.append (ih (fun d hd => hcs d (List.mem_cons_of_mem _ hd)))
  unfold bucketOps
  split_ifs
  · exact List.nodup_nil
  · exact (hperm _ (fun c hc => hc)).nodup_iff.mpr
      (idsAt_nodup (buckets_ids hids entityType) (components_nodup _))

/-- The entities that an operation of a bucket names. -/
theorem member_of_bucket {op : DreamOp} (h : op ∈ bucketOps K cfg entities entityType)
    {id : UUID} (hid : id ∈ op.memberIds) :
    ∃ e ∈ entities, e.entityType = entityType ∧ e.id = id := by
  obtain ⟨-, c, _, hperm⟩ := mem_bucketOps K cfg entityType hids h
  obtain ⟨i, _, e, he, rfl⟩ := mem_idsAt.mp (hperm.mem_iff.mp hid)
  obtain ⟨hmem, _, ht⟩ := (mem_buckets entityType).mp (List.mem_of_getElem? he)
  exact ⟨e, hmem, ht, rfl⟩

theorem bucketOps_merges {op : DreamOp} (h : op ∈ bucketOps K cfg entities entityType) :
    op.dropIds ≠ [] := by
  obtain ⟨-, c, hc, hperm⟩ := mem_bucketOps K cfg entityType hids h
  obtain ⟨i, hi⟩ := List.exists_mem_of_ne_nil c (component_nonempty hc)
  obtain ⟨⟨j, k⟩, he, hijk⟩ := mem_touched.mp (component_touched hc hi)
  obtain ⟨hjk, hk⟩ := edge_lt K cfg entityType he
  have hjoin : Joined (bucketPairs K cfg entities entityType) j k := .rel _ _ he
  have hboth : j ∈ c ∧ k ∈ c := by
    rcases hijk with rfl | rfl
    · exact ⟨hi, (component_joined hc hi).mpr hjoin⟩
    · exact ⟨(component_joined hc hi).mpr hjoin.symm, hi⟩
  have ha := List.getElem?_eq_getElem (hjk.trans hk)
  have hb := List.getElem?_eq_getElem hk
  have hmem : ∀ x ∈ idsAt (buckets entities entityType) c, x ∈ op.memberIds := fun x hx =>
    hperm.mem_iff.mpr hx
  have hja := hmem _ (mem_idsAt.mpr ⟨j, hboth.1, _, ha, rfl⟩)
  have hkb := hmem _ (mem_idsAt.mpr ⟨k, hboth.2, _, hb, rfl⟩)
  intro hnil
  rw [DreamOp.memberIds, hnil, List.mem_singleton] at hja hkb
  exact hjk.ne (index_of_id (buckets_ids hids entityType) ha hb (hja.trans hkb.symm))

include hsorted

/-- The members of an operation are one class of the accepted pairs. -/
theorem bucketOps_class {op : DreamOp} (h : op ∈ bucketOps K cfg entities entityType)
    {a b : Candidate} (ha : a ∈ entities) (haid : a.id ∈ op.memberIds) (hb : b ∈ entities) :
    b.id ∈ op.memberIds ↔ EqvGen (Accepted S cfg entities) a b := by
  obtain ⟨-, c, hc, hperm⟩ := mem_bucketOps K cfg entityType hids h
  have hfound : ∀ {e : Candidate}, e ∈ entities → e.id ∈ op.memberIds →
      ∃ i ∈ c, (buckets entities entityType)[i]? = some e := by
    intro e he hid
    obtain ⟨i, hi, e', he', hsame⟩ := mem_idsAt.mp (hperm.mem_iff.mp hid)
    have hmem := ((mem_buckets entityType).mp (List.mem_of_getElem? he')).1
    exact ⟨i, hi, same_of_id hids hmem he hsame ▸ he'⟩
  obtain ⟨i, hi, hai⟩ := hfound ha haid
  constructor
  · intro hbid
    obtain ⟨j, hj, hbj⟩ := hfound hb hbid
    have hij := joined_accepted K cfg hsorted entityType ((component_joined hc hi).mp hj) a
    rwa [hai, hbj] at hij
  · intro hab
    have hjoin := accepted_joined K cfg hsorted entityType hab
    have hamem : a ∈ buckets entities entityType := List.mem_of_getElem? hai
    have hia : i = (buckets entities entityType).idxOf a := index_of_id
      (buckets_ids hids entityType) hai (List.getElem?_idxOf hamem) rfl
    have hj := (component_joined hc hi).mpr (hia ▸ hjoin)
    have hbmem : b ∈ buckets entities entityType :=
      List.idxOf_lt_length_iff.mp (touched_lt K cfg entityType (component_touched hc hj))
    exact hperm.mem_iff.mpr (mem_idsAt.mpr ⟨_, hj, b, List.getElem?_idxOf hbmem, rfl⟩)

end Operations

section Plan

variable (K : Kernel S) (cfg : Config) {entities : List Candidate}
  (hids : (entities.map (fun e => e.id)).Nodup)
  (hsorted : entities.Pairwise (fun a b => a.sortKey < b.sortKey))

def plannedOps (entities : List Candidate) : List DreamOp :=
  (entityTypes entities).flatMap (bucketOps K cfg entities)

theorem entityTypes_nodup (entities : List Candidate) : (entityTypes entities).Nodup :=
  (sortOn_perm id _).nodup_iff.mpr (List.nodup_dedup _)

include hids

theorem plannedOps_nodup : ((plannedOps K cfg entities).flatMap DreamOp.memberIds).Nodup := by
  rw [plannedOps, List.flatMap_assoc, List.nodup_flatMap]
  refine ⟨fun t _ => bucketOps_nodup K cfg t hids, ?_⟩
  refine (entityTypes_nodup entities).imp (fun {t t'} htt x hx hx' => htt ?_)
  obtain ⟨op, hop, hxop⟩ := List.mem_flatMap.mp hx
  obtain ⟨op', hop', hxop'⟩ := List.mem_flatMap.mp hx'
  obtain ⟨e, he, hte, hex⟩ := member_of_bucket K cfg t hids hop hxop
  obtain ⟨e', he', hte', hex'⟩ := member_of_bucket K cfg t' hids hop' hxop'
  rw [← hte, ← hte', same_of_id hids he he' (hex.trans hex'.symm)]

include hsorted

theorem plannedOps_exact : PlanExact S cfg entities (plannedOps K cfg entities) := by
  have hnodup := List.nodup_flatMap.mp (plannedOps_nodup K cfg hids)
  constructor
  case members =>
    intro op hop id hid
    obtain ⟨t, _, ht⟩ := List.mem_flatMap.mp hop
    obtain ⟨e, he, _, hid⟩ := member_of_bucket K cfg t hids ht hid
    exact ⟨e, he, hid⟩
  case classes =>
    intro op hop a ha haid b hb
    obtain ⟨t, _, ht⟩ := List.mem_flatMap.mp hop
    exact bucketOps_class K cfg t hids hsorted ht ha haid hb
  case covered =>
    intro a b hab
    have ha := (mem_buckets a.entityType).mpr ⟨hab.left, hab.left_embedded, rfl⟩
    have hb := (mem_buckets a.entityType).mpr
      ⟨hab.right, hab.right_embedded, hab.one_type.symm⟩
    have hedge := (edge_accepted K cfg hsorted a.entityType (List.getElem?_idxOf ha)
      (List.getElem?_idxOf hb)).mpr hab
    obtain ⟨op, hop, hnamed⟩ := bucketOps_covers K cfg a.entityType hids
      (mem_touched.mpr ⟨_, hedge, .inl rfl⟩)
    have ht : a.entityType ∈ entityTypes entities := mem_sortOn.mpr (List.mem_dedup.mpr
      (List.mem_map.mpr ⟨a, List.mem_filter.mpr ⟨hab.left, hab.left_embedded⟩, rfl⟩))
    exact ⟨op, List.mem_flatMap.mpr ⟨_, ht, hop⟩, hnamed a (List.getElem?_idxOf ha)⟩
  case merges =>
    intro op hop
    obtain ⟨t, _, ht⟩ := List.mem_flatMap.mp hop
    exact bucketOps_merges K cfg t hids ht
  case once =>
    refine List.nodup_flatMap.mpr ⟨fun op hop => (List.nodup_cons.mp (hnodup.1 op hop)).2, ?_⟩
    exact hnodup.2.imp (fun {op op'} h x hx hx' =>
      h (List.mem_cons_of_mem _ hx) (List.mem_cons_of_mem _ hx'))
  case survivors =>
    intro op hop op' hop' hkeep
    by_cases heq : op = op'
    · subst heq
      exact (List.nodup_cons.mp (hnodup.1 op hop)).1 hkeep
    · have hsymm : Std.Symm (Function.onFun List.Disjoint DreamOp.memberIds) :=
        ⟨fun _ _ h => h.symm⟩
      have hdis := hnodup.2.forall hop hop' heq
      exact hdis List.mem_cons_self (List.mem_cons_of_mem _ hkeep)
  case consolidates =>
    intro op hop
    obtain ⟨t, _, ht⟩ := List.mem_flatMap.mp hop
    exact (mem_bucketOps K cfg t hids ht).1

end Plan

section Candidates

theorem Accepted.of_mem {cfg : Config} {es es' : List Candidate} (hmem : ∀ e, e ∈ es → e ∈ es')
    {a b : Candidate} (h : Accepted S cfg es a b) : Accepted S cfg es' a b :=
  { h with left := hmem a h.left, right := hmem b h.right }

theorem Consolidates.of_mem {es es' : List Candidate} (hmem : ∀ e, e ∈ es ↔ e ∈ es') {op : DreamOp}
    (h : Consolidates es (fun e => e ∈ es ∧ e.id ∈ op.memberIds) op) :
    Consolidates es' (fun e => e ∈ es' ∧ e.id ∈ op.memberIds) op := by
  simp only [hmem] at h
  refine ⟨h.survivor, h.reviewed.trans ?_, h.absorbs⟩
  exact exists_congr (fun e => and_congr_left (fun _ => hmem e))

theorem PlanExact.of_mem {cfg : Config} {es es' : List Candidate} (hmem : ∀ e, e ∈ es ↔ e ∈ es')
    {ops : List DreamOp} (h : PlanExact S cfg es ops) : PlanExact S cfg es' ops := by
  have hacc : Accepted S cfg es = Accepted S cfg es' := funext (fun a => funext (fun b =>
    propext ⟨.of_mem (fun e => (hmem e).mp), .of_mem (fun e => (hmem e).mpr)⟩))
  constructor
  case members =>
    intro op hop id hid
    obtain ⟨e, he, heid⟩ := h.members op hop id hid
    exact ⟨e, (hmem e).mp he, heid⟩
  case classes =>
    intro op hop a ha haid b hb
    rw [← hacc]
    exact h.classes op hop a ((hmem a).mpr ha) haid b ((hmem b).mpr hb)
  case covered =>
    intro a b hab
    exact h.covered a b (hacc ▸ hab)
  case merges => exact h.merges
  case once => exact h.once
  case survivors => exact h.survivors
  case consolidates => exact fun op hop => (h.consolidates op hop).of_mem hmem

/-- Every operation that is not for review is handed to the handler. -/
theorem PlanExact.handed {cfg : Config} {es : List Candidate} {ops : List DreamOp}
    (h : PlanExact S cfg es ops) {op : DreamOp} (hop : op ∈ ops) (opId : UUID) {s : ℚ}
    {merges : List MergeEntry} (hplan : op.decision = .planned s merges) :
    ∃ d, op.handed opId = some d ∧ d.canonicalId = op.keepId ∧ d.merges = merges := by
  obtain ⟨hdrop, habs⟩ := (h.consolidates op hop).absorbs s merges hplan
  have hnodup : op.dropIds.Nodup := (List.nodup_flatMap.mp h.once).1 op hop
  have hkeep := h.survivors op hop op hop
  rw [DreamOp.handed, hplan]
  exact ⟨_, dif_pos ⟨fun m hm => (habs m hm).canonicalId, hdrop ▸ hnodup, hdrop ▸ hkeep⟩, rfl, rfl⟩

/-- Whatever order the store lists the same candidates in and whatever order the
kernel scores their pairs in, the plan is the same, and its operations are the
classes of the accepted pairs. -/
theorem plan_of_candidates (K K' : Kernel S) (cfg : Config) (fetched : Fetched)
    (ns ns' : Namespace) (h : (ns.listEntities limit).Perm (ns'.listEntities limit)) :
    plan K cfg fetched (ns.listEntities limit) = plan K' cfg fetched (ns'.listEntities limit) ∧
      PlanExact S cfg (rejoinEmbeddings fetched (ns.listEntities limit))
        (plan K cfg fetched (ns.listEntities limit)) := by
  have hids := listed_ids ns limit
  have hops : bucketOps K = bucketOps K' := by
    funext cfg entities entityType
    simp only [bucketOps, bucketPairs, sorted_pairs K K']
  constructor
  · simp only [plan, sortedEntities_congr fetched hids h, hops]
  · exact (plannedOps_exact K cfg (sortedEntities_ids fetched hids)
      (sortedEntities_lt fetched hids)).of_mem (fun e => mem_sortOn)

end Candidates

/-! Two spellings of one name, listed in both orders, and a kernel that runs
backwards. -/

namespace Spellings

def scoring : Scoring where
  keys := namePrefixKeys Char.isAlphanum (fun c => String.singleton c.toLower)
  dot := fun a b => (List.zipWith (· * ·) a b).sum
  rounded := id

def forward : Kernel scoring := ⟨blockAndScorePairs scoring, fun _ _ _ => .rfl⟩

def backward : Kernel scoring :=
  ⟨fun es ns t => (blockAndScorePairs scoring es ns t).reverse, fun _ _ _ => List.reverse_perm _⟩

def spelled (id : UUID) (name : String) (embedding : Embedding) : Candidate :=
  { id := id
    name := name
    sourceDocumentIds := [id]
    sourceChunkIds := []
    mentionCount := 1
    confidence := 1
    validUntil := none
    createdAt := 0
    updatedAt := 0
    columns := []
    entityType := "PERSON"
    embedding := some embedding }

def listed : Namespace where
  entities := [spelled 1 "Ada Lovelace" [1,0], spelled 2 "ada" [1,0]]
  keys := by decide

def relisted : Namespace where
  entities := [spelled 2 "ada" [1,0], spelled 1 "Ada Lovelace" [1,0]]
  keys := by decide

def config : Config := ⟨9/10, []⟩

theorem plan_of_spellings : (listed.listEntities limit).Perm (relisted.listEntities limit) ∧
    plan forward config none (listed.listEntities limit) =
        plan backward config none (relisted.listEntities limit) ∧
      PlanExact scoring config (rejoinEmbeddings none (listed.listEntities limit))
        (plan forward config none (listed.listEntities limit)) :=
  ⟨.swap _ _ [], plan_of_candidates forward backward config none listed relisted (.swap _ _ [])⟩

end Spellings

end Uru.Dream.DedupePlan
