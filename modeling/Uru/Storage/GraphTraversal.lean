import Mathlib.Data.Set.Card
import Mathlib.Tactic
import Uru.Lib.SortOn
import Uru.Lib.Walks

/-!
# Traversal of the embedded graph

Neighborhoods and paths are read off one recursive query: a row is a walk so
far, and a recursive arm adds a relationship that the walk has not used. The
rows are taken level by level, so that the whole query is their union. The
relationships are gated in the query, the entities only when they are fetched,
and the two lists of a neighborhood are cut to the limit one by one, each in
the order in which its set is listed.
-/

set_option autoImplicit false

namespace Uru.Storage.GraphTraversal
open Uru.Lib

structure Entity where
  id : ℕ
  namespaceId : ℕ
  validUntil : Option ℤ
deriving DecidableEq

structure Relationship where
  id : ℕ
  namespaceId : ℕ
  sourceEntityId : ℕ
  targetEntityId : ℕ
  relationshipType : String
  validTo : Option ℤ
  invalidatedAt : Option ℤ
  validUntil : Option ℤ
deriving DecidableEq

structure Store where
  entities : List Entity
  relationships : List Relationship
  entity_ids : (entities.map Entity.id).Nodup
  relationship_ids : (relationships.map Relationship.id).Nodup

def entityLive (datetime : ℤ → ℤ) (now : ℤ) (e : Entity) : Bool :=
  e.validUntil.all (fun t => datetime t > datetime now)

def relationshipLive (datetime : ℤ → ℤ) (now : ℤ) (r : Relationship) : Bool :=
  r.validTo.isNone && r.invalidatedAt.isNone &&
    r.validUntil.all (fun t => datetime t > datetime now)

structure Query where
  namespaceId : ℕ
  relationshipTypes : List String
  preferCurrent : Bool
  now : ℤ

section Traversal

variable (datetime : ℤ → ℤ)

def allowed (q : Query) (r : Relationship) : Bool :=
  r.namespaceId = q.namespaceId ∧
    (q.relationshipTypes = [] ∨ r.relationshipType ∈ q.relationshipTypes) ∧
    (q.preferCurrent → relationshipLive datetime q.now r)

/-- A row of the recursive query; `edge_ids` of a path is the same list as
`visited`. -/
structure WalkRow where
  seed : ℕ
  cur : ℕ
  depth : ℕ
  edgeId : ℕ
  visited : List ℕ
deriving DecidableEq

abbrev Arm := Relationship → ℕ × ℕ

def out : Arm := fun r => (r.sourceEntityId,r.targetEntityId)

def inward : Arm := fun r => (r.targetEntityId,r.sourceEntityId)

variable (store : Store) (q : Query) (arms : List Arm)

def anchor (starts : List ℕ) : List WalkRow :=
  arms.flatMap (fun arm => (store.relationships.filter
    (fun r => (arm r).1 ∈ starts ∧ allowed datetime q r = true)).map
      (fun r => ⟨(arm r).1,(arm r).2,1,r.id,[r.id]⟩))

def extend (maxDepth : ℕ) (row : WalkRow) : List WalkRow :=
  arms.flatMap (fun arm => (store.relationships.filter
    (fun r => (arm r).1 = row.cur ∧ row.depth < maxDepth ∧ allowed datetime q r = true ∧
      r.id ∉ row.visited)).map
      (fun r => ⟨row.seed,(arm r).2,row.depth+1,r.id,row.visited++[r.id]⟩))

def level (starts : List ℕ) (maxDepth : ℕ) : ℕ → List WalkRow
  | 0 => anchor datetime store q arms starts
  | n+1 => (level starts maxDepth n).flatMap (extend datetime store q arms maxDepth)

def walk (starts : List ℕ) (maxDepth : ℕ) : List WalkRow :=
  (List.range maxDepth).flatMap (level datetime store q arms starts maxDepth)

end Traversal

section Traversal

variable (datetime : ℤ → ℤ) (store : Store) (q : Query)

structure PathEdge where
  id : ℕ
  sourceEntityId : ℕ
  targetEntityId : ℕ
  relationshipType : String
deriving DecidableEq

def Relationship.data (r : Relationship) : PathEdge :=
  ⟨r.id,r.sourceEntityId,r.targetEntityId,r.relationshipType⟩

/-- Depth is clamped to 1–8. A path is given up at an edge that is not found. -/
def findPaths (sourceEntityId targetEntityId : ℕ) (maxDepth : ℤ) : List (List PathEdge) :=
  let effectiveMax := (max 1 (min maxDepth 8)).toNat
  let rows := sortOn WalkRow.depth ((walk datetime store q [out] [sourceEntityId]
    effectiveMax).filter (fun row => row.cur = targetEntityId))
  rows.filterMap (fun row => row.visited.mapM (fun eid =>
    (store.relationships.find? (fun r => r.id = eid)).map Relationship.data))

structure Neighborhood where
  entities : List Entity
  relationships : List Relationship
deriving DecidableEq

structure SetOrder where
  list : List ℕ → List ℕ
  perm : ∀ l, (list l).Perm l.dedup

variable (entsOrder edgesOrder : SetOrder)

/-- Depth is clamped to 1–6. -/
def getNeighborhoodsBatch (entity_ids : List ℕ) (depth : ℤ) (limitPerEntity : ℕ) :
    List (ℕ × Neighborhood) :=
  let effectiveDepth := (max 1 (min depth 6)).toNat
  let walkRows := walk datetime store q [out,inward] entity_ids effectiveDepth
  let neededEntities := walkRows.map WalkRow.cur
  let neededEdges := walkRows.map WalkRow.edgeId
  let fetchedEntities := store.entities.filter (fun e => e.id ∈ neededEntities ∧
    e.namespaceId = q.namespaceId ∧ (q.preferCurrent → entityLive datetime q.now e))
  let fetchedRelationships := store.relationships.filter (fun r => r.id ∈ neededEdges ∧
    r.namespaceId = q.namespaceId)
  entity_ids.map (fun eid =>
    let bucket := walkRows.filter (fun row => row.seed = eid)
    let ents := entsOrder.list (bucket.map WalkRow.cur)
    let edges := edgesOrder.list (bucket.map WalkRow.edgeId)
    (eid,
      { entities := (ents.filterMap (fun x =>
          fetchedEntities.find? (fun e => e.id = x))).take limitPerEntity
        relationships := (edges.filterMap (fun x =>
          fetchedRelationships.find? (fun r => r.id = x))).take limitPerEntity }))

end Traversal

section Rows

variable (datetime : ℤ → ℤ) (store : Store) (q : Query) (arms : List Arm)

/-- A relationship that the arms take from one entity to another. -/
def Hop (r : Relationship) (u v : ℕ) : Prop :=
  r ∈ store.relationships ∧ allowed datetime q r = true ∧ ∃ arm ∈ arms, arm r = (u,v)

/-- The walk that a row stands for, its last relationship apart. -/
structure Follows (starts : List ℕ) (es : List Relationship) (r : Relationship)
    (row : WalkRow) : Prop where
  seed_mem : row.seed ∈ starts
  walks : Walk (Hop datetime store q arms) row.seed (es++[r]) row.cur
  fresh : ((es++[r]).map Relationship.id).Nodup
  depth_eq : row.depth = es.length+1
  edge_eq : row.edgeId = r.id
  visited_eq : row.visited = (es++[r]).map Relationship.id

variable {datetime store q arms} {starts : List ℕ} {maxDepth : ℕ} {row : WalkRow}

theorem mem_anchor : row ∈ anchor datetime store q arms starts ↔
    ∃ r, Follows datetime store q arms starts [] r row := by
  simp only [anchor, List.mem_flatMap, List.mem_map, List.mem_filter, decide_eq_true_eq]
  constructor
  · rintro ⟨arm, harm, r, ⟨hr, hstart, hok⟩, rfl⟩
    exact ⟨r, hstart, walk_singleton.mpr ⟨hr, hok, arm, harm, rfl⟩, by simp, rfl, rfl, rfl⟩
  · rintro ⟨r, hseed, hwalk, -, hdepth, hedge, hvisited⟩
    obtain ⟨hr, hok, arm, harm, heq⟩ := walk_singleton.mp hwalk
    refine ⟨arm, harm, r, ⟨hr, by rwa [heq], hok⟩, ?_⟩
    obtain ⟨seed, cur, depth, edgeId, visited⟩ := row
    simp only at *
    rw [heq, hdepth, hedge, hvisited]
    rfl

theorem mem_extend {prev : WalkRow} : row ∈ extend datetime store q arms maxDepth prev ↔
    prev.depth < maxDepth ∧ ∃ r, Hop datetime store q arms r prev.cur row.cur ∧
      r.id ∉ prev.visited ∧ row.seed = prev.seed ∧ row.depth = prev.depth+1 ∧
      row.edgeId = r.id ∧ row.visited = prev.visited++[r.id] := by
  simp only [extend, List.mem_flatMap, List.mem_map, List.mem_filter, decide_eq_true_eq]
  constructor
  · rintro ⟨arm, harm, r, ⟨hr, hcur, hlt, hok, hfresh⟩, rfl⟩
    exact ⟨hlt, r, ⟨hr, hok, arm, harm, by rw [← hcur]⟩, hfresh, rfl, rfl, rfl, rfl⟩
  · rintro ⟨hlt, r, ⟨hr, hok, arm, harm, heq⟩, hfresh, hseed, hdepth, hedge, hvisited⟩
    refine ⟨arm, harm, r, ⟨hr, by rw [heq], hlt, hok, hfresh⟩, ?_⟩
    obtain ⟨seed, cur, depth, edgeId, visited⟩ := row
    simp only at *
    rw [heq, hseed, hdepth, hedge, hvisited]

theorem ids_concat {es : List Relationship} {r : Relationship} :
    ((es++[r]).map Relationship.id).Nodup ↔
      (es.map Relationship.id).Nodup ∧ r.id ∉ es.map Relationship.id := by
  rw [List.map_append, List.map_singleton, ← List.concat_eq_append, List.nodup_concat]
  tauto

theorem mem_level {n : ℕ} (hn : n < maxDepth) :
    row ∈ level datetime store q arms starts maxDepth n ↔
      ∃ es r, es.length = n ∧ Follows datetime store q arms starts es r row := by
  induction n generalizing row with
  | zero =>
    rw [level, mem_anchor]
    constructor
    · rintro ⟨r, h⟩
      exact ⟨[], r, rfl, h⟩
    · rintro ⟨es, r, hlen, h⟩
      rw [List.length_eq_zero_iff.mp hlen] at h
      exact ⟨r, h⟩
  | succ n ih =>
    simp only [level, List.mem_flatMap, ih (Nat.lt_of_succ_lt hn), mem_extend]
    constructor
    · rintro ⟨prev, ⟨es, r, hlen, h⟩, -, r', hhop, hfresh, hseed, hdepth, hedge, hvisited⟩
      refine ⟨es++[r], r', by simp [hlen], hseed ▸ h.seed_mem, ?_, ?_, ?_, hedge, ?_⟩
      · rw [hseed]
        exact walk_concat.mpr ⟨prev.cur, h.walks, hhop⟩
      · rw [h.visited_eq] at hfresh
        exact ids_concat.mpr ⟨h.fresh, hfresh⟩
      · rw [hdepth, h.depth_eq]
        simp
      · rw [hvisited, h.visited_eq]
        simp
    · rintro ⟨es, r', hlen, h⟩
      obtain ⟨es, r, rfl⟩ : ∃ fs r, es = fs++[r] :=
        ⟨_, _, (List.dropLast_append_getLast (fun hnil => by simp [hnil] at hlen)).symm⟩
      obtain ⟨v, hwalk, hhop⟩ := walk_concat.mp h.walks
      obtain ⟨hnodup, hfresh⟩ := ids_concat.mp h.fresh
      have hshort : es.length = n := by simpa using hlen
      refine ⟨⟨row.seed,v,n+1,r.id,(es++[r]).map Relationship.id⟩,
        ⟨es, r, hshort, h.seed_mem, hwalk, hnodup, by rw [hshort], rfl, rfl⟩, hn,
        r', hhop, hfresh, rfl, ?_, h.edge_eq, ?_⟩
      · rw [h.depth_eq, hlen]
      · rw [h.visited_eq, List.map_append]
        rfl

theorem mem_walk : row ∈ walk datetime store q arms starts maxDepth ↔
    ∃ es r, es.length < maxDepth ∧ Follows datetime store q arms starts es r row := by
  simp only [walk, List.mem_flatMap, List.mem_range]
  constructor
  · rintro ⟨n, hn, hrow⟩
    obtain ⟨es, r, rfl, h⟩ := (mem_level hn).mp hrow
    exact ⟨es, r, hn, h⟩
  · rintro ⟨es, r, hlen, h⟩
    exact ⟨es.length, hlen, (mem_level hlen).mpr ⟨es, r, rfl, h⟩⟩

/-- The rows are the least set with the anchors that the recursive arms do not
leave. -/
theorem walk_fixpoint (h : 0 < maxDepth) : row ∈ walk datetime store q arms starts maxDepth ↔
    row ∈ anchor datetime store q arms starts ∨
      ∃ prev ∈ walk datetime store q arms starts maxDepth,
        row ∈ extend datetime store q arms maxDepth prev := by
  simp only [walk, List.mem_flatMap, List.mem_range]
  constructor
  · rintro ⟨n, hn, hrow⟩
    cases n with
    | zero => exact .inl hrow
    | succ n =>
      obtain ⟨prev, hprev, hext⟩ := List.mem_flatMap.mp hrow
      exact .inr ⟨prev, ⟨n, Nat.lt_of_succ_lt hn, hprev⟩, hext⟩
  · rintro (hrow | ⟨prev, ⟨n, hn, hprev⟩, hext⟩)
    · exact ⟨0, h, hrow⟩
    · obtain ⟨es, r, rfl, hfollows⟩ := (mem_level hn).mp hprev
      have hdeeper := (mem_extend.mp hext).1
      rw [hfollows.depth_eq] at hdeeper
      exact ⟨es.length+1, hdeeper, List.mem_flatMap.mpr ⟨prev, hprev, hext⟩⟩

end Rows

theorem find_id {α : Type} {id : α → ℕ} {l : List α} (hl : (l.map id).Nodup) {x : ℕ} {a : α} :
    l.find? (fun b => id b = x) = some a ↔ a ∈ l ∧ id a = x := by
  constructor
  · intro h
    have hfound := List.find?_some h
    exact ⟨List.mem_of_find?_eq_some h, of_decide_eq_true hfound⟩
  · rintro ⟨ha, rfl⟩
    obtain ⟨b, hb⟩ : ∃ b, l.find? (fun b => id b = id a) = some b :=
      Option.isSome_iff_exists.mp (List.find?_isSome.mpr ⟨a, ha, decide_eq_true rfl⟩)
    have hfound := List.find?_some hb
    rw [hb, List.inj_on_of_nodup_map hl (List.mem_of_find?_eq_some hb) ha (of_decide_eq_true hfound)]

theorem mem_lookup {α : Type} {id : α → ℕ} {l : List α} (hl : (l.map id).Nodup) {ids : List ℕ}
    {a : α} : a ∈ ids.filterMap (fun x => l.find? (fun b => id b = x)) ↔ a ∈ l ∧ id a ∈ ids := by
  simp only [List.mem_filterMap, find_id hl]
  constructor
  · rintro ⟨x, hx, ha, rfl⟩
    exact ⟨ha, hx⟩
  · rintro ⟨ha, hx⟩
    exact ⟨_, hx, ha, rfl⟩

theorem lookup_nodup {α : Type} {id : α → ℕ} {l : List α} (hl : (l.map id).Nodup) {ids : List ℕ}
    (h : ids.Nodup) : (ids.filterMap (fun x => l.find? (fun b => id b = x))).Nodup := by
  refine List.pairwise_filterMap.mpr (h.imp (fun {x y} hne a ha b hb hab => hne ?_))
  rw [← ((find_id hl).mp ha).2, ← ((find_id hl).mp hb).2, hab]

theorem SetOrder.mem (order : SetOrder) {l : List ℕ} {x : ℕ} : x ∈ order.list l ↔ x ∈ l :=
  (order.perm l).mem_iff.trans List.mem_dedup

theorem SetOrder.nodup (order : SetOrder) (l : List ℕ) : (order.list l).Nodup :=
  (order.perm l).nodup_iff.mpr (List.nodup_dedup l)

def splitOrder (p : ℕ → Bool) : SetOrder where
  list l := l.dedup.filter p++l.dedup.filter (fun x => !p x)
  perm l := List.filter_append_perm p l.dedup

section Paths

variable {datetime : ℤ → ℤ} {store : Store} {q : Query}

theorem hop_out {r : Relationship} {u v : ℕ} : Hop datetime store q [out] r u v ↔
    r ∈ store.relationships ∧ allowed datetime q r = true ∧ r.sourceEntityId = u ∧
      r.targetEntityId = v := by
  simp [Hop, out]

theorem follows_mem {arms : List Arm} {starts : List ℕ} {es : List Relationship} {r : Relationship}
    {row : WalkRow} (h : Follows datetime store q arms starts es r row) :
    ∀ e ∈ es++[r], e ∈ store.relationships := by
  intro e he
  obtain ⟨u, v, hhop⟩ := walk_hop h.walks he
  exact hhop.1

theorem ids_inj {es fs : List Relationship} (hes : ∀ e ∈ es, e ∈ store.relationships)
    (hfs : ∀ e ∈ fs, e ∈ store.relationships)
    (h : es.map Relationship.id = fs.map Relationship.id) : es = fs := by
  induction es generalizing fs with
  | nil => exact (List.map_eq_nil_iff.mp h.symm).symm
  | cons e es ih =>
    cases fs with
    | nil => cases h
    | cons f fs =>
      obtain ⟨hid, hrest⟩ := List.cons.inj h
      rw [List.inj_on_of_nodup_map store.relationship_ids (hes e (by simp)) (hfs f (by simp)) hid,
        ih (fun x hx => hes x (by simp [hx])) (fun x hx => hfs x (by simp [hx])) hrest]

/-- A path row is determined by its relationships. -/
theorem rowOf_visited {source : ℕ} {es fs : List Relationship} {r t : Relationship}
    {a b : WalkRow} (ha : Follows datetime store q [out] [source] es r a)
    (hb : Follows datetime store q [out] [source] fs t b) (h : a.visited = b.visited) : a = b := by
  have heq : es++[r] = fs++[t] := by
    refine ids_inj (follows_mem ha) (follows_mem hb) ?_
    rw [← ha.visited_eq, ← hb.visited_eq, h]
  obtain ⟨rfl, hrt⟩ := List.append_inj' heq rfl
  obtain rfl := List.singleton_inj.mp hrt
  obtain ⟨u, -, hhop⟩ := walk_concat.mp ha.walks
  obtain ⟨u', -, hhop'⟩ := walk_concat.mp hb.walks
  have hcur : a.cur = b.cur := (hop_out.mp hhop).2.2.2.symm.trans (hop_out.mp hhop').2.2.2
  have hseed : a.seed = b.seed :=
    (List.mem_singleton.mp ha.seed_mem).trans (List.mem_singleton.mp hb.seed_mem).symm
  have hdepth : a.depth = b.depth := ha.depth_eq.trans hb.depth_eq.symm
  have hedge : a.edgeId = b.edgeId := ha.edge_eq.trans hb.edge_eq.symm
  cases a
  cases b
  simp only at *
  rw [hcur, hseed, hdepth, hedge, h]

theorem level_nodup (source maxDepth n : ℕ) (hn : n < maxDepth) :
    (level datetime store q [out] [source] maxDepth n).Nodup := by
  have hrels : store.relationships.Nodup := store.relationship_ids.of_map
  induction n with
  | zero =>
    rw [level, anchor, List.flatMap_singleton]
    refine (hrels.filter _).map_on (fun r hr t ht heq => ?_)
    simp only [WalkRow.mk.injEq] at heq
    exact List.inj_on_of_nodup_map store.relationship_ids (List.mem_of_mem_filter hr)
      (List.mem_of_mem_filter ht) heq.2.2.2.1
  | succ n ih =>
    have hlt := Nat.lt_of_succ_lt hn
    rw [level, List.nodup_flatMap]
    refine ⟨fun prev _ => ?_, (ih hlt).imp_of_mem (fun {a b} ha hb hne row hra hrb => hne ?_)⟩
    · rw [extend, List.flatMap_singleton]
      refine (hrels.filter _).map_on (fun r hr t ht heq => ?_)
      simp only [WalkRow.mk.injEq] at heq
      exact List.inj_on_of_nodup_map store.relationship_ids (List.mem_of_mem_filter hr)
        (List.mem_of_mem_filter ht) heq.2.2.2.1
    · obtain ⟨-, r, -, -, -, -, -, hv⟩ := mem_extend.mp hra
      obtain ⟨-, t, -, -, -, -, -, hv'⟩ := mem_extend.mp hrb
      obtain ⟨es, e, -, hfa⟩ := (mem_level hlt).mp ha
      obtain ⟨fs, f, -, hfb⟩ := (mem_level hlt).mp hb
      exact rowOf_visited hfa hfb (List.append_inj' (hv.symm.trans hv') rfl).1

theorem walk_nodup (source maxDepth : ℕ) :
    (walk datetime store q [out] [source] maxDepth).Nodup := by
  rw [walk, List.nodup_flatMap]
  refine ⟨fun n hn => level_nodup source maxDepth n (List.mem_range.mp hn), ?_⟩
  refine List.nodup_range.imp_of_mem (fun {m n} hm hn hne row hrm hrn => hne ?_)
  obtain ⟨es, r, hlen, h⟩ := (mem_level (List.mem_range.mp hm)).mp hrm
  obtain ⟨fs, t, hlen', h'⟩ := (mem_level (List.mem_range.mp hn)).mp hrn
  have hdepth := h.depth_eq.symm.trans h'.depth_eq
  omega

theorem visited_path {es : List Relationship} (h : ∀ e ∈ es, e ∈ store.relationships) :
    (es.map Relationship.id).mapM (fun eid =>
      (store.relationships.find? (fun r => r.id = eid)).map Relationship.data) =
        some (es.map Relationship.data) := by
  induction es with
  | nil => rfl
  | cons e es ih =>
    have hfind := (find_id store.relationship_ids).mpr ⟨h e (by simp), rfl⟩
    rw [List.map_cons, List.mapM_cons, hfind, ih (fun x hx => h x (by simp [hx]))]
    rfl

theorem findPaths_spec (source target : ℕ) (maxDepth : ℤ) :
    (findPaths datetime store q source target maxDepth).Nodup ∧
      ∀ p, p ∈ findPaths datetime store q source target maxDepth ↔
        ∃ es, p = es.map Relationship.data ∧ es ≠ [] ∧
          es.length ≤ (max 1 (min maxDepth 8)).toNat ∧ (es.map Relationship.id).Nodup ∧
          Walk (Hop datetime store q [out]) source es target := by
  have hrow : ∀ {es r row}, Follows datetime store q [out] [source] es r row →
      row.visited.mapM (fun eid =>
        (store.relationships.find? (fun r => r.id = eid)).map Relationship.data) =
          some ((es++[r]).map Relationship.data) := by
    intro es r row h
    rw [h.visited_eq]
    exact visited_path (follows_mem h)
  unfold findPaths
  constructor
  · refine List.pairwise_filterMap.mpr ?_
    have hrows := @walk_nodup datetime store q source (max 1 (min maxDepth 8)).toNat
    have hnodup := ((sortOn_perm WalkRow.depth _).nodup_iff).mpr
      (hrows.filter (fun row => row.cur = target))
    refine hnodup.imp_of_mem (fun {a b} ha hb hne p hp p' hp' heq => hne ?_)
    obtain ⟨es, r, -, hfa⟩ := mem_walk.mp (List.mem_of_mem_filter (mem_sortOn.mp ha))
    obtain ⟨fs, t, -, hfb⟩ := mem_walk.mp (List.mem_of_mem_filter (mem_sortOn.mp hb))
    rw [hrow hfa] at hp
    rw [hrow hfb] at hp'
    refine rowOf_visited hfa hfb ?_
    have hids := congrArg (List.map PathEdge.id)
      ((Option.some.inj hp).trans (heq.trans (Option.some.inj hp').symm))
    rw [List.map_map, List.map_map] at hids
    rw [hfa.visited_eq, hfb.visited_eq]
    exact hids
  · intro p
    simp only [List.mem_filterMap, mem_sortOn, List.mem_filter, decide_eq_true_eq]
    constructor
    · rintro ⟨row, ⟨hwalk, rfl⟩, hp⟩
      obtain ⟨es, r, hlen, h⟩ := mem_walk.mp hwalk
      rw [hrow h] at hp
      refine ⟨es++[r], (Option.some.inj hp).symm, by simp, by simpa using hlen, h.fresh, ?_⟩
      rw [← List.mem_singleton.mp h.seed_mem]
      exact h.walks
    · rintro ⟨es, rfl, hne, hlen, hnodup, hwalk⟩
      obtain ⟨fs, r, rfl⟩ : ∃ fs r, es = fs++[r] := ⟨_, _, (List.dropLast_append_getLast hne).symm⟩
      have h : Follows datetime store q [out] [source] fs r
          ⟨source,target,fs.length+1,r.id,(fs++[r]).map Relationship.id⟩ :=
        ⟨by simp, hwalk, hnodup, rfl, rfl, rfl⟩
      exact ⟨_, ⟨mem_walk.mpr ⟨fs, r, by simpa using hlen, h⟩, rfl⟩, hrow h⟩

end Paths

section Reach

variable (datetime : ℤ → ℤ) (store : Store) (q : Query) (depth : ℤ)

def Link : Relationship → ℕ → ℕ → Prop := Hop datetime store q [out,inward]

def Live (e : Entity) : Prop :=
  e ∈ store.entities ∧ e.namespaceId = q.namespaceId ∧ entityLive datetime q.now e = true

def LiveId (x : ℕ) : Prop := ∃ e, Live datetime store q e ∧ e.id = x

/-- A relationship taken between live entities. -/
def LiveLink (r : Relationship) (u v : ℕ) : Prop :=
  Link datetime store q r u v ∧ LiveId datetime store q u ∧ LiveId datetime store q v

def OnWalk (hop : Relationship → ℕ → ℕ → Prop) (seed : ℕ) (r : Relationship) : Prop :=
  ∃ es v, r ∈ es ∧ es.length ≤ (max 1 (min depth 6)).toNat ∧ Walk hop seed es v

def AtEnd (hop : Relationship → ℕ → ℕ → Prop) (seed x : ℕ) : Prop :=
  ∃ es, es.length ≤ (max 1 (min depth 6)).toNat ∧ Walk hop seed es x

structure Exact (seed : ℕ) (nb : Neighborhood) : Prop where
  entities : ∀ x, x ≠ seed →
    ((∃ e ∈ nb.entities, e.id = x) ↔ AtEnd depth (LiveLink datetime store q) seed x)
  relationships : ∀ r, r ∈ nb.relationships ↔ OnWalk depth (LiveLink datetime store q) seed r

/-- Each relationship joins entities that are the seed or in the neighborhood. -/
def Closed (seed : ℕ) (nb : Neighborhood) : Prop :=
  ∀ r ∈ nb.relationships, (r.sourceEntityId = seed ∨ ∃ e ∈ nb.entities, e.id = r.sourceEntityId) ∧
    (r.targetEntityId = seed ∨ ∃ e ∈ nb.entities, e.id = r.targetEntityId)

def Returned (seed : ℕ) : Set Entity :=
  {e | Live datetime store q e ∧ ∃ es, es ≠ [] ∧ es.length ≤ (max 1 (min depth 6)).toNat ∧
    es.Nodup ∧ Walk (Link datetime store q) seed es e.id}

variable {datetime store q depth}

theorem link_ends {r : Relationship} {u v : ℕ} (h : Link datetime store q r u v) :
    u = r.sourceEntityId ∧ v = r.targetEntityId ∨
      u = r.targetEntityId ∧ v = r.sourceEntityId := by
  obtain ⟨-, -, arm, harm, heq⟩ := h
  simp only [List.mem_cons, List.not_mem_nil, or_false] at harm
  rcases harm with rfl | rfl
  · exact .inl ⟨(congrArg Prod.fst heq).symm, (congrArg Prod.snd heq).symm⟩
  · exact .inr ⟨(congrArg Prod.fst heq).symm, (congrArg Prod.snd heq).symm⟩

theorem link_two_ends : TwoEnds (Link datetime store q) := by
  intro r u v p t h h'
  rcases link_ends h with ⟨rfl, rfl⟩ | ⟨rfl, rfl⟩
  · exact link_ends h'
  · exact (link_ends h').symm

theorem walk_ids {es : List Relationship} {u v : ℕ} (h : Walk (Link datetime store q) u es v) :
    (es.map Relationship.id).Nodup ↔ es.Nodup := by
  refine ⟨fun hnodup => hnodup.of_map, fun hnodup => hnodup.map_on (fun a ha b hb hab => ?_)⟩
  obtain ⟨p, t, hhop⟩ := walk_hop h ha
  obtain ⟨p', t', hhop'⟩ := walk_hop h hb
  exact List.inj_on_of_nodup_map store.relationship_ids hhop.1 hhop'.1 hab

/-- The rows of a seed, as walks that take no relationship twice. -/
theorem seed_row {starts : List ℕ} {seed : ℕ} (hseed : seed ∈ starts) (P : WalkRow → Prop) :
    (∃ row ∈ walk datetime store q [out,inward] starts (max 1 (min depth 6)).toNat,
      row.seed = seed ∧ P row) ↔
    ∃ es r v, (es++[r]).length ≤ (max 1 (min depth 6)).toNat ∧ (es++[r]).Nodup ∧
      Walk (Link datetime store q) seed (es++[r]) v ∧
      P ⟨seed,v,es.length+1,r.id,(es++[r]).map Relationship.id⟩ := by
  constructor
  · rintro ⟨row, hrow, rfl, hp⟩
    obtain ⟨es, r, hlen, h⟩ := mem_walk.mp hrow
    have heq : row = ⟨row.seed,row.cur,es.length+1,r.id,(es++[r]).map Relationship.id⟩ := by
      rw [← h.depth_eq, ← h.edge_eq, ← h.visited_eq]
    exact ⟨es, r, row.cur, by simpa using hlen, (walk_ids h.walks).mp h.fresh, h.walks, heq ▸ hp⟩
  · rintro ⟨es, r, v, hlen, hnodup, hwalk, hp⟩
    refine ⟨⟨seed,v,es.length+1,r.id,(es++[r]).map Relationship.id⟩,
      mem_walk.mpr ⟨es, r, by simpa using hlen, ?_⟩, rfl, hp⟩
    exact ⟨hseed, hwalk, (walk_ids hwalk).mpr hnodup, rfl, rfl, rfl⟩

/-- A relationship on a walk is the last one of a row. -/
theorem edge_row {starts : List ℕ} {seed : ℕ} (hseed : seed ∈ starts) {r : Relationship}
    (hr : r ∈ store.relationships) :
    (∃ row ∈ walk datetime store q [out,inward] starts (max 1 (min depth 6)).toNat,
      row.seed = seed ∧ row.edgeId = r.id) ↔ OnWalk depth (Link datetime store q) seed r := by
  rw [seed_row hseed (fun row => row.edgeId = r.id)]
  constructor
  · rintro ⟨es, t, v, hlen, -, hwalk, hid⟩
    obtain ⟨p, p', hhop⟩ := walk_hop hwalk (show t ∈ es++[t] by simp)
    obtain rfl := List.inj_on_of_nodup_map store.relationship_ids hhop.1 hr hid
    exact ⟨es++[t], v, by simp, hlen, hwalk⟩
  · rintro ⟨es, v, hmem, hlen, hwalk⟩
    obtain ⟨fs, w, hfs, hnodup, hle⟩ := trail_to link_two_ends hwalk hmem
    exact ⟨fs, r, w, hle.trans hlen, hnodup, hfs, rfl⟩

theorem ent_row {starts : List ℕ} {seed : ℕ} (hseed : seed ∈ starts) {e : Entity}
    (he : Live datetime store q e) :
    (∃ row ∈ walk datetime store q [out,inward] starts (max 1 (min depth 6)).toNat,
      row.seed = seed ∧ row.cur = e.id) ↔ e ∈ Returned datetime store q depth seed := by
  rw [seed_row hseed (fun row => row.cur = e.id)]
  constructor
  · rintro ⟨es, r, v, hlen, hnodup, hwalk, rfl⟩
    exact ⟨he, es++[r], by simp, hlen, hnodup, hwalk⟩
  · rintro ⟨-, es, hne, hlen, hnodup, hwalk⟩
    obtain ⟨fs, r, rfl⟩ : ∃ fs r, es = fs++[r] := ⟨_, _, (List.dropLast_append_getLast hne).symm⟩
    exact ⟨fs, r, e.id, hlen, hnodup, hwalk, rfl⟩

/-- A live entity at the end of a walk is returned, the seed apart. -/
theorem returned_of_walk {seed : ℕ} {e : Entity} (he : Live datetime store q e)
    (hne : e.id ≠ seed) (h : AtEnd depth (Link datetime store q) seed e.id) :
    e ∈ Returned datetime store q depth seed := by
  obtain ⟨es, hlen, hwalk⟩ := h
  obtain ⟨fs, hfs, hnodup, -, hle⟩ := walk_trail link_two_ends hwalk
  refine ⟨he, fs, ?_, hle.trans hlen, hnodup, hfs⟩
  rintro rfl
  exact hne hfs.symm

/-- Walks end at both entities of a relationship that is on a walk. -/
theorem on_walk_ends {seed : ℕ} {r : Relationship}
    (h : OnWalk depth (Link datetime store q) seed r) :
    AtEnd depth (Link datetime store q) seed r.sourceEntityId ∧
      AtEnd depth (Link datetime store q) seed r.targetEntityId := by
  obtain ⟨es, v, hmem, hlen, hwalk⟩ := h
  obtain ⟨fs, w, hfs, -, hle, -⟩ := walk_to hwalk hmem
  obtain ⟨u, hu, hlink⟩ := walk_concat.mp hfs
  have hfar : AtEnd depth (Link datetime store q) seed w :=
    ⟨fs++[r], by simpa using hle.trans hlen, hfs⟩
  have hnear : AtEnd depth (Link datetime store q) seed u := ⟨fs, by omega, hu⟩
  rcases link_ends hlink with ⟨rfl, rfl⟩ | ⟨rfl, rfl⟩
  · exact ⟨hnear, hfar⟩
  · exact ⟨hfar, hnear⟩

section Lists

variable (datetime store q depth)
variable (entsOrder edgesOrder : SetOrder) (entity_ids : List ℕ)

def whole (seed : ℕ) : Neighborhood :=
  let walkRows := walk datetime store q [out,inward] entity_ids (max 1 (min depth 6)).toNat
  let bucket := walkRows.filter (fun row => row.seed = seed)
  { entities := (entsOrder.list (bucket.map WalkRow.cur)).filterMap (fun x =>
      (store.entities.filter (fun e => e.id ∈ walkRows.map WalkRow.cur ∧
        e.namespaceId = q.namespaceId ∧
        (q.preferCurrent → entityLive datetime q.now e))).find? (fun e => e.id = x))
    relationships := (edgesOrder.list (bucket.map WalkRow.edgeId)).filterMap (fun x =>
      (store.relationships.filter (fun r => r.id ∈ walkRows.map WalkRow.edgeId ∧
        r.namespaceId = q.namespaceId)).find? (fun r => r.id = x)) }

variable {datetime store q depth entsOrder edgesOrder entity_ids} {limit : ℕ}

theorem mem_batch {seed : ℕ} {nb : Neighborhood} :
    (seed,nb) ∈ getNeighborhoodsBatch datetime store q entsOrder edgesOrder entity_ids depth
      limit ↔ seed ∈ entity_ids ∧ nb =
        ⟨(whole datetime store q depth entsOrder edgesOrder entity_ids seed).entities.take limit,
          (whole datetime store q depth entsOrder edgesOrder entity_ids seed).relationships.take
            limit⟩ := by
  constructor
  · intro h
    obtain ⟨s, hs, heq⟩ := List.mem_map.mp h
    obtain ⟨rfl, hnb⟩ := Prod.mk.inj heq
    exact ⟨hs, hnb.symm⟩
  · rintro ⟨hs, rfl⟩
    exact List.mem_map.mpr ⟨seed, hs, rfl⟩

theorem filter_ids {α : Type} {id : α → ℕ} {l : List α} (hl : (l.map id).Nodup) (p : α → Bool) :
    ((l.filter p).map id).Nodup := hl.sublist (List.filter_sublist.map id)

theorem mem_whole_entities (hq : q.preferCurrent = true) {seed : ℕ} (hseed : seed ∈ entity_ids)
    {e : Entity} :
    e ∈ (whole datetime store q depth entsOrder edgesOrder entity_ids seed).entities ↔
      e ∈ Returned datetime store q depth seed := by
  rw [whole, mem_lookup (filter_ids store.entity_ids _), SetOrder.mem]
  simp only [List.mem_filter, decide_eq_true_eq, List.mem_map, hq, true_implies]
  constructor
  · rintro ⟨⟨he, -, hns, hlive⟩, row, ⟨hrow, hrs⟩, hcur⟩
    exact (ent_row hseed ⟨he, hns, hlive⟩).mp ⟨row, hrow, hrs, hcur⟩
  · intro h
    obtain ⟨row, hrow, hrs, hcur⟩ := (ent_row hseed h.1).mpr h
    exact ⟨⟨h.1.1, ⟨row, hrow, hcur⟩, h.1.2.1, h.1.2.2⟩, row, ⟨hrow, hrs⟩, hcur⟩

theorem on_walk_mem {seed : ℕ} {r : Relationship}
    (h : OnWalk depth (Link datetime store q) seed r) :
    r ∈ store.relationships ∧ r.namespaceId = q.namespaceId := by
  obtain ⟨es, v, hmem, -, hwalk⟩ := h
  obtain ⟨p, t, hr, hok, -⟩ := walk_hop hwalk hmem
  exact ⟨hr, (of_decide_eq_true hok).1⟩

theorem mem_whole_relationships {seed : ℕ} (hseed : seed ∈ entity_ids) {r : Relationship} :
    r ∈ (whole datetime store q depth entsOrder edgesOrder entity_ids seed).relationships ↔
      OnWalk depth (Link datetime store q) seed r := by
  rw [whole, mem_lookup (filter_ids store.relationship_ids _), SetOrder.mem]
  simp only [List.mem_filter, decide_eq_true_eq, List.mem_map]
  constructor
  · rintro ⟨⟨hr, -, -⟩, row, ⟨hrow, hrs⟩, hid⟩
    exact (edge_row hseed hr).mp ⟨row, hrow, hrs, hid⟩
  · intro h
    obtain ⟨hr, hns⟩ := on_walk_mem h
    obtain ⟨row, hrow, hrs, hid⟩ := (edge_row hseed hr).mpr h
    exact ⟨⟨hr, ⟨row, hrow, hid⟩, hns⟩, row, ⟨hrow, hrs⟩, hid⟩

theorem whole_entities_nodup (seed : ℕ) :
    (whole datetime store q depth entsOrder edgesOrder entity_ids seed).entities.Nodup :=
  lookup_nodup (filter_ids store.entity_ids _) (entsOrder.nodup _)

theorem whole_relationships_nodup (seed : ℕ) :
    (whole datetime store q depth entsOrder edgesOrder entity_ids seed).relationships.Nodup :=
  lookup_nodup (filter_ids store.relationship_ids _) (edgesOrder.nodup _)

/-- The neighborhood under a limit that the tables do not exceed. -/
theorem batch_whole (hq : q.preferCurrent = true) (he : store.entities.length ≤ limit)
    (hr : store.relationships.length ≤ limit) {seed : ℕ} {nb : Neighborhood}
    (h : (seed,nb) ∈ getNeighborhoodsBatch datetime store q entsOrder edgesOrder entity_ids
      depth limit) :
    (∀ e, e ∈ nb.entities ↔ e ∈ Returned datetime store q depth seed) ∧
      ∀ r, r ∈ nb.relationships ↔ OnWalk depth (Link datetime store q) seed r := by
  obtain ⟨hseed, rfl⟩ := mem_batch.mp h
  have hents : ∀ e ∈ (whole datetime store q depth entsOrder edgesOrder entity_ids
      seed).entities, e ∈ store.entities := fun e hmem => ((mem_whole_entities hq hseed).mp hmem).1.1
  have hrels : ∀ r ∈ (whole datetime store q depth entsOrder edgesOrder entity_ids
      seed).relationships, r ∈ store.relationships :=
    fun r hmem => (on_walk_mem ((mem_whole_relationships hseed).mp hmem)).1
  have hlen := ((whole_entities_nodup seed).subperm hents).length_le
  have hlen' := ((whole_relationships_nodup seed).subperm hrels).length_le
  simp only [List.take_of_length_le (hlen.trans he), List.take_of_length_le (hlen'.trans hr)]
  exact ⟨fun e => mem_whole_entities hq hseed, fun r => mem_whole_relationships hseed⟩

theorem within_limit_iff (hq : q.preferCurrent = true) (he : store.entities.length ≤ limit)
    (hr : store.relationships.length ≤ limit) {seed : ℕ} {nb : Neighborhood}
    (h : (seed,nb) ∈ getNeighborhoodsBatch datetime store q entsOrder edgesOrder entity_ids
      depth limit) :
    Exact datetime store q depth seed nb ↔
      ∀ r, OnWalk depth (Link datetime store q) seed r →
        LiveId datetime store q r.sourceEntityId ∧ LiveId datetime store q r.targetEntityId := by
  obtain ⟨hents, hrels⟩ := batch_whole hq he hr h
  constructor
  · intro hexact r hon
    obtain ⟨es, v, hmem, -, hwalk⟩ := (hexact.relationships r).mp ((hrels r).mpr hon)
    obtain ⟨p, t, hlink, hp, ht⟩ := walk_hop hwalk hmem
    rcases link_ends hlink with ⟨rfl, rfl⟩ | ⟨rfl, rfl⟩
    · exact ⟨hp, ht⟩
    · exact ⟨ht, hp⟩
  · intro hlive
    have hwalks : ∀ es v, es.length ≤ (max 1 (min depth 6)).toNat →
        Walk (Link datetime store q) seed es v → Walk (LiveLink datetime store q) seed es v := by
      intro es v hlen hwalk
      refine walk_mono (fun r hmem p t hlink => ⟨hlink, ?_⟩) hwalk
      obtain ⟨hs, ht⟩ := hlive r ⟨es, v, hmem, hlen, hwalk⟩
      rcases link_ends hlink with ⟨rfl, rfl⟩ | ⟨rfl, rfl⟩
      · exact ⟨hs, ht⟩
      · exact ⟨ht, hs⟩
    have hback : ∀ es v, Walk (LiveLink datetime store q) seed es v →
        Walk (Link datetime store q) seed es v :=
      fun es v hwalk => walk_mono (fun r _ p t hlink => hlink.1) hwalk
    refine ⟨fun x hx => ?_, fun r => (hrels r).trans ⟨?_, ?_⟩⟩
    · constructor
      · rintro ⟨e, hmem, rfl⟩
        obtain ⟨-, es, -, hlen, -, hwalk⟩ := (hents e).mp hmem
        exact ⟨es, hlen, hwalks es e.id hlen hwalk⟩
      · rintro ⟨es, hlen, hwalk⟩
        have hne : es ≠ [] := by
          rintro rfl
          exact hx hwalk.symm
        obtain ⟨gs, r, rfl⟩ : ∃ gs r, es = gs++[r] :=
          ⟨_, _, (List.dropLast_append_getLast hne).symm⟩
        obtain ⟨p, -, hlink⟩ := walk_concat.mp hwalk
        obtain ⟨e, hlive', rfl⟩ := hlink.2.2
        exact ⟨e, (hents e).mpr (returned_of_walk hlive' hx ⟨_, hlen, hback _ _ hwalk⟩), rfl⟩
    · rintro ⟨es, v, hmem, hlen, hwalk⟩
      exact ⟨es, v, hmem, hlen, hwalks es v hlen hwalk⟩
    · rintro ⟨es, v, hmem, hlen, hwalk⟩
      exact ⟨es, v, hmem, hlen, hback es v hwalk⟩

theorem returned_ncard (hq : q.preferCurrent = true) {seed : ℕ} (hseed : seed ∈ entity_ids) :
    (Returned datetime store q depth seed).ncard =
      (whole datetime store q depth entsOrder edgesOrder entity_ids seed).entities.length := by
  have hset : Returned datetime store q depth seed =
      ((whole datetime store q depth entsOrder edgesOrder entity_ids seed).entities.toFinset :
        Set Entity) := by
    ext e
    rw [List.coe_toFinset]
    exact (mem_whole_entities hq hseed).symm
  rw [hset, Set.ncard_coe_finset, List.toFinset_card_of_nodup (whole_entities_nodup seed)]

/-- A list that the order puts first what has the property, looked up. -/
theorem first_of_split {α : Type} {f : ℕ → Option α} {l : List ℕ} {x : ℕ} {a : α} (hx : x ∈ l)
    (hf : f x = some a) (h0 : limit ≠ 0) :
    a ∈ (((splitOrder (fun y => y = x)).list l).filterMap f).take limit := by
  have hone : l.dedup.filter (fun y => y = x) = [x] := by
    rw [List.filter_eq, List.count_eq_one_of_mem (List.nodup_dedup l) (List.mem_dedup.mpr hx)]
    rfl
  obtain ⟨n, rfl⟩ := Nat.exists_eq_succ_of_ne_zero h0
  simp only [splitOrder, hone, List.singleton_append, List.filterMap_cons, hf, List.take_succ_cons]
  exact List.mem_cons_self

theorem last_of_split {α : Type} {f : ℕ → Option α} {l : List ℕ} {x : ℕ} {a : α}
    (hl : limit < (((splitOrder (fun y => y ≠ x)).list l).filterMap f).length)
    (ha : a ∈ (((splitOrder (fun y => y ≠ x)).list l).filterMap f).take limit) :
    ∃ y, y ≠ x ∧ f y = some a := by
  simp only [splitOrder, List.filterMap_append, List.length_append] at hl ha
  have hlast : (l.dedup.filter (fun y => !decide (y ≠ x))).length ≤ 1 := by
    have hsub : l.dedup.filter (fun y => !decide (y ≠ x)) ⊆ [x] := by
      intro y hy
      simpa using (List.mem_filter.mp hy).2
    exact (((List.nodup_dedup l).filter _).subperm hsub).length_le
  have hshort := (List.length_filterMap_le f (l.dedup.filter (fun y => !decide (y ≠ x)))).trans hlast
  rw [List.take_append_of_le_length (by omega)] at ha
  obtain ⟨y, hy, hfy⟩ := List.mem_filterMap.mp (List.mem_of_mem_take ha)
  exact ⟨y, by simpa using (List.mem_filter.mp hy).2, hfy⟩

theorem relationship_kept {seed : ℕ} (hseed : seed ∈ entity_ids) {r : Relationship}
    (hon : OnWalk depth (Link datetime store q) seed r) (h0 : limit ≠ 0) (entsOrder : SetOrder) :
    r ∈ (whole datetime store q depth entsOrder (splitOrder (fun y => y = r.id)) entity_ids
      seed).relationships.take limit := by
  obtain ⟨hr, hns⟩ := on_walk_mem hon
  obtain ⟨row, hrow, hrs, hid⟩ := (edge_row hseed hr).mpr hon
  refine first_of_split (List.mem_map.mpr ⟨row, by simp [hrow, hrs], hid⟩) ?_ h0
  refine (find_id (filter_ids store.relationship_ids _)).mpr ⟨?_, rfl⟩
  simp only [List.mem_filter, decide_eq_true_eq, List.mem_map]
  exact ⟨hr, ⟨row, hrow, hid⟩, hns⟩

/-- An order can leave out the entity of a relationship when there are more
entities than the limit. -/
theorem entity_left_out (hq : q.preferCurrent = true) {seed : ℕ} (hseed : seed ∈ entity_ids)
    (h0 : limit ≠ 0) (hmany : limit < (Returned datetime store q depth seed).ncard) :
    ∃ entsOrder edgesOrder nb, (seed,nb) ∈ getNeighborhoodsBatch datetime store q entsOrder
      edgesOrder entity_ids depth limit ∧ ¬ Closed seed nb := by
  obtain ⟨e, he, hne⟩ : ∃ e ∈ Returned datetime store q depth seed, e.id ≠ seed := by
    obtain ⟨a, ha, b, hb, hab⟩ := (Set.one_lt_ncard (Set.finite_of_ncard_pos (by omega))).mp
      (show 1 < (Returned datetime store q depth seed).ncard by omega)
    by_cases hseed' : a.id = seed
    · refine ⟨b, hb, fun hbs => hab ?_⟩
      exact List.inj_on_of_nodup_map store.entity_ids ha.1.1 hb.1.1 (hseed'.trans hbs.symm)
    · exact ⟨a, ha, hseed'⟩
  obtain ⟨-, es, hnil, hlen, -, hwalk⟩ := he
  obtain ⟨fs, r, rfl⟩ : ∃ fs r, es = fs++[r] := ⟨_, _, (List.dropLast_append_getLast hnil).symm⟩
  refine ⟨splitOrder (fun y => y ≠ e.id), splitOrder (fun y => y = r.id), _,
    mem_batch.mpr ⟨hseed, rfl⟩, fun hclosed => ?_⟩
  have hon : OnWalk depth (Link datetime store q) seed r :=
    ⟨fs++[r], e.id, by simp, hlen, hwalk⟩
  have hkept := relationship_kept hseed hon h0 (splitOrder (fun y => y ≠ e.id))
  obtain ⟨hsource, htarget⟩ := hclosed r hkept
  have hout : ∀ x, x = e.id → ¬ (x = seed ∨ ∃ f ∈ (whole datetime store q depth
      (splitOrder (fun y => y ≠ e.id)) (splitOrder (fun y => y = r.id)) entity_ids
        seed).entities.take limit, f.id = x) := by
    rintro x rfl (hs | ⟨f, hf, hid⟩)
    · exact hne hs
    · rw [@returned_ncard datetime store q depth (splitOrder (fun y => y ≠ e.id))
        (splitOrder (fun y => y = r.id)) entity_ids hq seed hseed] at hmany
      obtain ⟨y, hy, hfind⟩ := last_of_split hmany hf
      have hfound := (find_id (filter_ids store.entity_ids _)).mp hfind
      exact hy (hfound.2.symm.trans hid)
  obtain ⟨u, -, hlink⟩ := walk_concat.mp hwalk
  rcases link_ends hlink with ⟨-, heq⟩ | ⟨-, heq⟩
  · exact hout _ heq.symm htarget
  · exact hout _ heq.symm hsource

theorem closed_iff (hq : q.preferCurrent = true) {seed : ℕ} (hseed : seed ∈ entity_ids) :
    (∀ entsOrder edgesOrder nb, (seed,nb) ∈ getNeighborhoodsBatch datetime store q entsOrder
      edgesOrder entity_ids depth limit → Closed seed nb) ↔
    limit = 0 ∨ (∀ r, OnWalk depth (Link datetime store q) seed r →
      (r.sourceEntityId = seed ∨ LiveId datetime store q r.sourceEntityId) ∧
        (r.targetEntityId = seed ∨ LiveId datetime store q r.targetEntityId)) ∧
      (Returned datetime store q depth seed).ncard ≤ limit := by
  constructor
  · intro h
    by_contra hnot
    rw [not_or] at hnot
    obtain ⟨h0, hrest⟩ := hnot
    refine hrest ⟨fun r hon => ?_, ?_⟩
    · have hclosed := h (splitOrder (fun _ => true)) (splitOrder (fun y => y = r.id)) _
        (mem_batch.mpr ⟨hseed, rfl⟩) r (relationship_kept hseed hon h0 _)
      have hlive : ∀ x, (∃ e ∈ (whole datetime store q depth (splitOrder (fun _ => true))
          (splitOrder (fun y => y = r.id)) entity_ids seed).entities.take limit, e.id = x) →
            LiveId datetime store q x := by
        rintro x ⟨e, he, hid⟩
        exact ⟨e, ((mem_whole_entities hq hseed).mp (List.mem_of_mem_take he)).1, hid⟩
      exact ⟨hclosed.1.imp id (hlive _), hclosed.2.imp id (hlive _)⟩
    · by_contra hmany
      obtain ⟨entsOrder, edgesOrder, nb, hmem, hopen⟩ :=
        entity_left_out hq hseed h0 (not_le.mp hmany)
      exact hopen (h entsOrder edgesOrder nb hmem)
  · rintro (rfl | ⟨hlive, hfew⟩) entsOrder edgesOrder nb hmem
    · obtain ⟨-, rfl⟩ := mem_batch.mp hmem
      intro r hr
      simp at hr
    · obtain ⟨-, rfl⟩ := mem_batch.mp hmem
      intro r hr
      have hon := (mem_whole_relationships hseed).mp (List.mem_of_mem_take hr)
      rw [@returned_ncard datetime store q depth entsOrder edgesOrder entity_ids hq seed hseed]
        at hfew
      simp only [List.take_of_length_le hfew]
      obtain ⟨hsource, htarget⟩ := on_walk_ends hon
      have hjoin : ∀ x, AtEnd depth (Link datetime store q) seed x →
          x = seed ∨ LiveId datetime store q x →
            x = seed ∨ ∃ e ∈ (whole datetime store q depth entsOrder edgesOrder entity_ids
              seed).entities, e.id = x := by
        rintro x hx (hs | ⟨e, he, rfl⟩)
        · exact .inl hs
        · by_cases hs : e.id = seed
          · exact .inl hs
          · exact .inr ⟨e, (mem_whole_entities hq hseed).mpr (returned_of_walk he hs hx), rfl⟩
      exact ⟨hjoin _ hsource (hlive r hon).1, hjoin _ htarget (hlive r hon).2⟩

theorem same_alone (hq : q.preferCurrent = true) (he : store.entities.length ≤ limit)
    (hr : store.relationships.length ≤ limit) {entsOrder' edgesOrder' : SetOrder} {seed : ℕ}
    {nb nb' : Neighborhood}
    (h : (seed,nb) ∈ getNeighborhoodsBatch datetime store q entsOrder edgesOrder entity_ids
      depth limit)
    (h' : (seed,nb') ∈ getNeighborhoodsBatch datetime store q entsOrder' edgesOrder' [seed]
      depth limit) :
    (∀ e, e ∈ nb.entities ↔ e ∈ nb'.entities) ∧
      ∀ r, r ∈ nb.relationships ↔ r ∈ nb'.relationships := by
  obtain ⟨hents, hrels⟩ := batch_whole hq he hr h
  obtain ⟨hents', hrels'⟩ := batch_whole hq he hr h'
  exact ⟨fun e => (hents e).trans (hents' e).symm, fun r => (hrels r).trans (hrels' r).symm⟩

theorem smaller_limit {limit' : ℕ} (hle : limit' ≤ limit) {seed : ℕ} {nb nb' : Neighborhood}
    (h : (seed,nb) ∈ getNeighborhoodsBatch datetime store q entsOrder edgesOrder entity_ids
      depth limit)
    (h' : (seed,nb') ∈ getNeighborhoodsBatch datetime store q entsOrder edgesOrder entity_ids
      depth limit') :
    nb'.entities <+: nb.entities ∧ nb'.relationships <+: nb.relationships := by
  obtain ⟨-, rfl⟩ := mem_batch.mp h
  obtain ⟨-, rfl⟩ := mem_batch.mp h'
  exact ⟨List.take_prefix_take_left hle, List.take_prefix_take_left hle⟩

end Lists

/-- Under a limit that nothing exceeds the neighborhood of a seed is what walks
in the live subgraph reach if and only if no relationship within the depth
touches an entity that is not live. Relationships keep their entities in every
order of the sets if and only if the limit is zero or these entities are the
seed or live and the limit holds them all. Asked alone a seed gets the same; a
smaller limit only drops; and the paths are the directed walks that take no
relationship twice, each once. -/
theorem traversal_iff (datetime : ℤ → ℤ) (store : Store) (q : Query) (entity_ids : List ℕ)
    (depth : ℤ) :
    (q.preferCurrent = true →
      (∀ limit entsOrder edgesOrder seed nb, store.entities.length ≤ limit →
        store.relationships.length ≤ limit →
        (seed,nb) ∈ getNeighborhoodsBatch datetime store q entsOrder edgesOrder entity_ids depth
          limit →
        (Exact datetime store q depth seed nb ↔
          ∀ r, OnWalk depth (Link datetime store q) seed r →
            LiveId datetime store q r.sourceEntityId ∧
              LiveId datetime store q r.targetEntityId)) ∧
      (∀ limit, ∀ seed ∈ entity_ids,
        (∀ entsOrder edgesOrder nb, (seed,nb) ∈ getNeighborhoodsBatch datetime store q
          entsOrder edgesOrder entity_ids depth limit → Closed seed nb) ↔
        limit = 0 ∨ (∀ r, OnWalk depth (Link datetime store q) seed r →
          (r.sourceEntityId = seed ∨ LiveId datetime store q r.sourceEntityId) ∧
            (r.targetEntityId = seed ∨ LiveId datetime store q r.targetEntityId)) ∧
          (Returned datetime store q depth seed).ncard ≤ limit) ∧
      (∀ limit entsOrder edgesOrder entsOrder' edgesOrder' seed nb nb',
        store.entities.length ≤ limit → store.relationships.length ≤ limit →
        (seed,nb) ∈ getNeighborhoodsBatch datetime store q entsOrder edgesOrder entity_ids depth
          limit →
        (seed,nb') ∈ getNeighborhoodsBatch datetime store q entsOrder' edgesOrder' [seed] depth
          limit →
        (∀ e, e ∈ nb.entities ↔ e ∈ nb'.entities) ∧
          ∀ r, r ∈ nb.relationships ↔ r ∈ nb'.relationships)) ∧
    (∀ limit limit' entsOrder edgesOrder seed nb nb', limit' ≤ limit →
      (seed,nb) ∈ getNeighborhoodsBatch datetime store q entsOrder edgesOrder entity_ids depth
        limit →
      (seed,nb') ∈ getNeighborhoodsBatch datetime store q entsOrder edgesOrder entity_ids depth
        limit' →
      nb'.entities <+: nb.entities ∧ nb'.relationships <+: nb.relationships) ∧
    ∀ (source target : ℕ) (maxDepth : ℤ),
      (findPaths datetime store q source target maxDepth).Nodup ∧
        ∀ p, p ∈ findPaths datetime store q source target maxDepth ↔
          ∃ es, p = es.map Relationship.data ∧ es ≠ [] ∧
            es.length ≤ (max 1 (min maxDepth 8)).toNat ∧ (es.map Relationship.id).Nodup ∧
            Walk (Hop datetime store q [out]) source es target :=
  ⟨fun hq => ⟨fun _ _ _ _ _ he hr h => within_limit_iff hq he hr h, fun _ _ hseed => closed_iff hq hseed,
      fun _ _ _ _ _ _ _ _ he hr h h' => same_alone hq he hr h h'⟩,
    fun _ _ _ _ _ _ _ hle h h' => smaller_limit hle h h', findPaths_spec⟩

end Reach

namespace RetiredBetween

def first : Relationship := ⟨1,0,10,20,"KNOWS",none,none,none⟩

def second : Relationship := ⟨2,0,20,30,"KNOWS",none,none,none⟩

def store : Store where
  entities := [⟨10,0,none⟩,⟨20,0,some 5⟩,⟨30,0,none⟩]
  relationships := [first,second]
  entity_ids := by decide
  relationship_ids := by decide

def query : Query := ⟨0,[],true,9⟩

def listed : SetOrder := splitOrder (fun _ => true)

theorem not_live_reachable : ∃ nb, (10,nb) ∈ getNeighborhoodsBatch id store query listed listed
    [10] 2 50 ∧ ¬ Exact id store query 2 10 nb ∧ ¬ Closed 10 nb := by
  refine ⟨⟨[⟨30,0,none⟩],[first,second]⟩, by decide, fun h => ?_, fun h => ?_⟩
  · obtain ⟨es, v, hmem, -, hwalk⟩ := (h.relationships second).mp (by decide)
    obtain ⟨p, t, hlink, hp, ht⟩ := walk_hop hwalk hmem
    have hretired : ¬ LiveId id store query 20 := by
      rintro ⟨e, ⟨he, -, hlive⟩, hid⟩
      simp only [store, List.mem_cons, List.not_mem_nil, or_false] at he
      rcases he with rfl | rfl | rfl <;> revert hid hlive <;> decide
    rcases link_ends hlink with ⟨rfl, rfl⟩ | ⟨rfl, rfl⟩
    · exact hretired hp
    · exact hretired ht
  · have hends := (h second (by decide)).1
    revert hends
    decide

end RetiredBetween

end Uru.Storage.GraphTraversal
