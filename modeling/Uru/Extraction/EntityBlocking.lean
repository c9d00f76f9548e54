import Mathlib.Algebra.Order.Field.Rat
import Mathlib.Data.Finset.Card
import Mathlib.Data.List.Nodup
import Mathlib.Tactic
import Uru.Lib.Framed
import Uru.Lib.Listing
import Uru.Lib.Record
import Uru.Lib.SortOn

/-!
# The entity index

Entities met during ingestion are indexed by name and type, by id, by type and
by the tokens of their names. An entity whose name and type are there already is
not added. The index keeps exactly the first entity of each name and type, and
below its caps the candidates that it finds through shared tokens are those that
a scan of everything finds.
-/

set_option autoImplicit false

namespace Uru.Extraction.EntityBlocking
open Uru.Lib

section Names

/-- The value of an attribute: a text, a list or an object (of which `0` is an empty one), or
something else (of which `0` is falsy). -/
inductive Field where
  | text (t : Text)
  | container (n : ℕ)
  | other (n : ℕ)
  deriving DecidableEq

structure Entity (ι : Type) where
  id : ι
  namespaceId : ι
  name : Text
  entityType : Text
  description : Text
  attributes : Record Text Field
  sourceDocumentIds : List ι
  sourceChunkIds : List ι
  mentionCount : ℕ
  confidence : ℚ
  embedding : Option (List ℚ)

/-- How names are cut: the normalized name, the words between blanks, letters and digits, and the
similarity of two names. -/
structure Naming where
  normalizeEntityName : Text → Text
  split : Text → List Text
  isalnum : Char → Bool
  levenshteinSimilarity : Text → Text → ℚ

variable (z : Naming)

def tokenize (name : Text) : Finset Text :=
  (((z.split (z.normalizeEntityName name)).map (fun token => token.filter z.isalnum)).filter
    (fun cleaned => 2 ≤ cleaned.length)).toFinset

end Names

section Index

variable {ι : Type} [DecidableEq ι]

structure EntityIndex (ι : Type) where
  exact : Record (Text × Text) (Entity ι)
  token : Text → Finset ι
  type : Text → List (Entity ι)
  byId : Record ι (Entity ι)

def EntityIndex.empty : EntityIndex ι := ⟨∅,fun _ => ∅,fun _ => [],∅⟩

variable (z : Naming)

def key (e : Entity ι) : Text × Text := (z.normalizeEntityName e.name,e.entityType)

def EntityIndex.add (x : EntityIndex ι) (e : Entity ι) : EntityIndex ι × Option (Entity ι) :=
  match x.exact.get (key z e) with
  | some existing => (x,some existing)
  | none =>
    (⟨x.exact.set (key z e) e,
      fun t => if t ∈ tokenize z e.name then insert e.id (x.token t) else x.token t,
      fun t => if t = e.entityType then x.type t++[e] else x.type t,
      x.byId.set e.id e⟩,none)

def EntityIndex.get (x : EntityIndex ι) (id : ι) : Option (Entity ι) := x.byId.get id

def EntityIndex.getByName (x : EntityIndex ι) (name entityType : Text) : Option (Entity ι) :=
  x.exact.get (z.normalizeEntityName name,entityType)

def EntityIndex.getAllEntities (x : EntityIndex ι) : List (Entity ι) := x.byId.values

def EntityIndex.getEntitiesByType (x : EntityIndex ι) (entityType : Text) : List (Entity ι) :=
  x.type entityType

def EntityIndex.run (es : List (Entity ι)) : EntityIndex ι :=
  es.foldl (fun x e => (x.add z e).1) EntityIndex.empty

def EntityIndex.overlap (x : EntityIndex ι) (tokens : Finset Text) (cid : ι) : ℕ :=
  (tokens.filter (fun t => (x.token t).card ≤ 500 ∧ cid ∈ x.token t)).card

def EntityIndex.sharing (x : EntityIndex ι) (tokens : Finset Text) : Finset ι :=
  (tokens.filter (fun t => (x.token t).card ≤ 500)).biUnion x.token

def above (scores : List ℚ) (threshold : ℚ) : List (ℕ × ℚ) :=
  sortOn (fun r => OrderDual.toDual r.2) (scores.zipIdx.filterMap (fun c =>
    if threshold ≤ c.1 then some (c.2,c.1) else none))

def batchLevenshtein (query : Text) (candidates : List Text) (threshold : ℚ) : List (ℕ × ℚ) :=
  above (candidates.map (z.levenshteinSimilarity query)) threshold

/-- Of embeddings of one length; others are not compared, they raise. -/
def dot (u v : List ℚ) : ℚ := (u.zipWith (· * ·) v).sum

def batchDotProduct (query : List ℚ) (candidates : List (List ℚ)) (threshold : ℚ) :
    List (ℕ × ℚ) :=
  above (candidates.map (dot query)) threshold

/-- The ids that remain, by falling overlap; `ids` is the order in which they were counted. -/
def EntityIndex.sortedIds (x : EntityIndex ι) (e : Entity ι) (minSharedTokens : ℕ)
    (skipIds : Finset ι) (ids : List ι) : List ι :=
  let overlap := x.overlap (tokenize z e.name)
  sortOn (fun cid => OrderDual.toDual (overlap cid)) (ids.filter (fun cid =>
    cid ≠ e.id ∧ cid ∉ skipIds ∧ (1 < minSharedTokens → minSharedTokens ≤ overlap cid)))

def EntityIndex.validCandidates (x : EntityIndex ι) (accepts : Entity ι → Bool)
    (maxCandidates : ℕ) (sortedIds : List ι) : List (Entity ι) :=
  (sortedIds.filterMap (fun cid => (x.byId.get cid).filter accepts)).take maxCandidates

/-- What the two searches share: `accepts` tests a candidate and `batch` scores them. -/
def EntityIndex.findCandidates (x : EntityIndex ι) (e : Entity ι) (accepts : Entity ι → Bool)
    (batch : List (Entity ι) → List (ℕ × ℚ)) (maxCandidates minSharedTokens : ℕ)
    (skipIds : Finset ι) (ids : List ι) : List (Entity ι × ℚ) :=
  let valid := x.validCandidates accepts maxCandidates
    (x.sortedIds z e minSharedTokens skipIds ids)
  sortOn (fun r => OrderDual.toDual r.2)
    ((batch valid).filterMap (fun r => valid[r.1]?.map (fun candidate => (candidate,r.2))))

def otherName (e candidate : Entity ι) : Bool :=
  decide (candidate.entityType = e.entityType ∧
    z.normalizeEntityName candidate.name ≠ z.normalizeEntityName e.name)

def embedded (e candidate : Entity ι) : Bool :=
  candidate.embedding.isSome && decide (candidate.entityType = e.entityType)

def EntityIndex.findFuzzyCandidates (x : EntityIndex ι) (e : Entity ι) (threshold : ℚ)
    (maxCandidates minSharedTokens : ℕ) (skipIds : Finset ι) (ids : List ι) :
    List (Entity ι × ℚ) :=
  if tokenize z e.name = ∅ then []
  else x.findCandidates z e (otherName z e)
    (fun valid => batchLevenshtein z e.name (valid.map Entity.name) threshold) maxCandidates
    minSharedTokens skipIds ids

def EntityIndex.findEmbeddingCandidates (x : EntityIndex ι) (e : Entity ι) (threshold : ℚ)
    (maxCandidates : ℕ) (skipIds : Finset ι) (ids : List ι) : List (Entity ι × ℚ) :=
  match e.embedding with
  | none => []
  | some query => x.findCandidates z e (embedded e)
    (fun valid => batchDotProduct query (valid.map (fun c => c.embedding.getD [])) threshold)
    maxCandidates 1 skipIds ids

end Index

section Kept

variable {ι : Type} [DecidableEq ι] (z : Naming)

def firsts (es : List (Entity ι)) : List (Entity ι) :=
  es.foldl (fun kept e => if key z e ∈ kept.map (key z) then kept else kept++[e]) []

omit [DecidableEq ι] in
theorem firsts_append (es : List (Entity ι)) (e : Entity ι) :
    firsts z (es++[e]) =
      if key z e ∈ (firsts z es).map (key z) then firsts z es else firsts z es++[e] :=
  List.foldl_append

omit [DecidableEq ι] in
theorem firsts_sublist (es : List (Entity ι)) : List.Sublist (firsts z es) es := by
  induction es using List.reverseRecOn with
  | nil => exact List.Sublist.refl []
  | append_singleton es e ih =>
    rw [firsts_append]
    split_ifs
    · exact ih.trans (List.sublist_append_left es [e])
    · exact ih.append (List.Sublist.refl [e])

omit [DecidableEq ι] in
theorem firsts_keys (es : List (Entity ι)) :
    ((firsts z es).map (key z)).Nodup ∧ ∀ e ∈ es, key z e ∈ (firsts z es).map (key z) := by
  induction es using List.reverseRecOn with
  | nil => exact ⟨List.nodup_nil, by simp⟩
  | append_singleton es e ih =>
    obtain ⟨hn, hall⟩ := ih
    rw [firsts_append]
    split_ifs with hk
    · refine ⟨hn, fun e' he' => ?_⟩
      rcases List.mem_append.mp he' with he' | he'
      · exact hall e' he'
      · rwa [List.mem_singleton.mp he']
    · rw [List.map_append, List.map_singleton]
      refine ⟨List.nodup_append.mpr ⟨hn, List.nodup_singleton _, ?_⟩, fun e' he' => ?_⟩
      · rintro a ha b hb rfl
        exact hk (List.mem_singleton.mp hb ▸ ha)
      · rcases List.mem_append.mp he' with he' | he'
        · exact List.mem_append_left _ (hall e' he')
        · rw [List.mem_singleton.mp he']
          exact List.mem_append_right _ (List.mem_singleton_self _)

omit [DecidableEq ι] in
/-- The kept entity of a name and type is the first one met. -/
theorem firsts_find (es : List (Entity ι)) (k : Text × Text) :
    (firsts z es).find? (fun e => key z e = k) = es.find? (fun e => key z e = k) := by
  induction es using List.reverseRecOn with
  | nil => rfl
  | append_singleton es e ih =>
    rw [firsts_append, List.find?_append, ← ih]
    split_ifs with hk
    · cases hfind : (firsts z es).find? (fun e => key z e = k) with
      | some e' => rfl
      | none =>
        obtain ⟨e', he', hkey⟩ := List.mem_map.mp hk
        have hne : key z e ≠ k := by
          intro heq
          exact List.find?_eq_none.mp hfind e' he' (decide_eq_true (hkey.trans heq))
        rw [Option.none_or, List.find?_singleton, if_neg (by simpa using hne)]
    · rw [List.find?_append]

structure Indexes (x : EntityIndex ι) (kept : List (Entity ι)) : Prop where
  exact : ∀ k, x.exact.get k = kept.find? (fun e => key z e = k)
  token : ∀ t id, id ∈ x.token t ↔ ∃ e ∈ kept, e.id = id ∧ t ∈ tokenize z e.name
  type : ∀ t, x.type t = kept.filter (fun e => e.entityType = t)
  byId : x.byId.entries = kept.map (fun e => (e.id,e))

theorem add_indexes {x : EntityIndex ι} {kept : List (Entity ι)} (h : Indexes z x kept)
    {e : Entity ι} (hid : e.id ∉ kept.map Entity.id) :
    Indexes z (x.add z e).1 (if key z e ∈ kept.map (key z) then kept else kept++[e]) ∧
      (x.add z e).2 = kept.find? (fun e' => key z e' = key z e) := by
  unfold EntityIndex.add
  rw [h.exact]
  cases hfind : kept.find? (fun e' => key z e' = key z e) with
  | some existing =>
    have hmem : key z e ∈ kept.map (key z) := by
      have hkey := List.find?_some hfind
      rw [← of_decide_eq_true hkey]
      exact List.mem_map_of_mem (List.mem_of_find?_eq_some hfind)
    rw [if_pos hmem]
    exact ⟨h, rfl⟩
  | none =>
    have hmem : key z e ∉ kept.map (key z) := by
      rintro hmem
      obtain ⟨e', he', hkey⟩ := List.mem_map.mp hmem
      exact List.find?_eq_none.mp hfind e' he' (decide_eq_true hkey)
    rw [if_neg hmem]
    refine ⟨⟨?_, ?_, ?_, ?_⟩, rfl⟩
    · intro k
      show (x.exact.set (key z e) e).get k = _
      rw [Record.get_set, h.exact, List.find?_append, List.find?_singleton]
      by_cases hk : k = key z e
      · subst hk
        simp [hfind]
      · simp [hk, Ne.symm hk]
    · intro t id
      show id ∈ (if t ∈ tokenize z e.name then insert e.id (x.token t) else x.token t) ↔ _
      have hold := h.token t id
      simp only [List.mem_append, List.mem_singleton, or_and_right, exists_or, exists_eq_left]
      rw [← hold]
      split_ifs with ht
      · rw [Finset.mem_insert]
        simp [ht, or_comm, eq_comm]
      · simp [ht]
    · intro t
      show (if t = e.entityType then x.type t++[e] else x.type t) = _
      rw [List.filter_append, ← h.type]
      split_ifs with ht
      · simp [ht]
      · simp [Ne.symm ht]
    · show (x.byId.set e.id e).entries = _
      have hnew : e.id ∉ x.byId.entries.map Prod.fst := by
        rw [h.byId, List.map_map]
        exact hid
      rw [List.map_append, ← h.byId]
      exact assign_new _ _ _ hnew

theorem run_indexes {es : List (Entity ι)} (hids : (es.map Entity.id).Nodup) :
    Indexes z (EntityIndex.run z es) (firsts z es) := by
  induction es using List.reverseRecOn with
  | nil =>
    exact ⟨fun _ => rfl, by simp [EntityIndex.run, EntityIndex.empty, firsts], fun _ => rfl, rfl⟩
  | append_singleton es e ih =>
    rw [List.map_append, List.nodup_append] at hids
    have hid : e.id ∉ (firsts z es).map Entity.id := by
      intro hmem
      have hold := ((firsts_sublist z es).map Entity.id).subset hmem
      exact hids.2.2 _ hold _ (List.mem_singleton_self _) rfl
    rw [firsts_append, EntityIndex.run, List.foldl_append]
    exact (add_indexes z (ih hids.1) hid).1

theorem byId_iff {x : EntityIndex ι} {kept : List (Entity ι)} (h : Indexes z x kept) {id : ι}
    {e : Entity ι} : x.byId.get id = some e ↔ e ∈ kept ∧ e.id = id := by
  rw [← Record.mem_entries, h.byId, List.mem_map]
  constructor
  · rintro ⟨e', he', heq⟩
    cases heq
    exact ⟨he', rfl⟩
  · rintro ⟨he, rfl⟩
    exact ⟨e, he, rfl⟩

/-- Whatever has been added, every lookup is told from the first entity of each name and type. -/
theorem run_lookups {es : List (Entity ι)} (hids : (es.map Entity.id).Nodup) :
    let x := EntityIndex.run z es
    (∀ e, (x.add z e).2 = es.find? (fun e' => key z e' = key z e)) ∧
    (∀ name entityType, x.getByName z name entityType =
      es.find? (fun e => key z e = (z.normalizeEntityName name,entityType))) ∧
    (∀ id, x.get id = (firsts z es).find? (fun e => e.id = id)) ∧
    (∀ entityType, x.getEntitiesByType entityType =
      (firsts z es).filter (fun e => e.entityType = entityType)) ∧
    x.getAllEntities = firsts z es ∧
    x.byId.entries.length = (es.map (key z)).toFinset.card := by
  intro x
  have h : Indexes z x (firsts z es) := run_indexes z hids
  have hkept : ((firsts z es).map Entity.id).Nodup := hids.sublist ((firsts_sublist z es).map _)
  refine ⟨?_, ?_, ?_, h.type, ?_, ?_⟩
  · intro e
    have hadd : (x.add z e).2 = x.exact.get (key z e) := by
      unfold EntityIndex.add
      cases x.exact.get (key z e) with
      | some existing => rfl
      | none => rfl
    rw [hadd, h.exact, firsts_find]
  · intro name entityType
    exact (h.exact _).trans (firsts_find z es _)
  · intro id
    apply Option.ext
    intro e
    show x.byId.get id = some e ↔ _
    rw [byId_iff z h]
    constructor
    · rintro ⟨he, rfl⟩
      cases hfind : (firsts z es).find? (fun e' => e'.id = e.id) with
      | none => exact absurd (decide_eq_true rfl) (List.find?_eq_none.mp hfind e he)
      | some e' =>
        have hid := List.find?_some hfind
        rw [List.inj_on_of_nodup_map hkept (List.mem_of_find?_eq_some hfind) he
          (of_decide_eq_true hid)]
    · intro hfind
      have hid := List.find?_some hfind
      exact ⟨List.mem_of_find?_eq_some hfind, of_decide_eq_true hid⟩
  · show x.byId.entries.map Prod.snd = _
    rw [h.byId, List.map_map]
    exact List.map_id _
  · obtain ⟨hn, hall⟩ := firsts_keys z es
    rw [h.byId, List.length_map, ← List.length_map (key z), ← List.toFinset_card_of_nodup hn]
    congr 1
    ext k
    rw [List.mem_toFinset, List.mem_toFinset]
    constructor
    · exact fun hk => ((firsts_sublist z es).map (key z)).subset hk
    · intro hk
      obtain ⟨e, he, rfl⟩ := List.mem_map.mp hk
      exact hall e he

end Kept

section Candidates

variable {ι : Type} [DecidableEq ι] (z : Naming)

def shared (q e : Entity ι) : ℕ := (tokenize z q.name ∩ tokenize z e.name).card

def Eligible (accepts : Entity ι → Bool) (q : Entity ι) (minSharedTokens : ℕ)
    (skipIds : Finset ι) (e : Entity ι) : Prop :=
  e.id ≠ q.id ∧ e.id ∉ skipIds ∧ accepts e = true ∧ max 1 minSharedTokens ≤ shared z q e

instance (accepts : Entity ι → Bool) (q : Entity ι) (minSharedTokens : ℕ)
    (skipIds : Finset ι) : DecidablePred (Eligible z accepts q minSharedTokens skipIds) :=
  fun e => by
    unfold Eligible
    infer_instance

variable {z} {x : EntityIndex ι} {kept : List (Entity ι)} {q : Entity ι}

theorem overlap_le (h : Indexes z x kept) (hids : (kept.map Entity.id).Nodup) {e : Entity ι}
    (he : e ∈ kept) : x.overlap (tokenize z q.name) e.id ≤ shared z q e := by
  apply Finset.card_le_card
  intro t ht
  rw [Finset.mem_filter] at ht
  obtain ⟨e', he', hid, htoken⟩ := (h.token t e.id).mp ht.2.2
  rw [List.inj_on_of_nodup_map hids he' he hid] at htoken
  exact Finset.mem_inter.mpr ⟨ht.1, htoken⟩

theorem overlap_eq (h : Indexes z x kept) (hids : (kept.map Entity.id).Nodup)
    (hcap : ∀ t ∈ tokenize z q.name, (x.token t).card ≤ 500) {e : Entity ι} (he : e ∈ kept) :
    x.overlap (tokenize z q.name) e.id = shared z q e := by
  apply le_antisymm (overlap_le h hids he)
  apply Finset.card_le_card
  intro t ht
  rw [Finset.mem_inter] at ht
  exact Finset.mem_filter.mpr ⟨ht.1, hcap t ht.1, (h.token t e.id).mpr ⟨e, he, rfl, ht.2⟩⟩

theorem sharing_iff (tokens : Finset Text) (cid : ι) :
    cid ∈ x.sharing tokens ↔ 1 ≤ x.overlap tokens cid := by
  unfold EntityIndex.sharing EntityIndex.overlap
  rw [Nat.one_le_iff_ne_zero, Finset.card_ne_zero, Finset.mem_biUnion]
  constructor
  · rintro ⟨t, ht, hcid⟩
    rw [Finset.mem_filter] at ht
    exact ⟨t, Finset.mem_filter.mpr ⟨ht.1, ht.2, hcid⟩⟩
  · rintro ⟨t, ht⟩
    rw [Finset.mem_filter] at ht
    exact ⟨t, Finset.mem_filter.mpr ⟨ht.1, ht.2.1⟩, ht.2.2⟩

def EntityIndex.uncapped (x : EntityIndex ι) (accepts : Entity ι → Bool) (sortedIds : List ι) :
    List (Entity ι) :=
  sortedIds.filterMap (fun cid => (x.byId.get cid).filter accepts)

theorem mem_uncapped (h : Indexes z x kept) (accepts : Entity ι → Bool) (sortedIds : List ι)
    (e : Entity ι) : e ∈ x.uncapped accepts sortedIds ↔
      e ∈ kept ∧ e.id ∈ sortedIds ∧ accepts e = true := by
  unfold EntityIndex.uncapped
  simp only [List.mem_filterMap, Option.filter_eq_some_iff, byId_iff z h]
  constructor
  · rintro ⟨cid, hcid, ⟨he, rfl⟩, haccepts⟩
    exact ⟨he, hcid, haccepts⟩
  · rintro ⟨he, hid, haccepts⟩
    exact ⟨e.id, hid, ⟨he, rfl⟩, haccepts⟩

theorem nodup_uncapped (h : Indexes z x kept) {accepts : Entity ι → Bool} {sortedIds : List ι}
    (hn : sortedIds.Nodup) : (x.uncapped accepts sortedIds).Nodup := by
  apply hn.filterMap
  intro a b e ha hb
  rw [Option.mem_def, Option.filter_eq_some_iff, byId_iff z h] at ha hb
  rw [← ha.1.2, ← hb.1.2]

variable {minSharedTokens : ℕ} {skipIds : Finset ι} {ids : List ι}

theorem mem_sortedIds (hwalk : ids.toFinset = x.sharing (tokenize z q.name)) (cid : ι) :
    cid ∈ x.sortedIds z q minSharedTokens skipIds ids ↔ cid ≠ q.id ∧ cid ∉ skipIds ∧
      max 1 minSharedTokens ≤ x.overlap (tokenize z q.name) cid := by
  unfold EntityIndex.sortedIds
  rw [mem_sortOn, List.mem_filter, ← List.mem_toFinset, hwalk, sharing_iff, decide_eq_true_eq]
  constructor
  · rintro ⟨hone, hself, hskip, hmin⟩
    refine ⟨hself, hskip, ?_⟩
    by_cases hlt : 1 < minSharedTokens
    · exact max_le hone (hmin hlt)
    · omega
  · rintro ⟨hself, hskip, hmax⟩
    exact ⟨by omega, hself, hskip, fun _ => by omega⟩

variable {accepts : Entity ι → Bool}

theorem uncapped_eligible (h : Indexes z x kept) (hids : (kept.map Entity.id).Nodup)
    (hwalk : ids.toFinset = x.sharing (tokenize z q.name)) {e : Entity ι}
    (he : e ∈ x.uncapped accepts (x.sortedIds z q minSharedTokens skipIds ids)) :
    e ∈ kept ∧ Eligible z accepts q minSharedTokens skipIds e := by
  obtain ⟨hkept, hsorted, haccepts⟩ := (mem_uncapped h _ _ e).mp he
  obtain ⟨hself, hskip, hmax⟩ := (mem_sortedIds hwalk e.id).mp hsorted
  exact ⟨hkept, hself, hskip, haccepts, hmax.trans (overlap_le h hids hkept)⟩

/-- Below the cap on postings the candidates are those of a scan. -/
theorem uncapped_perm (h : Indexes z x kept) (hids : (kept.map Entity.id).Nodup)
    (hn : ids.Nodup) (hwalk : ids.toFinset = x.sharing (tokenize z q.name))
    (hcap : ∀ t ∈ tokenize z q.name, (x.token t).card ≤ 500) :
    (x.uncapped accepts (x.sortedIds z q minSharedTokens skipIds ids)).Perm
      (kept.filter (Eligible z accepts q minSharedTokens skipIds)) := by
  have hsorted : (x.sortedIds z q minSharedTokens skipIds ids).Nodup :=
    (sortOn_perm _ _).nodup_iff.mpr (hn.filter _)
  apply (List.perm_ext_iff_of_nodup (nodup_uncapped h hsorted) (hids.of_map.filter _)).mpr
  intro e
  rw [List.mem_filter, decide_eq_true_eq]
  refine ⟨uncapped_eligible h hids hwalk, ?_⟩
  rintro ⟨hkept, hself, hskip, haccepts, hmax⟩
  rw [← overlap_eq h hids hcap hkept] at hmax
  exact (mem_uncapped h _ _ e).mpr
    ⟨hkept, (mem_sortedIds hwalk e.id).mpr ⟨hself, hskip, hmax⟩, haccepts⟩

def scored (score : Entity ι → ℚ) (threshold : ℚ) (es : List (Entity ι)) : List (Entity ι × ℚ) :=
  es.filterMap (fun e => if threshold ≤ score e then some (e,score e) else none)

variable {score : Entity ι → ℚ} {threshold : ℚ}

omit [DecidableEq ι] in
theorem mem_scored {es : List (Entity ι)} {r : Entity ι × ℚ} :
    r ∈ scored score threshold es ↔ r.1 ∈ es ∧ r.2 = score r.1 ∧ threshold ≤ r.2 := by
  unfold scored
  simp only [List.mem_filterMap, Option.ite_none_right_eq_some, Option.some.injEq]
  constructor
  · rintro ⟨e, he, hle, rfl⟩
    exact ⟨he, rfl, hle⟩
  · obtain ⟨e, s⟩ := r
    rintro ⟨he, hs, hle⟩
    dsimp only at he hs hle
    subst hs
    exact ⟨e, he, hle, rfl⟩

omit [DecidableEq ι] in
theorem nodup_scored {es : List (Entity ι)} (hn : es.Nodup) :
    (scored score threshold es).Nodup := by
  apply hn.filterMap
  intro a b r ha hb
  rw [Option.mem_def, Option.ite_none_right_eq_some] at ha hb
  cases ha.2
  exact (Prod.mk.inj (Option.some.inj hb.2)).1.symm

omit [DecidableEq ι] in
/-- The batch of scores scores the entities that the scores are of. -/
theorem above_scored (valid : List (Entity ι)) :
    ((above (valid.map score) threshold).filterMap
      (fun r => valid[r.1]?.map (fun candidate => (candidate,r.2)))).Perm
      (scored score threshold valid) := by
  apply ((sortOn_perm _ _).filterMap _).trans
  have hfst : valid.zipIdx.map Prod.fst = valid := List.zipIdx_map_fst 0 valid
  have hrow : scored score threshold valid = valid.zipIdx.filterMap ((fun e =>
      if threshold ≤ score e then some (e,score e) else none) ∘ Prod.fst) := by
    rw [← List.filterMap_map, hfst]
    rfl
  rw [hrow, List.zipIdx_map, List.filterMap_map, List.filterMap_filterMap]
  apply List.Perm.of_eq
  apply List.filterMap_congr
  rintro ⟨e, i⟩ hmem
  have hget : valid[i]? = some e := List.mem_zipIdx_iff_getElem?.mp hmem
  dsimp only [Function.comp_apply, Prod.map]
  split_ifs
  · show Option.map _ valid[i]? = _
    rw [hget]
    rfl
  · rfl

/-- What a search through shared tokens finds, held against a scan of the kept entities: nothing
that the scan does not find, and below the caps on postings and candidates everything. -/
structure Scans (x : EntityIndex ι) (tokens : Finset Text) (maxCandidates : ℕ)
    (score : Entity ι → ℚ) (threshold : ℚ) (eligible : List (Entity ι))
    (found : List (Entity ι × ℚ)) : Prop where
  nodup : found.Nodup
  length : found.length ≤ maxCandidates
  falling : found.Pairwise (fun a b => b.2 ≤ a.2)
  sound : ∀ r ∈ found, r ∈ scored score threshold eligible
  complete : (∀ t ∈ tokens, (x.token t).card ≤ 500) → eligible.length ≤ maxCandidates →
    Arranged (fun a b => b.2 ≤ a.2) (scored score threshold eligible) found

theorem candidates_scan (h : Indexes z x kept) (hids : (kept.map Entity.id).Nodup)
    (hn : ids.Nodup) (hwalk : ids.toFinset = x.sharing (tokenize z q.name))
    {batch : List (Entity ι) → List (ℕ × ℚ)}
    (hbatch : ∀ valid, batch valid = above (valid.map score) threshold) (maxCandidates : ℕ) :
    Scans x (tokenize z q.name) maxCandidates score threshold
      (kept.filter (Eligible z accepts q minSharedTokens skipIds))
      (x.findCandidates z q accepts batch maxCandidates minSharedTokens skipIds ids) := by
  have hfound : Arranged (fun a b => b.2 ≤ a.2) (scored score threshold
      ((x.uncapped accepts (x.sortedIds z q minSharedTokens skipIds ids)).take maxCandidates))
      (x.findCandidates z q accepts batch maxCandidates minSharedTokens skipIds ids) := by
    refine ⟨(sortOn_perm _ _).trans ?_,
      sortOn_pairwise (fun r : Entity ι × ℚ => OrderDual.toDual r.2) _⟩
    rw [hbatch]
    exact above_scored _
  have hsorted : (x.sortedIds z q minSharedTokens skipIds ids).Nodup :=
    (sortOn_perm _ _).nodup_iff.mpr (hn.filter _)
  constructor
  · apply hfound.1.nodup_iff.mpr
    exact nodup_scored ((nodup_uncapped h hsorted).sublist (List.take_sublist _ _))
  · rw [hfound.1.length_eq]
    exact (List.length_filterMap_le _ _).trans (List.length_take_le _ _)
  · exact hfound.2
  · intro r hr
    obtain ⟨hmem, hscore⟩ := mem_scored.mp (hfound.1.mem_iff.mp hr)
    obtain ⟨hkept, heligible⟩ := uncapped_eligible h hids hwalk (List.mem_of_mem_take hmem)
    exact mem_scored.mpr ⟨List.mem_filter.mpr ⟨hkept, decide_eq_true heligible⟩, hscore⟩
  · intro hcap hlen
    have hperm : List.Perm _ (kept.filter (Eligible z accepts q minSharedTokens skipIds)) :=
      uncapped_perm h hids hn hwalk hcap
    rw [List.take_of_length_le (hperm.length_eq.trans_le hlen)] at hfound
    exact ⟨hfound.1.trans (hperm.filterMap _), hfound.2⟩

theorem fuzzy_scan (h : Indexes z x kept) (hids : (kept.map Entity.id).Nodup)
    (hn : ids.Nodup) (hwalk : ids.toFinset = x.sharing (tokenize z q.name)) (threshold : ℚ)
    (maxCandidates minSharedTokens : ℕ) (skipIds : Finset ι) :
    Scans x (tokenize z q.name) maxCandidates
      (fun e => z.levenshteinSimilarity q.name e.name) threshold
      (kept.filter (Eligible z (otherName z q) q minSharedTokens skipIds))
      (x.findFuzzyCandidates z q threshold maxCandidates minSharedTokens skipIds ids) := by
  have hfound : x.findFuzzyCandidates z q threshold maxCandidates minSharedTokens skipIds ids =
      x.findCandidates z q (otherName z q)
        (fun valid => batchLevenshtein z q.name (valid.map Entity.name) threshold) maxCandidates
        minSharedTokens skipIds ids := by
    unfold EntityIndex.findFuzzyCandidates
    split_ifs with hempty
    · have hnil : ids = [] := by
        rw [← List.toFinset_eq_empty_iff, hwalk, hempty]
        rfl
      have hvalid : x.validCandidates (otherName z q) maxCandidates
          (x.sortedIds z q minSharedTokens skipIds ids) = [] := by
        rw [hnil]
        exact List.take_nil
      unfold EntityIndex.findCandidates
      rw [hvalid]
      rfl
    · rfl
  rw [hfound]
  apply candidates_scan h hids hn hwalk
  intro valid
  unfold batchLevenshtein
  rw [List.map_map]
  rfl

theorem embedding_scan (h : Indexes z x kept) (hids : (kept.map Entity.id).Nodup)
    (hn : ids.Nodup) (hwalk : ids.toFinset = x.sharing (tokenize z q.name)) {query : List ℚ}
    (hquery : q.embedding = some query) (threshold : ℚ) (maxCandidates : ℕ)
    (skipIds : Finset ι) :
    Scans x (tokenize z q.name) maxCandidates (fun e => dot query (e.embedding.getD [])) threshold
      (kept.filter (Eligible z (embedded q) q 1 skipIds))
      (x.findEmbeddingCandidates z q threshold maxCandidates skipIds ids) := by
  unfold EntityIndex.findEmbeddingCandidates
  rw [hquery]
  apply candidates_scan h hids hn hwalk
  intro valid
  unfold batchDotProduct
  rw [List.map_map]
  rfl

/-- Both searches, whatever has been added. -/
theorem searches_scan {es : List (Entity ι)} (hes : (es.map Entity.id).Nodup) (q : Entity ι)
    (threshold : ℚ) (maxCandidates minSharedTokens : ℕ) (skipIds : Finset ι) {ids : List ι}
    (hn : ids.Nodup) (hwalk : ids.toFinset = (EntityIndex.run z es).sharing (tokenize z q.name)) :
    Scans (EntityIndex.run z es) (tokenize z q.name) maxCandidates
      (fun e => z.levenshteinSimilarity q.name e.name) threshold
      ((firsts z es).filter (Eligible z (otherName z q) q minSharedTokens skipIds))
      ((EntityIndex.run z es).findFuzzyCandidates z q threshold maxCandidates minSharedTokens
        skipIds ids) ∧
    ∀ query, q.embedding = some query →
      Scans (EntityIndex.run z es) (tokenize z q.name) maxCandidates
        (fun e => dot query (e.embedding.getD [])) threshold
        ((firsts z es).filter (Eligible z (embedded q) q 1 skipIds))
        ((EntityIndex.run z es).findEmbeddingCandidates z q threshold maxCandidates skipIds
          ids) := by
  have h := run_indexes z hes
  have hids : ((firsts z es).map Entity.id).Nodup := hes.sublist ((firsts_sublist z es).map _)
  exact ⟨fuzzy_scan h hids hn hwalk threshold maxCandidates minSharedTokens skipIds,
    fun query hquery => embedding_scan h hids hn hwalk hquery threshold maxCandidates skipIds⟩

end Candidates

section Three

def plainNames : Naming where
  normalizeEntityName name := name.map Char.toLower
  split name := name.splitOn ' '
  isalnum := Char.isAlphanum
  levenshteinSimilarity a b := if a.map Char.toLower = b.map Char.toLower then 1 else 9/10

def company (id : ℕ) (name : String) : Entity ℕ where
  id := id
  namespaceId := 0
  name := name.toList
  entityType := "ORG".toList
  description := []
  attributes := ∅
  sourceDocumentIds := []
  sourceChunkIds := []
  mentionCount := 1
  confidence := 1
  embedding := none

def companies : List (Entity ℕ) :=
  [company 1 "Acme corp",company 2 "acme CORP",company 3 "Acme corps"]

theorem run_lookups_three :
    (EntityIndex.run plainNames companies).byId.entries.length =
      (companies.map (key plainNames)).toFinset.card :=
  (run_lookups plainNames (by decide)).2.2.2.2.2

theorem searches_scan_three :
    Arranged (fun a b => b.2 ≤ a.2)
      (scored (fun e => plainNames.levenshteinSimilarity "Acme corp".toList e.name) (17/20)
        ((firsts plainNames companies).filter (Eligible plainNames
          (otherName plainNames (company 1 "Acme corp")) (company 1 "Acme corp") 1 ∅)))
      ((EntityIndex.run plainNames companies).findFuzzyCandidates plainNames
        (company 1 "Acme corp") (17/20) 100 1 ∅ [1,3]) :=
  (searches_scan (by decide) (company 1 "Acme corp") (17/20) 100 1 ∅ (by decide)
    (by decide +kernel)).1.complete (by decide +kernel) (by decide +kernel)

end Three

end Uru.Extraction.EntityBlocking
