import Uru.Lib.Listing
import Uru.Storage.TimestampText

/-!
# Filtered search over a window

A chunk store keeps its rows in SQLite and their embeddings in Lance. A vector
search takes a window of the nearest vectors of the namespace, joins the rows,
applies every other condition to what it found, and cuts the result at the
limit. The recency listing lets SQLite cut at the limit and filters afterwards.

Lance is exact: its answer is the start of a ranking of the vectors by
similarity. `astWhere` is the truth in SQLite of the `WHERE` fragment that
`compile_lance` emits, and may be any predicate of the row.
-/

set_option autoImplicit false

namespace Uru.Storage.FilteredSearch

open Uru.Lib Uru.Filter TimestampText

abbrev UUID := ℕ

class Keyed (C : Type) where
  id : C → UUID
  namespaceId : C → UUID
  documentId : C → UUID

structure Embedded (E : Type) where
  id : UUID
  namespaceId : UUID
  documentId : UUID
  vector : E

/-- The rows in SQLite and their vectors. A vector may have lost its row, and a
row may have no vector. -/
structure Tables (C E : Type) [Keyed C] where
  rows : List C
  vectors : List (Embedded E)
  row_ids : (rows.map Keyed.id).Nodup
  vector_ids : (vectors.map Embedded.id).Nodup
  keys : ∀ v ∈ vectors, ∀ c ∈ rows, Keyed.id c = v.id →
    Keyed.namespaceId c = v.namespaceId ∧ Keyed.documentId c = v.documentId

structure Hit (C σ : Type) where
  chunk : C
  similarity : σ

section Join

variable {C E σ : Type} [Keyed C] [LinearOrder σ]

def Tables.join (t : Tables C E) (similarity : E → σ) (v : Embedded E) : Option (Hit C σ) :=
  (t.rows.find? (fun c => Keyed.id c = v.id)).map (fun c => ⟨c,similarity v.vector⟩)

def Tables.hits (t : Tables C E) (similarity : E → σ) : List (Hit C σ) :=
  t.vectors.filterMap (t.join similarity)

def Nearer (h g : Hit C σ) : Prop := g.similarity ≤ h.similarity

instance : DecidableRel (Nearer (C := C) (σ := σ)) := fun h g => inferInstanceAs
  (Decidable (g.similarity ≤ h.similarity))

instance : IsTrans (Hit C σ) Nearer := ⟨fun _ _ _ hab hbc => le_trans hbc hab⟩

instance : Std.Total (Nearer (C := C) (σ := σ)) := ⟨fun h g => le_total g.similarity h.similarity⟩

/-- The selected vectors, the nearest first. -/
structure Ranking (t : Tables C E) (similarity : E → σ) (selected : Embedded E → Bool) where
  order : List (Embedded E)
  arranged : Arranged (fun v w => similarity w.vector ≤ similarity v.vector)
    (t.vectors.filter selected) order

/-- What the loop of a search goes through: the first vectors, joined with the
rows that the SQL conditions keep. -/
def found (t : Tables C E) (similarity : E → σ) (sql : C → Bool) (vs : List (Embedded E)) :
    List (Hit C σ) :=
  vs.filterMap (fun v =>
    (t.rows.find? (fun c => Keyed.id c = v.id && sql c)).map (fun c => ⟨c,similarity v.vector⟩))

/-- The loop: append what passes, and stop once there are `limit`. -/
def collect {α : Type} (test : α → Option Bool) (limit : ℕ) : ℕ → List α → Option (List α)
  | _, [] => some []
  | n, x::xs => (test x).bind (fun b =>
      if b then
        if limit ≤ n+1 then some [x] else (collect test limit (n+1) xs).map (fun out => x::out)
      else collect test limit n xs)

/-- The test answers on each row that comes before `k` accepted ones. -/
def Answered {α : Type} (test : α → Option Bool) : ℕ → List α → Prop
  | _, [] => True
  | k, x::xs => k = 0 ∨
      (∃ b, test x = some b) ∧ Answered test (if test x = some true then k-1 else k) xs

def accepts {α : Type} (test : α → Option Bool) (x : α) : Bool := test x = some true

theorem answered_zero {α : Type} (test : α → Option Bool) (xs : List α) : Answered test 0 xs := by
  cases xs with
  | nil => trivial
  | cons x xs => exact .inl rfl

theorem collect_iff {α : Type} (test : α → Option Bool) {limit n k : ℕ} (hk : n+(k+1) = max limit 1)
    (xs out : List α) : collect test limit n xs = some out ↔
      Answered test (k+1) xs ∧ out = (xs.filter (accepts test)).take (k+1) := by
  induction xs generalizing n k out with
  | nil => simp [collect, Answered, eq_comm]
  | cons x xs ih =>
    rcases hx : test x with _ | _ | _
    · simp [collect, Answered, hx]
    · have hacc : accepts test x = false := by simp [accepts, hx]
      simp [collect, Answered, hx, hacc, ih hk]
    · have hacc : accepts test x = true := by simp [accepts, hx]
      simp only [collect, Answered, hx, Option.bind_some, List.filter_cons, hacc, if_true]
      by_cases hl : limit ≤ n+1
      · obtain rfl : k = 0 := by omega
        simp [hl, answered_zero, eq_comm]
      · obtain ⟨j, rfl⟩ : ∃ j, k = j+1 := ⟨k-1, by omega⟩
        rw [if_neg hl, Option.map_eq_some_iff]
        simp only [ih (n := n+1) (k := j) (by omega)]
        simp [eq_comm]

theorem find_and (rows : List C) (hn : (rows.map Keyed.id).Nodup) (i : UUID) (sql : C → Bool) :
    rows.find? (fun c => Keyed.id c = i && sql c) =
      (rows.find? (fun c => Keyed.id c = i)).filter sql := by
  induction rows with
  | nil => rfl
  | cons c rows ih =>
    rw [List.map_cons, List.nodup_cons] at hn
    by_cases hi : Keyed.id c = i
    · rcases hs : sql c with _ | _
      · have hrest : rows.find? (fun c => Keyed.id c = i && sql c) = none := by
          rw [List.find?_eq_none]
          intro d hd hdi
          simp only [Bool.and_eq_true, decide_eq_true_eq] at hdi
          exact hn.1 (List.mem_map.mpr ⟨d, hd, hdi.1.trans hi.symm⟩)
        simp [hi, hs, hrest, Option.filter]
      · simp [hi, hs, Option.filter]
    · simp only [List.find?_cons, hi, decide_false, Bool.false_and, ih hn.2]

omit [LinearOrder σ] in
theorem found_eq (t : Tables C E) (similarity : E → σ) (sql : C → Bool) (vs : List (Embedded E)) :
    found t similarity sql vs = (vs.filterMap (t.join similarity)).filter (fun h => sql h.chunk) := by
  induction vs with
  | nil => rfl
  | cons v vs ih =>
    unfold found at ih ⊢
    rw [List.filterMap_cons, List.filterMap_cons, find_and t.rows t.row_ids, Tables.join]
    rcases t.rows.find? (fun c => Keyed.id c = v.id) with _ | c
    · simpa using ih
    · rcases hs : sql c with _ | _
      · simp [Option.filter, hs, ih]
      · simp [Option.filter, hs, ih]

omit [LinearOrder σ] in
theorem join_some {t : Tables C E} {similarity : E → σ} {v : Embedded E} {h : Hit C σ}
    (hj : t.join similarity v = some h) :
    h.chunk ∈ t.rows ∧ Keyed.id h.chunk = v.id ∧ h.similarity = similarity v.vector := by
  obtain ⟨c, hc, rfl⟩ := Option.map_eq_some_iff.mp hj
  exact ⟨List.mem_of_find?_eq_some hc, by simpa using List.find?_some hc, rfl⟩

theorem joined_sorted (t : Tables C E) (similarity : E → σ) {vs : List (Embedded E)}
    (hs : vs.Pairwise (fun v w => similarity w.vector ≤ similarity v.vector)) :
    (vs.filterMap (t.join similarity)).Pairwise Nearer := by
  rw [List.pairwise_filterMap]
  refine hs.imp (fun {v w} hvw h hj g hg => ?_)
  rw [Nearer, (join_some hj).2.2, (join_some hg).2.2]
  exact hvw

omit [LinearOrder σ] in
theorem joined_nodup (t : Tables C E) (similarity : E → σ) {vs : List (Embedded E)}
    (hn : (vs.map Embedded.id).Nodup) : (vs.filterMap (t.join similarity)).Nodup := by
  rw [List.Nodup, List.pairwise_filterMap]
  refine (List.pairwise_map.mp hn).imp (fun {v w} hvw h hj g hg he => hvw ?_)
  rw [← (join_some hj).2.1, ← (join_some hg).2.1, he]

omit [LinearOrder σ] in
theorem joined_keys {t : Tables C E} {similarity : E → σ} {v : Embedded E} (hv : v ∈ t.vectors)
    {h : Hit C σ} (hj : t.join similarity v = some h) :
    Keyed.namespaceId h.chunk = v.namespaceId ∧ Keyed.documentId h.chunk = v.documentId := by
  obtain ⟨hc, hi, -⟩ := join_some hj
  exact t.keys v hv h.chunk hc hi

/-- The hits of a search that keeps, of a window of the ranking, those that pass
are a page of the hits that satisfy the query exactly when each hit that
satisfies it and is not kept comes after as many kept ones as the limit allows. -/
theorem search_page_iff {t : Tables C E} {similarity : E → σ} {selected : Embedded E → Bool}
    (r : Ranking t similarity selected) (fetch n : ℕ) (sat kept : Hit C σ → Bool)
    (hkept : ∀ v ∈ t.vectors, selected v = true → ∀ h, t.join similarity v = some h →
      kept h = true → sat h = true) :
    Page Nearer ((t.hits similarity).filter sat) n 0
        ((((r.order.take fetch).filterMap (t.join similarity)).filter kept).take n) ↔
      ∀ h ∈ t.hits similarity, sat h = true →
        h ∉ ((r.order.take fetch).filterMap (t.join similarity)).filter kept →
        n ≤ (((r.order.take fetch).filterMap (t.join similarity)).filter kept).countP
          (fun g => Nearer g h) := by
  have hmem : ∀ v ∈ r.order.take fetch, v ∈ t.vectors ∧ selected v = true := fun v hv =>
    List.mem_filter.mp (r.arranged.1.mem_iff.mp (List.mem_of_mem_take hv))
  have hids : ((r.order.take fetch).map Embedded.id).Nodup := by
    have hsel : ((t.vectors.filter selected).map Embedded.id).Nodup :=
      t.vector_ids.sublist (List.filter_sublist.map _)
    exact ((r.arranged.1.map _).nodup_iff.mpr hsel).sublist ((List.take_sublist _ _).map _)
  refine kept_page_iff (joined_nodup t similarity t.vector_ids)
    ((joined_sorted t similarity (r.arranged.2.sublist (List.take_sublist _ _))).filter _)
    ((joined_nodup t similarity hids).filter _) (fun h hh => ?_) n
  obtain ⟨hh, hk⟩ := List.mem_filter.mp hh
  obtain ⟨v, hv, hj⟩ := List.mem_filterMap.mp hh
  exact ⟨List.mem_filterMap.mpr ⟨v, (hmem v hv).1, hj⟩, hkept v (hmem v hv).1 (hmem v hv).2 h hj hk⟩

end Join

/-- The bounds can be written: `_dt_to_iso` raises on none of them. -/
def written (a : TimestampText.Adapter) (bs : List (Bound Row DateTime)) : Bool :=
  bs.all (fun b => (a.write b.time).isSome)

def withinBounds {κ : Type} [LinearOrder κ] (key : DateTime → κ) (bs : List (Bound Row DateTime))
    (r : Row) : Bool := bs.all (fun b => b.holds key r)

/-- A row as the adapters write it: its timestamps are in UTC. -/
def UtcRow (r : Row) : Prop := ∀ col d, r.time col = some d → ∃ u : UtcTime, d = u.aware

theorem utcRow_accepts {a : TimestampText.Adapter} (ha : a.normalizes = true) {r : Row} (hr : UtcRow r)
    {cols : List Column} {d : DateTime} (h : coalesce cols r = some d) : a.accepts d := by
  obtain ⟨col, -, hd⟩ := List.exists_of_findSome?_eq_some h
  obtain ⟨u, rfl⟩ := hr col d hd
  rw [TimestampText.Adapter.accepts, normalized ha]
  rfl

theorem bounds_agree {a : TimestampText.Adapter} (ha : a.normalizes = true) {r : Row} (hr : UtcRow r)
    {bs : List (Bound Row DateTime)} (hw : written a bs = true)
    (hb : ∀ b ∈ bs, ∃ cols, b.axis = coalesce cols) :
    withinBounds a.text bs r = withinBounds DateTime.micros bs r := by
  have hold : ∀ b ∈ bs, b.holds a.text r = b.holds DateTime.micros r := by
    intro b hm
    obtain ⟨cols, hcols⟩ := hb b hm
    unfold Bound.holds
    rcases h : b.axis r with _ | d
    · rfl
    · exact rel_congr ((sameOrder_iff a (utcRow_accepts ha hr (by rw [← hcols, h]))
        (List.all_eq_true.mp hw b hm)).mpr (.inl ha)) b.rel
  unfold withinBounds
  rw [Bool.eq_iff_iff, List.all_eq_true, List.all_eq_true]
  exact forall₂_congr (fun b hm => by rw [hold b hm])

theorem bound_axis {cols : List Column} {rel : Rel} {t : Option DateTime} {b : Bound Row DateTime}
    (h : b ∈ bound cols rel t) : ∃ cols, b.axis = coalesce cols := by
  cases t with
  | none => cases h
  | some t =>
    rw [bound, List.mem_singleton] at h
    exact ⟨cols, by rw [h]⟩

structure TemporalChunk where
  id : UUID
  namespaceId : UUID
  documentId : UUID
  occurredAt : Option UtcTime
  sourceTimestamp : Option UtcTime
  createdAt : UtcTime
  sourceSystem : Option PyStr
  author : Option PyStr
  channel : Option PyStr
  tags : List PyStr
  texts : StringKey → Option PyStr
  metadata : Dict

namespace TemporalChunk

instance : Keyed TemporalChunk := ⟨id,namespaceId,documentId⟩

def row (c : TemporalChunk) : Row where
  time
    | .occurredAt => c.occurredAt.map UtcTime.aware
    | .sourceTimestamp => c.sourceTimestamp.map UtcTime.aware
    | .createdAt => some c.createdAt.aware
    | .updatedAt | .timestamp => none
  status := .completed

/-- What `compile_python` resolves on a decoded chunk. -/
def record (c : TemporalChunk) : Record where
  system
    | .date .occurredAt => (c.occurredAt.map UtcTime.val).getD .null
    | .date .sourceTimestamp => (c.sourceTimestamp.map UtcTime.val).getD .null
    | .date .createdAt => c.createdAt.val
    | .text k => ((c.texts k).map Val.str).getD .null
  metadata := c.metadata

theorem row_utc (c : TemporalChunk) : UtcRow c.row := by
  intro col d h
  cases col with
  | occurredAt | sourceTimestamp =>
    obtain ⟨u, -, rfl⟩ := Option.map_eq_some_iff.mp h
    exact ⟨u, rfl⟩
  | createdAt => exact ⟨c.createdAt, (Option.some.inj h).symm⟩
  | updatedAt | timestamp => cases h

end TemporalChunk

structure TemporalFilter extends ChunkTemporalFilter where
  sourceSystem : Option PyStr
  author : Option PyStr
  channel : Option PyStr
  tags : Option (List PyStr)

/-- An equality clause, left out when the filter's text is unset or empty. -/
def keyword : Option PyStr → Option PyStr → Bool
  | none, _ => true
  | some [], _ => true
  | some s, x => x = some s

def TemporalFilter.clauses (f : Option TemporalFilter) : List (Bound Row DateTime) :=
  f.elim [] (fun f => buildFilterClause f.toChunkTemporalFilter)

def TemporalFilter.keywords (f : Option TemporalFilter) (c : TemporalChunk) : Bool :=
  f.elim true (fun f => keyword f.sourceSystem c.sourceSystem && keyword f.author c.author &&
    keyword f.channel c.channel)

local instance lawful_tags : LawfulBEq PyStr := inferInstance

def TemporalFilter.tagged (f : Option TemporalFilter) (c : TemporalChunk) : Bool :=
  match f.bind TemporalFilter.tags with
  | none => true
  | some tags => tags.all (fun t => t ∈ c.tags)

def astPostFilter : Option Ast → TemporalChunk → Option Bool
  | none, _ => some true
  | some (.node _ []), _ => some true
  | some a, c => compilePython a c.record

theorem clauses_axis (f : Option TemporalFilter) :
    ∀ b ∈ TemporalFilter.clauses f, ∃ cols, b.axis = coalesce cols := by
  intro b hb
  rcases f with _ | f
  · cases hb
  · simp only [TemporalFilter.clauses, Option.elim, buildFilterClause, List.mem_append] at hb
    rcases hb with ((hb | hb) | hb) | hb
    · exact bound_axis hb
    · exact bound_axis hb
    · exact bound_axis hb
    · exact bound_axis hb

structure Query (σ : Type) where
  namespaceId : UUID
  limit : ℕ
  minSimilarity : σ
  temporalFilter : Option TemporalFilter
  filterAst : Option Ast

def inNamespace {E : Type} (ns : UUID) (v : Embedded E) : Bool := v.namespaceId = ns

section Temporal

variable {E σ : Type} [LinearOrder σ] {similarity : E → σ}
  (astWhere : Ast → TemporalChunk → Bool)

/-- `_build_ast_clause`, with the truth of its fragment on a row; its values are
ones that SQLite can bind. -/
def buildAstClause : Option Ast → TemporalChunk → Bool
  | none, _ => true
  | some (.node _ []), _ => true
  | some a, c => astWhere a c

def Query.sql (q : Query σ) (c : TemporalChunk) : Bool :=
  withinBounds (TimestampText.Adapter.text .temporal) (TemporalFilter.clauses q.temporalFilter) c.row &&
    TemporalFilter.keywords q.temporalFilter c && buildAstClause astWhere q.filterAst c

def Query.passes (q : Query σ) (h : Hit TemporalChunk σ) : Option Bool :=
  if h.similarity < q.minSimilarity then some false
  else if !TemporalFilter.tagged q.temporalFilter h.chunk then some false
  else astPostFilter q.filterAst h.chunk

def vectorSearch (t : Tables TemporalChunk E) (q : Query σ)
    (r : Ranking t similarity (inNamespace q.namespaceId)) (limit : ℕ) :
    Option (List (Hit TemporalChunk σ)) :=
  let rows := r.order.take (max (limit*4) 16)
  if rows.isEmpty then some []
  else if written .temporal (TemporalFilter.clauses q.temporalFilter) then
    collect q.passes limit 0 (found t similarity (q.sql astWhere) rows)
  else none

def search (t : Tables TemporalChunk E) (q : Query σ)
    (r : Ranking t similarity (inNamespace q.namespaceId)) : Option (List (Hit TemporalChunk σ)) :=
  (vectorSearch astWhere t q r q.limit).map (fun hits => hits.take q.limit)

/-- The namespace, the bounds on the instants, the keywords, the tags, the whole
filter tree and the floor. -/
def Query.satisfied (q : Query σ) (h : Hit TemporalChunk σ) : Bool :=
  h.chunk.namespaceId = q.namespaceId &&
    withinBounds DateTime.micros (TemporalFilter.clauses q.temporalFilter) h.chunk.row &&
    TemporalFilter.keywords q.temporalFilter h.chunk &&
    TemporalFilter.tagged q.temporalFilter h.chunk &&
    accepts (astPostFilter q.filterAst) h.chunk && q.minSimilarity ≤ h.similarity

/-- The hits of the window that pass everything. -/
def window (t : Tables TemporalChunk E) (q : Query σ)
    (r : Ranking t similarity (inNamespace q.namespaceId)) : List (Hit TemporalChunk σ) :=
  ((r.order.take (max (q.limit*4) 16)).filterMap (t.join similarity)).filter
    (fun h => q.sql astWhere h.chunk && accepts q.passes h)

/-- Nothing raises: the bounds can be written, and the filter tree answers on
each row of the window that comes before `limit` accepted ones. -/
def Unraised (t : Tables TemporalChunk E) (q : Query σ)
    (r : Ranking t similarity (inNamespace q.namespaceId)) : Prop :=
  r.order = [] ∨ written .temporal (TemporalFilter.clauses q.temporalFilter) = true ∧
    Answered q.passes (max q.limit 1)
      (found t similarity (q.sql astWhere) (r.order.take (max (q.limit*4) 16)))

theorem search_some (t : Tables TemporalChunk E) (q : Query σ)
    (r : Ranking t similarity (inNamespace q.namespaceId)) (out : List (Hit TemporalChunk σ)) :
    search astWhere t q r = some out ↔
      Unraised astWhere t q r ∧ out = (window astWhere t q r).take q.limit := by
  unfold search vectorSearch Unraised window
  by_cases ho : r.order = []
  · simp only [ho, List.take_nil, List.isEmpty_nil, if_true, Option.map_some, List.filterMap_nil,
      List.filter_nil, true_or, true_and, Option.some.injEq]
    exact eq_comm
  · have hne : (r.order.take (max (q.limit*4) 16)).isEmpty = false := by
      rw [List.isEmpty_eq_false_iff]
      intro h
      rcases List.take_eq_nil_iff.mp h with h | h
      · omega
      · exact ho h
    have hk : 0+((max q.limit 1-1)+1) = max q.limit 1 := by omega
    simp only [hne, Bool.false_eq_true, if_false, ho, false_or]
    by_cases hw : written .temporal (TemporalFilter.clauses q.temporalFilter) = true
    · rw [if_pos hw, Option.map_eq_some_iff]
      simp only [collect_iff q.passes hk, hw, true_and, found_eq, List.filter_filter, Bool.and_comm]
      have hone : max q.limit 1-1+1 = max q.limit 1 := by omega
      rw [hone]
      constructor
      · rintro ⟨hits, ⟨ha, rfl⟩, rfl⟩
        refine ⟨ha, ?_⟩
        rw [List.take_take, min_eq_left (le_max_left _ _)]
      · rintro ⟨ha, rfl⟩
        refine ⟨_, ⟨ha, rfl⟩, ?_⟩
        rw [List.take_take, min_eq_left (le_max_left _ _)]
    · rw [if_neg hw]
      simp [hw]

theorem passes_iff (q : Query σ) (h : Hit TemporalChunk σ) : accepts q.passes h = true ↔
    q.minSimilarity ≤ h.similarity ∧ TemporalFilter.tagged q.temporalFilter h.chunk = true ∧
      accepts (astPostFilter q.filterAst) h.chunk = true := by
  unfold accepts Query.passes
  by_cases hlt : h.similarity < q.minSimilarity
  · simp [hlt]
  · rcases ht : TemporalFilter.tagged q.temporalFilter h.chunk with _ | _
    · simp [hlt]
    · simp [hlt, not_lt.mp hlt]

theorem window_satisfied {t : Tables TemporalChunk E} {q : Query σ}
    (hw : written .temporal (TemporalFilter.clauses q.temporalFilter) = true) {v : Embedded E}
    (hv : v ∈ t.vectors) (hns : inNamespace q.namespaceId v = true) {h : Hit TemporalChunk σ}
    (hj : t.join similarity v = some h)
    (hk : (q.sql astWhere h.chunk && accepts q.passes h) = true) : q.satisfied h = true := by
  have hkeys : h.chunk.namespaceId = v.namespaceId := (joined_keys hv hj).1
  have hvns : v.namespaceId = q.namespaceId := of_decide_eq_true hns
  have hb := bounds_agree (a := .temporal) rfl h.chunk.row_utc hw (clauses_axis q.temporalFilter)
  simp only [Query.sql, hb, Bool.and_eq_true, passes_iff] at hk
  obtain ⟨⟨⟨hbounds, hkw⟩, -⟩, hfloor, htags, hast⟩ := hk
  simp only [Query.satisfied, Bool.and_eq_true, decide_eq_true_eq]
  exact ⟨⟨⟨⟨⟨hkeys.trans hvns, hbounds⟩, hkw⟩, htags⟩, hast⟩, hfloor⟩

/-- A search returns a page of the most similar chunks that satisfy the query,
up to the limit, exactly when nothing raises and each of these chunks that the
window, the fragment in SQLite or a check leaves out comes after `limit` others. -/
theorem search_iff (t : Tables TemporalChunk E) (q : Query σ)
    (r : Ranking t similarity (inNamespace q.namespaceId)) :
    (∃ out, search astWhere t q r = some out ∧
      Page Nearer ((t.hits similarity).filter q.satisfied) q.limit 0 out) ↔
      Unraised astWhere t q r ∧ ∀ h ∈ t.hits similarity, q.satisfied h = true →
        h ∉ window astWhere t q r →
        q.limit ≤ (window astWhere t q r).countP (fun g => Nearer g h) := by
  have hpage (hu : Unraised astWhere t q r) := search_page_iff r (max (q.limit*4) 16) q.limit
    q.satisfied (fun h => q.sql astWhere h.chunk && accepts q.passes h)
    (by
      intro v hv hns h hj hk
      rcases hu with hnil | ⟨hw, -⟩
      · have hmem : v ∈ r.order := r.arranged.1.mem_iff.mpr (List.mem_filter.mpr ⟨hv, hns⟩)
        rw [hnil] at hmem
        cases hmem
      · exact window_satisfied astWhere hw hv hns hj hk)
  constructor
  · rintro ⟨out, hs, hp⟩
    obtain ⟨hu, rfl⟩ := (search_some astWhere t q r out).mp hs
    exact ⟨hu, (hpage hu).mp hp⟩
  · rintro ⟨hu, hm⟩
    exact ⟨_, (search_some astWhere t q r _).mpr ⟨hu, rfl⟩, (hpage hu).mpr hm⟩

/-- The order of `COALESCE(occurred_at, source_timestamp, created_at) DESC`. -/
def recentFirst {κ : Type} [LinearOrder κ] (key : DateTime → κ) (a b : TemporalChunk) : Prop :=
  optionLe key (coalesce recency b.row) (coalesce recency a.row)

structure RecentQuery where
  namespaceId : UUID
  limit : ℕ
  createdAfter : Option DateTime
  filterAst : Option Ast

def RecentQuery.bounds (q : RecentQuery) : List (Bound Row DateTime) :=
  bound recency .ge q.createdAfter

def RecentQuery.sql (q : RecentQuery) (c : TemporalChunk) : Bool :=
  c.namespaceId = q.namespaceId && withinBounds (TimestampText.Adapter.text .temporal) q.bounds c.row &&
    buildAstClause astWhere q.filterAst c

structure RecentRanking (rows : List TemporalChunk) (sql : TemporalChunk → Bool) where
  order : List TemporalChunk
  arranged : Arranged (recentFirst (TimestampText.Adapter.text .temporal)) (rows.filter sql) order

def filterAll {α : Type} (test : α → Option Bool) : List α → Option (List α)
  | [] => some []
  | x::xs => (test x).bind (fun b => (filterAll test xs).map (fun out => if b then x::out else out))

def searchRecentChunks (t : Tables TemporalChunk E) (q : RecentQuery)
    (r : RecentRanking t.rows (q.sql astWhere)) : Option (List TemporalChunk) :=
  if written .temporal q.bounds then filterAll (astPostFilter q.filterAst) (r.order.take q.limit)
  else none

def RecentQuery.satisfied (q : RecentQuery) (c : TemporalChunk) : Bool :=
  c.namespaceId = q.namespaceId && withinBounds DateTime.micros q.bounds c.row &&
    accepts (astPostFilter q.filterAst) c

theorem filterAll_some {α : Type} (test : α → Option Bool) (xs out : List α) :
    filterAll test xs = some out ↔
      (∀ x ∈ xs, ∃ b, test x = some b) ∧ out = xs.filter (accepts test) := by
  induction xs generalizing out with
  | nil => simp [filterAll, eq_comm]
  | cons x xs ih =>
    rcases hx : test x with _ | _ | _
    · simp [filterAll, hx]
    · simp [filterAll, hx, accepts, ih]
    · have hacc : accepts test x = true := by simp [accepts, hx]
      simp only [filterAll, hx, Option.bind_some, if_true, Option.map_eq_some_iff, ih,
        List.filter_cons, hacc, List.forall_mem_cons, Option.some.injEq, exists_eq', true_and]
      constructor
      · rintro ⟨ys, ⟨hxs, rfl⟩, rfl⟩
        exact ⟨hxs, rfl⟩
      · rintro ⟨hxs, rfl⟩
        exact ⟨_, ⟨hxs, rfl⟩, rfl⟩

instance : DecidableRel (recentFirst DateTime.micros) := fun a b =>
  optionLeDecidable _ (coalesce recency b.row) (coalesce recency a.row)

instance : IsTrans TemporalChunk (recentFirst DateTime.micros) :=
  ⟨fun _ _ _ hab hbc => optionLe_trans _ hbc hab⟩

instance : Std.Total (recentFirst DateTime.micros) := ⟨fun _ _ => optionLe_total _ _ _⟩

/-- The texts of the rows list them in the order of their instants. -/
theorem recentFirst_agree (a b : TemporalChunk) :
    recentFirst (TimestampText.Adapter.text .temporal) a b ↔ recentFirst DateTime.micros a b :=
  optionLe_congr (fun _ hd _ he => (sameOrder_iff .temporal (utcRow_accepts rfl b.row_utc hd)
    (utcRow_accepts rfl a.row_utc he)).mpr (.inl rfl))

def recentWindow {rows : List TemporalChunk} (q : RecentQuery)
    (r : RecentRanking rows (q.sql astWhere)) : List TemporalChunk :=
  (r.order.take q.limit).filter (accepts (astPostFilter q.filterAst))

theorem search_recent_some (t : Tables TemporalChunk E) (q : RecentQuery)
    (r : RecentRanking t.rows (q.sql astWhere)) (out : List TemporalChunk) :
    searchRecentChunks astWhere t q r = some out ↔ (written .temporal q.bounds = true ∧
      ∀ c ∈ r.order.take q.limit, ∃ b, astPostFilter q.filterAst c = some b) ∧
      out = (recentWindow astWhere q r).take q.limit := by
  have hlen : (recentWindow astWhere q r).length ≤ q.limit :=
    (List.length_filter_le _ _).trans (List.length_take_le _ _)
  unfold searchRecentChunks
  rw [List.take_of_length_le hlen]
  by_cases hw : written .temporal q.bounds = true
  · rw [if_pos hw, filterAll_some]
    simp only [hw, true_and]
    rfl
  · rw [if_neg hw]
    simp [hw]

/-- The recency listing returns a page of the most recent chunks that satisfy
the query, up to the limit, exactly when nothing raises and each of these chunks
that the limit of SQLite or its fragment leaves out comes after `limit` others. -/
theorem search_recent_iff (t : Tables TemporalChunk E) (q : RecentQuery)
    (r : RecentRanking t.rows (q.sql astWhere)) :
    (∃ out, searchRecentChunks astWhere t q r = some out ∧
      Page (recentFirst DateTime.micros) (t.rows.filter q.satisfied) q.limit 0 out) ↔
      (written .temporal q.bounds = true ∧
        ∀ c ∈ r.order.take q.limit, ∃ b, astPostFilter q.filterAst c = some b) ∧
      ∀ c ∈ t.rows, q.satisfied c = true → c ∉ recentWindow astWhere q r →
        q.limit ≤ (recentWindow astWhere q r).countP (fun d => recentFirst DateTime.micros d c) := by
  have hsub : (recentWindow astWhere q r).Sublist r.order :=
    List.filter_sublist.trans (List.take_sublist _ _)
  have hrows : t.rows.Nodup := List.Nodup.of_map _ t.row_ids
  have hsorted : (recentWindow astWhere q r).Pairwise (recentFirst DateTime.micros) :=
    (r.arranged.2.sublist hsub).imp (fun {a b} h => (recentFirst_agree a b).mp h)
  have hnodup : (recentWindow astWhere q r).Nodup :=
    (r.arranged.1.nodup_iff.mpr (hrows.filter _)).sublist hsub
  have hkept (hw : written .temporal q.bounds = true) : ∀ c ∈ recentWindow astWhere q r,
      c ∈ t.rows ∧ q.satisfied c = true := by
    intro c hc
    obtain ⟨hrow, hsql⟩ := List.mem_filter.mp (r.arranged.1.mem_iff.mp (hsub.mem hc))
    have hb := bounds_agree (a := .temporal) rfl c.row_utc hw (fun b hb => bound_axis hb)
    simp only [RecentQuery.sql, hb, Bool.and_eq_true] at hsql
    refine ⟨hrow, ?_⟩
    simp only [RecentQuery.satisfied, Bool.and_eq_true]
    exact ⟨hsql.1, (List.mem_filter.mp hc).2⟩
  constructor
  · rintro ⟨out, hs, hp⟩
    obtain ⟨hu, rfl⟩ := (search_recent_some astWhere t q r out).mp hs
    exact ⟨hu, (kept_page_iff hrows hsorted hnodup (hkept hu.1) q.limit).mp hp⟩
  · rintro ⟨hu, hm⟩
    exact ⟨_, (search_recent_some astWhere t q r _).mpr ⟨hu, rfl⟩,
      (kept_page_iff hrows hsorted hnodup (hkept hu.1) q.limit).mpr hm⟩

end Temporal

structure Chunk where
  id : UUID
  namespaceId : UUID
  documentId : UUID
  sourceTimestamp : Option UtcTime
  createdAt : UtcTime

namespace Chunk

instance : Keyed Chunk := ⟨id,namespaceId,documentId⟩

def row (c : Chunk) : Row where
  time
    | .sourceTimestamp => c.sourceTimestamp.map UtcTime.aware
    | .createdAt => some c.createdAt.aware
    | .occurredAt | .updatedAt | .timestamp => none
  status := .completed

theorem row_utc (c : Chunk) : UtcRow c.row := by
  intro col d h
  cases col with
  | sourceTimestamp =>
    obtain ⟨u, -, rfl⟩ := Option.map_eq_some_iff.mp h
    exact ⟨u, rfl⟩
  | createdAt => exact ⟨c.createdAt, (Option.some.inj h).symm⟩
  | occurredAt | updatedAt | timestamp => cases h

end Chunk

structure SimilarQuery (σ : Type) where
  namespaceId : UUID
  limit : ℕ
  minSimilarity : σ
  filterDocumentIds : Option (List UUID)
  createdAfter : Option DateTime
  createdBefore : Option DateTime

section Similar

variable {E σ : Type} [LinearOrder σ] {similarity : E → σ}

def inDocuments : Option (List UUID) → UUID → Bool
  | none, _ => true
  | some [], _ => true
  | some ids, d => d ∈ ids

def SimilarQuery.selects (q : SimilarQuery σ) (v : Embedded E) : Bool :=
  v.namespaceId = q.namespaceId && inDocuments q.filterDocumentIds v.documentId

def SimilarQuery.bounds (q : SimilarQuery σ) : List (Bound Row DateTime) :=
  bound [.sourceTimestamp,.createdAt] .ge q.createdAfter++
    bound [.sourceTimestamp,.createdAt] .le q.createdBefore

def SimilarQuery.sql (q : SimilarQuery σ) (c : Chunk) : Bool :=
  c.namespaceId = q.namespaceId && withinBounds (TimestampText.Adapter.text .vector) q.bounds c.row

def SimilarQuery.near (q : SimilarQuery σ) (h : Hit Chunk σ) : Bool :=
  q.minSimilarity ≤ h.similarity

def searchSimilar (t : Tables Chunk E) (q : SimilarQuery σ) (r : Ranking t similarity q.selects) :
    Option (List (Hit Chunk σ)) :=
  let results := r.order.take (max q.limit 1*2)
  if results.isEmpty then some []
  else if written .vector q.bounds then
    collect (fun h => some (q.near h)) q.limit 0 (found t similarity q.sql results)
  else none

def SimilarQuery.satisfied (q : SimilarQuery σ) (h : Hit Chunk σ) : Bool :=
  h.chunk.namespaceId = q.namespaceId && inDocuments q.filterDocumentIds h.chunk.documentId &&
    withinBounds DateTime.micros q.bounds h.chunk.row && q.near h

def similarWindow (t : Tables Chunk E) (q : SimilarQuery σ) (r : Ranking t similarity q.selects) :
    List (Hit Chunk σ) :=
  ((r.order.take (max q.limit 1*2)).filterMap (t.join similarity)).filter
    (fun h => q.sql h.chunk && q.near h)

theorem answered_total {α : Type} (p : α → Bool) (k : ℕ) (xs : List α) :
    Answered (fun x => some (p x)) k xs := by
  induction xs generalizing k with
  | nil => trivial
  | cons x xs ih => exact .inr ⟨⟨p x, rfl⟩, ih _⟩

theorem accepts_total {α : Type} (p : α → Bool) : accepts (fun x => some (p x)) = p := by
  funext x
  simp [accepts]

theorem searchSimilar_some (t : Tables Chunk E) (q : SimilarQuery σ)
    (r : Ranking t similarity q.selects) (out : List (Hit Chunk σ)) :
    searchSimilar t q r = some out ↔ (r.order = [] ∨ written .vector q.bounds = true) ∧
      out = (similarWindow t q r).take (max q.limit 1) := by
  unfold searchSimilar similarWindow
  by_cases ho : r.order = []
  · simp only [ho, List.take_nil, List.isEmpty_nil, if_true, List.filterMap_nil, List.filter_nil,
      true_or, true_and, Option.some.injEq]
    exact eq_comm
  · have hne : (r.order.take (max q.limit 1*2)).isEmpty = false := by
      rw [List.isEmpty_eq_false_iff]
      intro h
      rcases List.take_eq_nil_iff.mp h with h | h
      · omega
      · exact ho h
    have hk : 0+((max q.limit 1-1)+1) = max q.limit 1 := by omega
    have hone : max q.limit 1-1+1 = max q.limit 1 := by omega
    simp only [hne, Bool.false_eq_true, if_false, ho, false_or]
    by_cases hw : written .vector q.bounds = true
    · rw [if_pos hw, collect_iff _ hk, accepts_total, found_eq, List.filter_filter, hone]
      simp only [answered_total, hw, true_and, Bool.and_comm]
    · rw [if_neg hw]
      simp [hw]

theorem similar_satisfied {t : Tables Chunk E} {q : SimilarQuery σ}
    (hw : written .vector q.bounds = true) {v : Embedded E} (hv : v ∈ t.vectors)
    (hsel : q.selects v = true) {h : Hit Chunk σ} (hj : t.join similarity v = some h)
    (hk : (q.sql h.chunk && q.near h) = true) : q.satisfied h = true := by
  have hdoc : h.chunk.documentId = v.documentId := (joined_keys hv hj).2
  have hb := bounds_agree (a := .vector) rfl h.chunk.row_utc hw (fun b hb =>
    (List.mem_append.mp hb).elim bound_axis bound_axis)
  simp only [SimilarQuery.sql, hb, Bool.and_eq_true] at hk
  simp only [SimilarQuery.selects, Bool.and_eq_true] at hsel
  simp only [SimilarQuery.satisfied, Bool.and_eq_true]
  exact ⟨⟨⟨hk.1.1, hdoc ▸ hsel.2⟩, hk.1.2⟩, hk.2⟩

/-- The adapter's search does as well, but a limit of zero does not stop it
before the first hit. -/
theorem searchSimilar_iff (t : Tables Chunk E) (q : SimilarQuery σ)
    (r : Ranking t similarity q.selects) :
    (∃ out, searchSimilar t q r = some out ∧
      Page Nearer ((t.hits similarity).filter q.satisfied) q.limit 0 out) ↔
      (r.order = [] ∨ written .vector q.bounds = true) ∧
        (q.limit = 0 → similarWindow t q r = []) ∧
        ∀ h ∈ t.hits similarity, q.satisfied h = true → h ∉ similarWindow t q r →
          q.limit ≤ (similarWindow t q r).countP (fun g => Nearer g h) := by
  have hpage (hu : r.order = [] ∨ written .vector q.bounds = true) :=
    search_page_iff r (max q.limit 1*2) q.limit q.satisfied
      (fun h => q.sql h.chunk && q.near h)
      (by
        intro v hv hsel h hj hk
        rcases hu with hnil | hw
        · have hmem : v ∈ r.order := r.arranged.1.mem_iff.mpr (List.mem_filter.mpr ⟨hv, hsel⟩)
          rw [hnil] at hmem
          cases hmem
        · exact similar_satisfied hw hv hsel hj hk)
  rcases Nat.eq_zero_or_pos q.limit with hz | hpos
  · obtain ⟨l, hl⟩ : ∃ l, Arranged Nearer ((t.hits similarity).filter q.satisfied) l :=
      exists_arranged _
    simp only [searchSimilar_some, hz, Nat.zero_le, implies_true, and_true, forall_const]
    constructor
    · rintro ⟨out, ⟨hu, rfl⟩, m, -, he⟩
      exact ⟨hu, by simpa using he⟩
    · rintro ⟨hu, hnil⟩
      exact ⟨_, ⟨hu, rfl⟩, l, hl, by simp [hnil]⟩
  · have hmax : max q.limit 1 = q.limit := by omega
    have hne : q.limit ≠ 0 := by omega
    simp only [searchSimilar_some, hmax, hne, false_implies, true_and]
    constructor
    · rintro ⟨out, ⟨hu, rfl⟩, hp⟩
      exact ⟨hu, (hpage hu).mp hp⟩
    · rintro ⟨hu, hm⟩
      exact ⟨_, ⟨hu, rfl⟩, (hpage hu).mpr hm⟩

end Similar

/-- Every search returns the true top results exactly when nothing raises and
no chunk that satisfies the query is left out by the window, by the limit of
SQLite or by the fragment in SQLite while fewer than `limit` kept ones come
before it. The vector adapter moreover needs a positive limit, or nothing to
return. -/
theorem filtered_search_iff {E σ : Type} [LinearOrder σ] {similarity : E → σ}
    (astWhere : Ast → TemporalChunk → Bool) :
    (∀ (t : Tables TemporalChunk E) (q : Query σ)
      (r : Ranking t similarity (inNamespace q.namespaceId)),
      (∃ out, search astWhere t q r = some out ∧
        Page Nearer ((t.hits similarity).filter q.satisfied) q.limit 0 out) ↔
        Unraised astWhere t q r ∧ ∀ h ∈ t.hits similarity, q.satisfied h = true →
          h ∉ window astWhere t q r →
          q.limit ≤ (window astWhere t q r).countP (fun g => Nearer g h)) ∧
    (∀ (t : Tables TemporalChunk E) (q : RecentQuery) (r : RecentRanking t.rows (q.sql astWhere)),
      (∃ out, searchRecentChunks astWhere t q r = some out ∧
        Page (recentFirst DateTime.micros) (t.rows.filter q.satisfied) q.limit 0 out) ↔
        (written .temporal q.bounds = true ∧
          ∀ c ∈ r.order.take q.limit, ∃ b, astPostFilter q.filterAst c = some b) ∧
        ∀ c ∈ t.rows, q.satisfied c = true → c ∉ recentWindow astWhere q r →
          q.limit ≤ (recentWindow astWhere q r).countP
            (fun d => recentFirst DateTime.micros d c)) ∧
    ∀ (t : Tables Chunk E) (q : SimilarQuery σ) (r : Ranking t similarity q.selects),
      (∃ out, searchSimilar t q r = some out ∧
        Page Nearer ((t.hits similarity).filter q.satisfied) q.limit 0 out) ↔
        (r.order = [] ∨ written .vector q.bounds = true) ∧
          (q.limit = 0 → similarWindow t q r = []) ∧
          ∀ h ∈ t.hits similarity, q.satisfied h = true → h ∉ similarWindow t q r →
            q.limit ≤ (similarWindow t q r).countP (fun g => Nearer g h) :=
  ⟨fun t q r => search_iff astWhere t q r, fun t q r => search_recent_iff astWhere t q r,
    fun t q r => searchSimilar_iff t q r⟩

def writtenBy (author : PyStr) (id : UUID) : TemporalChunk where
  id := id
  namespaceId := 0
  documentId := id
  occurredAt := none
  sourceTimestamp := none
  createdAt := ⟨⟨2024, 1, 1, 0, 0, 0, 0⟩, newYear_valid⟩
  sourceSystem := none
  author := some author
  channel := none
  tags := []
  texts := fun _ => none
  metadata := []

def embedded (id : UUID) : Embedded ℕ := ⟨id, 0, id, 100-id⟩

/-- Sixteen chunks by others that are nearer to the query than the one by `ann`. -/
def crowded : Tables TemporalChunk ℕ where
  rows := (List.range 16).map (writtenBy (py "bob"))++[writtenBy (py "ann") 16]
  vectors := (List.range 17).map embedded
  row_ids := by decide
  vector_ids := by decide
  keys := by
    intro v hv c hc hi
    have hns : Keyed.namespaceId c = 0 ∧ Keyed.documentId c = Keyed.id c := by
      rcases List.mem_append.mp hc with hc | hc
      · obtain ⟨i, -, rfl⟩ := List.mem_map.mp hc
        exact ⟨rfl, rfl⟩
      · rw [List.mem_singleton.mp hc]
        exact ⟨rfl, rfl⟩
    obtain ⟨i, -, rfl⟩ := List.mem_map.mp hv
    exact ⟨hns.1, hns.2.trans hi⟩

def byAnn : Query ℕ where
  namespaceId := 0
  limit := 1
  minSimilarity := 0
  temporalFilter := some ⟨⟨none, none, none, none⟩, none, some (py "ann"), none, none⟩
  filterAst := none

def crowdedRanking : Ranking crowded id (inNamespace byAnn.namespaceId) where
  order := crowded.vectors
  arranged := by
    have hall : crowded.vectors.filter (inNamespace byAnn.namespaceId) = crowded.vectors := rfl
    exact ⟨by rw [hall], by decide⟩

def noFragment (_ : Ast) (_ : TemporalChunk) : Bool := true

/-- One chunk satisfies the query, and the search finds none. -/
theorem crowded_out :
    search noFragment crowded byAnn crowdedRanking = some [] ∧
      ((crowded.hits id).filter byAnn.satisfied).length = 1 ∧
      ¬ ∃ out, search noFragment crowded byAnn crowdedRanking = some out ∧
        Page Nearer ((crowded.hits id).filter byAnn.satisfied) byAnn.limit 0 out := by
  have hlen : (search noFragment crowded byAnn crowdedRanking).map List.length = some 0 := by
    decide
  have hone : ((crowded.hits id).filter byAnn.satisfied).length = 1 := by decide
  have hnone : search noFragment crowded byAnn crowdedRanking = some [] := by
    obtain ⟨out, ho, hl⟩ := Option.map_eq_some_iff.mp hlen
    rw [ho, List.length_eq_zero_iff.mp hl]
  refine ⟨hnone, hone, ?_⟩
  rintro ⟨out, ho, hp⟩
  have hpage := page_length hp
  rw [hone, ← Option.some.inj (hnone.symm.trans ho)] at hpage
  exact absurd hpage (by decide)

end Uru.Storage.FilteredSearch
