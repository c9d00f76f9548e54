import Uru.Lib.Listing
import Uru.Filter.Oracle
import Uru.Filter.TextOrder
import Uru.Ingest.Staging

/-!
# Timestamps as text in SQLite

The adapters store timestamps as ISO texts and leave it to SQLite to compare
them. The two chunk stores of the embedded backend bring a timestamp to UTC
before they write it. The graph, the event log and the plain SQLite backend
write the local clock with its offset, or a naive clock without one. The text
of a bound is written like the texts it is compared with.
-/

set_option autoImplicit false

namespace Uru.Storage.TimestampText

open Uru.Lib Uru.Filter

def dtToIso (dt : DateTime) : Option PyStr := dt.toUtc.map UtcTime.isoformat

/-- `_dt_to_str` of the vector adapter: `astimezone(UTC)` on an aware
datetime, `replace(tzinfo=UTC)` on a naive one. -/
def dtToStr (dt : DateTime) : Option PyStr :=
  match dt.offset with
  | some _ => dt.toUtc.map UtcTime.isoformat
  | none => some dt.clock.isoformat

def iso8601 (dt : DateTime) : Option PyStr := some dt.isoformat

inductive Adapter
  | temporal
  | vector
  | graph
  | eventStore
  | sqlite
deriving DecidableEq

def Adapter.write : Adapter → DateTime → Option PyStr
  | .temporal => dtToIso
  | .vector => dtToStr
  | .graph | .eventStore | .sqlite => iso8601

/-- The adapters that bring timestamps to UTC. -/
def Adapter.normalizes : Adapter → Bool
  | .temporal | .vector => true
  | .graph | .eventStore | .sqlite => false

def Adapter.accepts (a : Adapter) (dt : DateTime) : Prop := (a.write dt).isSome

def Adapter.text (a : Adapter) (dt : DateTime) : PyStr := (a.write dt).getD []

inductive Column
  | occurredAt
  | sourceTimestamp
  | createdAt
  | updatedAt
  | timestamp
deriving DecidableEq

/-- A row that satisfies the conditions of a query other than those on times
and on the status of a document. -/
structure Row where
  time : Column → Option DateTime
  status : Ingest.DocumentStatus

def coalesce (cols : List Column) (r : Row) : Option DateTime := cols.findSome? r.time

def bound (cols : List Column) (rel : Rel) : Option DateTime → List (Bound Row DateTime)
  | none => []
  | some t => [⟨coalesce cols,rel,t⟩]

structure ChunkTemporalFilter where
  occurredAfter : Option DateTime
  occurredBefore : Option DateTime
  createdAfter : Option DateTime
  createdBefore : Option DateTime

/-- The clauses on times of `_build_filter_clause`. -/
def buildFilterClause (f : ChunkTemporalFilter) : List (Bound Row DateTime) :=
  bound [.occurredAt] .ge f.occurredAfter++bound [.occurredAt] .lt f.occurredBefore++
    bound [.createdAt] .ge f.createdAfter++bound [.createdAt] .lt f.createdBefore

inductive Request
  | chunkWindow (f : ChunkTemporalFilter)
  | searchRecentChunks (createdAfter : Option DateTime) (limit : ℕ)
  | searchWindow (createdAfter createdBefore : Option DateTime)
  | listChunks (limit offset : ℕ)
  | listByCreation (limit offset : ℕ)
  | listEpisodes (startTime endTime : Option DateTime) (limit : ℕ)
  | getEvents (after before : Option DateTime) (limit offset : ℕ)
  | getResourceEvents (limit : ℕ)
  | countEvents (after : Option DateTime)
  | listDocuments (updatedBefore : Option DateTime) (limit offset : ℕ)
  | claimOrphanedDocuments (pendingBefore processingBefore : DateTime) (limit : ℕ)

/-- `listByCreation` stands for the listings of entities and relationships,
and `getResourceEvents` with limit 1 is `get_latest_event`. The listings of
namespaces and chunks of the plain backend are `list_documents` without a
bound. -/
def Request.adapter : Request → Adapter
  | chunkWindow _ | searchRecentChunks _ _ => .temporal
  | searchWindow _ _ | listChunks _ _ => .vector
  | listByCreation _ _ | listEpisodes _ _ _ => .graph
  | getEvents _ _ _ _ | getResourceEvents _ | countEvents _ => .eventStore
  | listDocuments _ _ _ | claimOrphanedDocuments _ _ _ => .sqlite

def within (bounds : List (Bound Row DateTime)) : Listing Row DateTime where
  bounds := fun _ => some bounds
  order := fun _ => none
  descending := false
  limit := none
  offset := 0

def latest (bounds : List (Bound Row DateTime)) (cols : List Column) (limit offset : ℕ) :
    Listing Row DateTime where
  bounds := fun _ => some bounds
  order := coalesce cols
  descending := true
  limit := some limit
  offset := offset

def recency : List Column := [.occurredAt,.sourceTimestamp,.createdAt]

def Request.listing : Request → Listing Row DateTime
  | chunkWindow f => within (buildFilterClause f)
  | searchRecentChunks after limit => latest (bound recency .ge after) recency limit 0
  | searchWindow after before =>
    within (bound [.sourceTimestamp,.createdAt] .ge after++
      bound [.sourceTimestamp,.createdAt] .le before)
  | listChunks limit offset | listByCreation limit offset => latest [] [.createdAt] limit offset
  | listEpisodes start end_ limit =>
    latest (bound [.occurredAt] .ge start++bound [.occurredAt] .le end_) [.occurredAt] limit 0
  | getEvents after before limit offset =>
    latest (bound [.timestamp] .gt after++bound [.timestamp] .lt before) [.timestamp] limit offset
  | getResourceEvents limit => latest [] [.timestamp] limit 0
  | countEvents after => within (bound [.timestamp] .gt after)
  | listDocuments before limit offset =>
    latest (bound [.updatedAt] .lt before) [.createdAt] limit offset
  | claimOrphanedDocuments pending processing limit =>
    { bounds := fun r =>
        match r.status with
        | .pending => some (bound [.updatedAt] .lt (some pending))
        | .processing => some (bound [.updatedAt] .lt (some processing))
        | _ => none
      order := coalesce [.updatedAt]
      descending := false
      limit := some limit
      offset := 0 }

/-- `MAX(created_at)` of `get_last_activity_at` and `get_document_stats`. -/
def lastActivity {κ : Type} [LinearOrder κ] (key : DateTime → κ) (rows : List Row) :
    Option DateTime → Prop := IsMax key (coalesce [.createdAt]) rows

/-- On the timestamps of the set that the adapter accepts, its queries answer
on the texts what they answer on the instants. -/
def OrdersLikeTime (a : Adapter) (T : Set DateTime) : Prop :=
  (∀ q : Request, q.adapter = a → ∀ rows, q.listing.Times (T ∩ a.accepts) rows → ∀ out,
    q.listing.Answer a.text rows out ↔ q.listing.Answer DateTime.micros rows out) ∧
  (a = .sqlite → ∀ rows, (∀ r ∈ rows, ∀ t, coalesce [.createdAt] r = some t → t ∈ T) → ∀ m,
    lastActivity a.text rows m ↔ lastActivity DateTime.micros rows m)

theorem dtToStr_eq (dt : DateTime) : dtToStr dt = dtToIso dt := by
  unfold dtToStr dtToIso
  rcases h : dt.offset with _ | o
  · simp [DateTime.toUtc, h]
  · rfl

theorem normalized {a : Adapter} (h : a.normalizes = true) (dt : DateTime) :
    a.write dt = dtToIso dt := by
  cases a with
  | temporal => rfl
  | vector => exact dtToStr_eq dt
  | _ => cases h

theorem plain {a : Adapter} (h : a.normalizes = false) (dt : DateTime) : a.text dt = dt.isoformat := by
  cases a with
  | temporal | vector => cases h
  | _ => rfl

/-- Texts brought to UTC are in the order of the instants. -/
theorem normalized_lt {a : Adapter} (h : a.normalizes = true) {d e : DateTime} (hd : a.accepts d)
    (he : a.accepts e) : a.text d < a.text e ↔ d.micros < e.micros := by
  unfold Adapter.accepts at hd he
  unfold Adapter.text
  rw [normalized h] at hd he ⊢
  rw [normalized h]
  unfold dtToIso at hd he ⊢
  rcases hu : d.toUtc with _ | u
  · simp [hu] at hd
  · rcases hv : e.toUtc with _ | v
    · simp [hv] at he
    · simp only [Option.map_some, Option.getD_some]
      rw [isoformat_lt, fields_lt_iff, toUtc_micros hu, toUtc_micros hv]

theorem sameOrder_iff (a : Adapter) {d e : DateTime} (hd : a.accepts d) (he : a.accepts e) :
    SameOrder a.text DateTime.micros d e ↔ a.normalizes = true ∨ InStep d e := by
  rcases h : a.normalizes with _ | _
  · unfold SameOrder
    rw [plain h, plain h, text_agrees_iff]
    simp
  · exact ⟨fun _ => .inl rfl, fun _ => ⟨normalized_lt h hd he, normalized_lt h he hd⟩⟩

def stamped (t : DateTime) : Row := ⟨fun _ => some t, .completed⟩

def ordering : Adapter → Request
  | .temporal => .searchRecentChunks none 2
  | .vector => .listChunks 2 0
  | .graph => .listByCreation 2 0
  | .eventStore => .getResourceEvents 2
  | .sqlite => .listDocuments none 2 0

theorem ordering_adapter (a : Adapter) : (ordering a).adapter = a := by
  cases a <;> rfl

theorem ordering_listing (a : Adapter) :
    ∃ cols : List Column, cols ≠ [] ∧ (ordering a).listing = latest [] cols 2 0 := by
  cases a with
  | temporal => exact ⟨recency, by decide, rfl⟩
  | eventStore => exact ⟨[.timestamp], by decide, rfl⟩
  | _ => exact ⟨[.createdAt], by decide, rfl⟩

theorem coalesce_stamped {cols : List Column} (h : cols ≠ []) (t : DateTime) :
    coalesce cols (stamped t) = some t := by
  cases cols with
  | nil => exact absurd rfl h
  | cons c cols => rfl

theorem latest_pair {κ : Type} [LinearOrder κ] (key : DateTime → κ) {cols : List Column}
    (h : cols ≠ []) (d e : DateTime) :
    (latest [] cols 2 0).Answer key [stamped d,stamped e] [stamped d,stamped e] ↔ key e ≤ key d := by
  unfold Listing.Answer
  have hkeep : (latest [] cols 2 0).keeps key = fun _ => true := rfl
  rw [hkeep, List.filter_true, Listing.cut, latest]
  simp only [Option.getD_some]
  rw [page_whole (by simp), page_pair, Listing.precedes]
  simp only [if_true, coalesce_stamped h]
  rfl

theorem ordering_pair {κ : Type} [LinearOrder κ] (key : DateTime → κ) (a : Adapter) (d e : DateTime) :
    (ordering a).listing.Answer key [stamped d,stamped e] [stamped d,stamped e] ↔ key e ≤ key d := by
  obtain ⟨cols, hc, hl⟩ := ordering_listing a
  rw [hl]
  exact latest_pair key hc d e

theorem ordering_times (a : Adapter) {S : Set DateTime} {d e : DateTime} (hd : d ∈ S) (he : e ∈ S) :
    (ordering a).listing.Times S [stamped d,stamped e] := by
  obtain ⟨cols, hc, hl⟩ := ordering_listing a
  rw [hl]
  intro r hr
  refine ⟨fun t ht => ?_, fun bs hbs b hb => ?_⟩
  · have hr' : r = stamped d ∨ r = stamped e := by simpa using hr
    rcases hr' with rfl | rfl
    · rw [show (latest [] cols 2 0).order (stamped d) = some d from coalesce_stamped hc d] at ht
      exact Option.some.inj ht ▸ hd
    · rw [show (latest [] cols 2 0).order (stamped e) = some e from coalesce_stamped hc e] at ht
      exact Option.some.inj ht ▸ he
  · cases hbs
    cases hb

/-- An adapter orders the timestamps of a set like time exactly when it brings
them to UTC or every two of them are in step. -/
theorem ordersLikeTime_iff (a : Adapter) (T : Set DateTime) :
    OrdersLikeTime a T ↔
      ∀ d ∈ T, ∀ e ∈ T, a.accepts d → a.accepts e → a.normalizes = true ∨ InStep d e := by
  constructor
  · intro h d hd e he had hae
    rw [← sameOrder_iff a had hae]
    have hpair : ∀ s t, s ∈ T ∩ a.accepts → t ∈ T ∩ a.accepts →
        (a.text t ≤ a.text s ↔ t.micros ≤ s.micros) := by
      intro s t hs ht
      have hq := h.1 (ordering a) (ordering_adapter a) _ (ordering_times a hs ht)
        [stamped s,stamped t]
      rwa [ordering_pair, ordering_pair] at hq
    exact sameOrder_of_le (hpair e d ⟨he, hae⟩ ⟨hd, had⟩) (hpair d e ⟨hd, had⟩ ⟨he, hae⟩)
  · intro h
    have hT : ∀ d ∈ T ∩ a.accepts, ∀ e ∈ T ∩ a.accepts, SameOrder a.text DateTime.micros d e :=
      fun d hd e he => (sameOrder_iff a hd.2 he.2).mpr (h d hd.1 e he.1 hd.2 he.2)
    refine ⟨fun q _ rows hrows out => Listing.answer_congr hT hrows out, ?_⟩
    rintro rfl rows hrows m
    exact isMax_congr hT (fun r hr t ht => ⟨hrows r hr t ht, rfl⟩) m

def op : Rel → Op
  | .lt => .lt
  | .le => .lte
  | .gt => .gt
  | .ge => .gte

def stored : Option DateTime → Val
  | none => .null
  | some d => .datetime d

/-- The bound that `compile_python` decides for the operator, on datetimes that
have an instant in UTC, is the bound on the instants. -/
theorem oracle_bound (rel : Rel) {d t : DateTime} {u v : UtcTime} (hd : d.toUtc = some u)
    (ht : t.toUtc = some v) : compileSystemClause (.datetime d) (op rel) (.val (.datetime t)) =
      some (rel.holds d.micros t.micros) := by
  have hrange : compileSystemClause (.datetime d) (op rel) (.val (.datetime t)) =
      aligned (pyCompare (op rel)) (.datetime d) (.datetime t) := by
    cases rel <;> rfl
  have hlt := fields_lt_iff u v
  have hgt := fields_lt_iff v u
  rw [toUtc_micros hd, toUtc_micros ht] at hlt hgt
  have heq : u = v ↔ d.micros = t.micros := by
    rw [← toUtc_micros hd, ← toUtc_micros ht]
    exact ⟨fun h => by rw [h], micros_inj⟩
  rw [hrange]
  simp only [aligned, hd, ht, bind, Option.bind_some, pyCompare, UtcTime.aware, if_true]
  change (op rel).holds (decide (u.fields < v.fields)) (decide (u = v)) (decide (v.fields < u.fields)) = _
  simp only [hlt, heq, hgt]
  cases rel with
  | lt | gt => rfl
  | le => simp [op, Op.holds, Rel.holds, le_iff_lt_or_eq]
  | ge => simp [op, Op.holds, Rel.holds, le_iff_lt_or_eq, eq_comm]

theorem oracle_absent (rel : Rel) (t : DateTime) :
    compileSystemClause .null (op rel) (.val (.datetime t)) = some false := by
  cases rel <;> rfl

/-- A bound on the instants of a column keeps a row exactly when
`compile_python` does, on timestamps that have an instant in UTC. -/
theorem oracle_keeps (b : Bound Row DateTime) (r : Row) (ht : hasUtc b.time)
    (hr : ∀ d, b.axis r = some d → hasUtc d) :
    compileSystemClause (stored (b.axis r)) (op b.rel) (.val (.datetime b.time)) =
      some (b.holds DateTime.micros r) := by
  unfold Bound.holds
  rcases h : b.axis r with _ | d
  · exact oracle_absent b.rel b.time
  · obtain ⟨u, hu⟩ := hr d h
    obtain ⟨v, hv⟩ := ht
    exact oracle_bound b.rel hu hv

/-- What an adapter's queries answer on texts is what they answer on instants,
for the timestamps of a set that it accepts, exactly when it brings them to UTC
or every two of them are in step; and a bound on instants is the one that
`compile_python` decides. -/
theorem text_orders_like_time_iff (a : Adapter) (T : Set DateTime) :
    (OrdersLikeTime a T ↔
      ∀ d ∈ T, ∀ e ∈ T, a.accepts d → a.accepts e → a.normalizes = true ∨ InStep d e) ∧
      ∀ (b : Bound Row DateTime) (r : Row), hasUtc b.time → (∀ d, b.axis r = some d → hasUtc d) →
        compileSystemClause (stored (b.axis r)) (op b.rel) (.val (.datetime b.time)) =
          some (b.holds DateTime.micros r) :=
  ⟨ordersLikeTime_iff a T, fun b r ht hr => oracle_keeps b r ht hr⟩

theorem newYear_valid : (⟨2024, 1, 1, 0, 0, 0, 0⟩ : Civil).Valid := by decide

def newYear : DateTime := ⟨⟨⟨2024, 1, 1, 0, 0, 0, 0⟩, newYear_valid⟩, some Offset.zero⟩

def halfPast : DateTime :=
  ⟨⟨⟨2024, 1, 1, 0, 30, 0, 0⟩, by decide⟩, some ⟨3600000000, by decide⟩⟩

/-- The episode happened before the start of the window and is listed. -/
theorem early_episode_listed :
    halfPast.micros < newYear.micros ∧
      (Request.listEpisodes (some newYear) none 100).listing.Answer (Adapter.text .graph)
        [stamped halfPast] [stamped halfPast] ∧
      ¬ (Request.listEpisodes (some newYear) none 100).listing.Answer DateTime.micros
        [stamped halfPast] [stamped halfPast] := by
  have hkeeps : (Request.listEpisodes (some newYear) none 100).listing.keeps (Adapter.text .graph)
      (stamped halfPast) = true := by decide +kernel
  have hdrops : (Request.listEpisodes (some newYear) none 100).listing.keeps DateTime.micros
      (stamped halfPast) = false := by decide +kernel
  refine ⟨by decide +kernel, ?_, fun h => ?_⟩
  · rw [Listing.Answer, List.filter_singleton, hkeeps]
    exact (page_whole (by decide)).mpr ⟨List.Perm.refl _, List.pairwise_singleton _ _⟩
  · rw [Listing.Answer, List.filter_singleton, hdrops] at h
    exact absurd (page_subset h _ List.mem_cons_self) List.not_mem_nil

end Uru.Storage.TimestampText
