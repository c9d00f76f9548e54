import Uru.Lib.Listing
import Uru.Filter.TextOrder

/-!
# Compaction of memory facts

A fact is tombstoned when its flag is cleared or its invalidation is stamped.
The planner selects the tombstoned facts whose marker lies before the
retention threshold, and the apply handler deletes them by id after it has
taken a snapshot. PostgreSQL compares instants. SQLite compares texts, of
which there are three kinds, and the threshold is written by `isoformat`.
-/

set_option autoImplicit false

namespace Uru.Dream.FactCompaction

open Uru.Lib Uru.Filter

/-- A stored time, by its writer: the datetime type of SQLAlchemy,
`CURRENT_TIMESTAMP`, or a statement that binds `isoformat`. -/
inductive Stamp
  | sqlalchemy (time : UtcTime)
  | currentTimestamp (time : UtcTime)
  | isoformat (time : UtcTime)
deriving DecidableEq

def Stamp.time : Stamp → UtcTime
  | sqlalchemy t | currentTimestamp t | isoformat t => t

def Stamp.micros (s : Stamp) : ℤ := s.time.civil.toMicros

def dateText (c : Civil) (rest : PyStr) : PyStr :=
  pad 4 c.year++point '-' ::(pad 2 c.month++point '-' ::(pad 2 c.day++rest))

def clockText (c : Civil) (rest : PyStr) : PyStr :=
  pad 2 c.hour++point ':' ::(pad 2 c.minute++point ':' ::(pad 2 c.second++rest))

def Stamp.text : Stamp → PyStr
  | sqlalchemy t => dateText t.civil (point ' ' ::clockText t.civil (point '.' ::pad 6 t.civil.micro))
  | currentTimestamp t => dateText t.civil (point ' ' ::clockText t.civil [])
  | isoformat t => t.isoformat

structure Fact where
  id : ℕ
  namespaceId : ℕ
  isActive : Bool
  supersededBy : Option ℕ
  updatedAt : Stamp
  invalidatedAt : Option Stamp
deriving DecidableEq

namespace Fact

def tombstoned (f : Fact) : Bool := !f.isActive || f.invalidatedAt.isSome

def live (f : Fact) : Bool := f.isActive && f.invalidatedAt.isNone

/-- `COALESCE(invalidated_at, updated_at)`. -/
def markerAt (f : Fact) : Stamp := f.invalidatedAt.getD f.updatedAt

/-- The times at which the fact was tombstoned: that of the update when the
flag is cleared, and that of the invalidation. -/
def markers (f : Fact) : List Stamp :=
  (if f.isActive then [] else [f.updatedAt])++f.invalidatedAt.toList

/-- `ON DELETE SET NULL`. -/
def unlink (ids : List ℕ) (f : Fact) : Fact :=
  { f with supersededBy := f.supersededBy.filter (fun s => s ∉ ids) }

end Fact

/-- `memory_facts`, with its primary key. -/
structure Table where
  rows : List Fact
  key : (rows.map Fact.id).Nodup

def Table.ids (t : Table) : List ℕ := t.rows.map Fact.id

theorem unlink_id (ids : List ℕ) : Fact.id ∘ Fact.unlink ids = Fact.id := rfl

def deleteRows (ids : List ℕ) (t : Table) : Table where
  rows := (t.rows.filter (fun f => f.id ∉ ids)).map (Fact.unlink ids)
  key := by
    rw [List.map_map, unlink_id]
    exact t.key.sublist (List.filter_sublist.map Fact.id)

def snapshotRow (t : Table) (factId : ℕ) : Option Fact := t.rows.find? (fun f => f.id = factId)

def retentionFloorDays : ℤ := 7

structure DreamConfig where
  factCompactionRetentionDays : ℤ
  floor : retentionFloorDays ≤ factCompactionRetentionDays

def DreamConfig.grace (config : DreamConfig) : ℤ :=
  config.factCompactionRetentionDays*86400000000

/-- `started_at - timedelta(days=retention_days)`; `none` where Python raises
because the result is not a year from 1 to 9999. -/
def threshold (startedAt : UtcTime) (config : DreamConfig) : Option UtcTime :=
  let t := startedAt.civil.toMicros-config.grace
  if h : 0 ≤ t ∧ (Civil.ofMicros t.toNat).Valid then some ⟨Civil.ofMicros t.toNat, h.2⟩ else none

inductive Dialect
  | postgresql
  | sqlite
deriving DecidableEq

def selectCandidates (ns : ℕ) (before : Stamp) : Listing Fact Stamp where
  bounds f :=
    if f.namespaceId = ns ∧ f.tombstoned then some [⟨fun g => some g.markerAt,.lt,before⟩] else none
  order f := some f.markerAt
  descending := false
  limit := none
  offset := 0

def Dialect.Answer (d : Dialect) (l : Listing Fact Stamp) (rows out : List Fact) : Prop :=
  match d with
  | .postgresql => l.Answer Stamp.micros rows out
  | .sqlite => l.Answer Stamp.text rows out

structure Input where
  factId : ℕ
  supersededBy : Option ℕ
  retentionDays : ℤ

structure DreamOp where
  inputs : List Input

def planned (config : DreamConfig) (f : Fact) : DreamOp :=
  ⟨[⟨f.id,f.supersededBy,config.factCompactionRetentionDays⟩]⟩

/-- `plan_chronicle_fact_compaction`: the candidates in some order that the
markers allow, an operation for each. -/
def Plan (d : Dialect) (config : DreamConfig) (ns : ℕ) (startedAt : UtcTime) (t : Table)
    (ops : List DreamOp) : Prop :=
  ∃ before rows, threshold startedAt config = some before ∧
    d.Answer (selectCandidates ns (.isoformat before)) t.rows rows ∧ ops = rows.map (planned config)

inductive DreamForbiddenOpError
  | missing
  | floor (retentionDays : ℤ)

structure UndoRecord where
  rows : List Fact
  retentionDays : ℤ

def extractRetentionDays (op : DreamOp) : Except DreamForbiddenOpError ℤ :=
  match op.inputs with
  | [] => .error .missing
  | entry::_ => .ok entry.retentionDays

def extractTargetIds (op : DreamOp) : List ℕ := op.inputs.map Input.factId

def applyChronicleFactCompaction (op : DreamOp) (t : Table) :
    Except DreamForbiddenOpError (Table × UndoRecord) := do
  let retentionDays ← extractRetentionDays op
  if retentionDays < retentionFloorDays then throw (.floor retentionDays)
  let snapshots := (extractTargetIds op).filterMap (snapshotRow t)
  return (deleteRows (snapshots.map Fact.id) t,⟨snapshots,retentionDays⟩)

def applyAll : List DreamOp → Table → Except DreamForbiddenOpError Table
  | [], t => .ok t
  | op::ops, t => do
    let r ← applyChronicleFactCompaction op t
    applyAll ops r.1

/-- A run that applies the first `limit` operations of its plan. -/
def Run (d : Dialect) (config : DreamConfig) (ns : ℕ) (startedAt : UtcTime) (limit : ℕ)
    (t t' : Table) : Prop :=
  ∃ ops, Plan d config ns startedAt t ops ∧ applyAll (ops.take limit) t = .ok t'

theorem table_ext {t u : Table} (h : t.rows = u.rows) : t = u := by
  cases t
  cases u
  cases h
  rfl

theorem mem_ids {t : Table} {f : Fact} (h : f ∈ t.rows) : f.id ∈ t.ids := List.mem_map_of_mem h

theorem deleteRows_ids (ids : List ℕ) (t : Table) :
    (deleteRows ids t).ids = t.ids.filter (fun i => i ∉ ids) := by
  rw [Table.ids, deleteRows, List.map_map, unlink_id, Table.ids, List.filter_map]
  rfl

theorem unlink_unlink (is js : List ℕ) (f : Fact) :
    (f.unlink is).unlink js = f.unlink (is++js) := by
  simp only [Fact.unlink, Option.filter_filter, List.mem_append, not_or, Bool.decide_and]

theorem delete_delete (is js : List ℕ) (t : Table) :
    deleteRows js (deleteRows is t) = deleteRows (is++js) t := by
  apply table_ext
  have hcomp : Fact.unlink js ∘ Fact.unlink is = Fact.unlink (is++js) :=
    funext (fun f => unlink_unlink is js f)
  have hkept : (fun f : Fact => decide (f.id ∉ js)) ∘ Fact.unlink is = fun f => decide (f.id ∉ js) := rfl
  simp only [deleteRows]
  rw [List.filter_map, List.map_map, hcomp, hkept, List.filter_filter]
  simp only [List.mem_append, not_or, Bool.decide_and, Bool.and_comm]

theorem delete_none (t : Table) : deleteRows [] t = t := by
  apply table_ext
  have hid : Fact.unlink [] = id := by
    funext f
    have hkeep : ∀ o : Option ℕ, o.filter (fun s => s ∉ []) = o := fun o => by cases o <;> rfl
    rw [Fact.unlink, hkeep]
    rfl
  simp [deleteRows, hid]

/-- The snapshot of an id in the table is the row that has it. -/
theorem snapshot_spec {t : Table} {i : ℕ} (h : i ∈ t.ids) :
    ∃ f ∈ t.rows, f.id = i ∧ snapshotRow t i = some f := by
  obtain ⟨f, hf, hi⟩ := List.mem_map.mp h
  rcases hs : snapshotRow t i with _ | g
  · have hnone := List.find?_eq_none.mp hs f hf
    exact absurd (decide_eq_true hi) hnone
  · unfold snapshotRow at hs
    have hg := List.find?_some hs
    exact ⟨g, List.mem_of_find?_eq_some hs, of_decide_eq_true hg, rfl⟩

theorem apply_planned (config : DreamConfig) {f : Fact} {t : Table} (h : f.id ∈ t.ids) :
    ∃ u, applyChronicleFactCompaction (planned config f) t = .ok (deleteRows [f.id] t,u) := by
  obtain ⟨g, -, hg, hs⟩ := snapshot_spec h
  refine ⟨⟨[g],config.factCompactionRetentionDays⟩, ?_⟩
  have hfloor : ¬ config.factCompactionRetentionDays < retentionFloorDays :=
    not_lt.mpr config.floor
  simp [applyChronicleFactCompaction, planned, extractRetentionDays, extractTargetIds, bind,
    Except.bind, pure, Except.pure, hfloor, hs, hg]

/-- Applying planned operations of distinct rows of the table deletes these. -/
theorem applyAll_planned (config : DreamConfig) (rows : List Fact) :
    ∀ {t : Table}, (rows.map Fact.id).Nodup → (∀ f ∈ rows, f.id ∈ t.ids) →
      applyAll (rows.map (planned config)) t = .ok (deleteRows (rows.map Fact.id) t) := by
  induction rows with
  | nil => exact fun _ _ => congrArg _ (delete_none _).symm
  | cons f rows ih =>
    intro t hnd hin
    obtain ⟨u, hu⟩ := apply_planned config (hin f List.mem_cons_self)
    rw [List.map_cons, List.nodup_cons] at hnd
    have hleft : ∀ g ∈ rows, g.id ∈ (deleteRows [f.id] t).ids := by
      intro g hg
      rw [deleteRows_ids, List.mem_filter]
      refine ⟨hin g (List.mem_cons_of_mem f hg), ?_⟩
      simp only [List.mem_singleton, decide_eq_true_eq]
      exact fun he => hnd.1 (he ▸ List.mem_map_of_mem hg)
    rw [List.map_cons, applyAll, hu]
    change applyAll (rows.map (planned config)) (deleteRows [f.id] t) = _
    rw [ih hnd.2 hleft, delete_delete]
    rfl

def date (c : Civil) : List ℕ := [c.year,c.month,c.day]

theorem dateText_lt {c c' : Civil} (h : c.Valid) (h' : c'.Valid) (x y : PyStr) :
    dateText c x < dateText c' y ↔ date c < date c' ∨ date c = date c' ∧ x < y := by
  obtain ⟨hy, hm, hd, -⟩ := h
  obtain ⟨hy', hm', hd', -⟩ := h'
  have hdc := daysInMonth_le c.year c.month
  have hdc' := daysInMonth_le c'.year c'.month
  unfold dateText date
  rw [pad_append_lt (by omega) (by omega), cons_lt_cons_self, pad_append_lt (by omega) (by omega),
    cons_lt_cons_self, pad_append_lt (by omega) (by omega)]
  simp only [List.cons_lt_cons_iff, List.lt_irrefl, and_false, or_false, List.cons.injEq, and_true,
    and_or_left, or_assoc, and_assoc]

theorem isoformat_date (t : UtcTime) : ∃ x, t.isoformat = dateText t.civil (point 'T' ::x) := by
  refine ⟨clockText t.civil (fraction t.civil.micro++Offset.zero.isoformat), ?_⟩
  simp only [UtcTime.isoformat, DateTime.isoformat, UtcTime.aware, Option.elim, Civil.isoformat,
    dateText, clockText, List.append_assoc, List.cons_append]

theorem dateOf_fields {u v : UtcTime} (h : u.fields < v.fields) :
    date u.civil < date v.civil ∨ date u.civil = date v.civil := by
  simp only [UtcTime.fields, Civil.fields, date, List.cons_lt_cons_iff, List.cons.injEq, and_true,
    List.lt_irrefl, and_false, or_false] at h ⊢
  omega

/-- With a space after the date a text comes before the threshold on the whole
day of the threshold. -/
theorem spaced_lt (u v : UtcTime) (x : PyStr) : dateText u.civil (point ' ' ::x) < v.isoformat ↔
    date u.civil < date v.civil ∨ date u.civil = date v.civil := by
  obtain ⟨y, hy⟩ := isoformat_date v
  have hspace : point ' ' ::x < point 'T' ::y := List.cons_lt_cons_iff.mpr (.inl (by decide))
  rw [hy, dateText_lt u.valid v.valid]
  simp only [hspace, and_true]

theorem isoformat_lt_micros (u v : UtcTime) :
    (Stamp.isoformat u).text < (Stamp.isoformat v).text ↔ u.civil.toMicros < v.civil.toMicros := by
  rw [← fields_lt_iff]
  exact isoformat_lt u v

/-- The text of an earlier time comes before the threshold. -/
theorem text_lt {s : Stamp} {v : UtcTime} (h : s.micros < v.civil.toMicros) :
    s.text < (Stamp.isoformat v).text := by
  unfold Stamp.micros at h
  cases s with
  | sqlalchemy u | currentTimestamp u =>
    exact (spaced_lt u v _).mpr (dateOf_fields ((fields_lt_iff u v).mpr h))
  | isoformat u => exact (isoformat_lt_micros u v).mpr h

def Dialect.before (d : Dialect) (s t : Stamp) : Prop :=
  match d with
  | .postgresql => s.micros < t.micros
  | .sqlite => s.text < t.text

theorem answer_spec {κ : Type} [LinearOrder κ] (key : Stamp → κ) {ns : ℕ} {before : Stamp} {t : Table}
    {out : List Fact} (h : (selectCandidates ns before).Answer key t.rows out) :
    (out.map Fact.id).Nodup ∧ ∀ f, f ∈ out ↔
      f ∈ t.rows ∧ f.namespaceId = ns ∧ f.tombstoned = true ∧ key f.markerAt < key before := by
  have hperm := ((page_whole (List.length_filter_le _ _)).mp h).1
  refine ⟨(hperm.map Fact.id).nodup_iff.mpr (t.key.sublist (List.filter_sublist.map Fact.id)),
    fun f => ?_⟩
  rw [hperm.mem_iff, List.mem_filter]
  refine and_congr_right (fun _ => ?_)
  by_cases hf : f.namespaceId = ns ∧ f.tombstoned = true
  · simp [Listing.keeps, selectCandidates, hf, Bound.holds, Rel.holds]
  · have hnot : ¬ (f.namespaceId = ns ∧ f.tombstoned = true ∧ key f.markerAt < key before) :=
      fun h => hf ⟨h.1, h.2.1⟩
    simp only [Listing.keeps, selectCandidates, if_neg hf, Option.elim, hnot]
    simp

theorem candidates_spec {d : Dialect} {ns : ℕ} {before : Stamp} {t : Table} {out : List Fact}
    (h : d.Answer (selectCandidates ns before) t.rows out) :
    (out.map Fact.id).Nodup ∧ ∀ f, f ∈ out ↔
      f ∈ t.rows ∧ f.namespaceId = ns ∧ f.tombstoned = true ∧ d.before f.markerAt before := by
  cases d with
  | postgresql => exact answer_spec Stamp.micros h
  | sqlite => exact answer_spec Stamp.text h

theorem threshold_micros {now before : UtcTime} {config : DreamConfig}
    (h : threshold now config = some before) :
    before.civil.toMicros = now.civil.toMicros-config.grace := by
  simp only [threshold] at h
  split_ifs at h with hv
  cases h
  rw [toMicros_ofMicros, Int.toNat_of_nonneg hv.1]

/-- A run deletes the first of its candidates. -/
theorem run_spec {d : Dialect} {config : DreamConfig} {ns limit : ℕ} {now : UtcTime} {t t' : Table}
    (h : Run d config ns now limit t t') : ∃ before rows, threshold now config = some before ∧
      d.Answer (selectCandidates ns (.isoformat before)) t.rows rows ∧
      t' = deleteRows ((rows.take limit).map Fact.id) t := by
  obtain ⟨ops, ⟨before, rows, hb, hrows, rfl⟩, happ⟩ := h
  refine ⟨before, rows, hb, hrows, ?_⟩
  obtain ⟨hnd, hmem⟩ := candidates_spec hrows
  have htake : ((rows.take limit).map Fact.id).Nodup :=
    hnd.sublist ((List.take_sublist limit rows).map Fact.id)
  have hin : ∀ f ∈ rows.take limit, f.id ∈ t.ids :=
    fun f hf => mem_ids ((hmem f).mp (List.mem_of_mem_take hf)).1
  rw [← List.map_take, applyAll_planned config _ htake hin] at happ
  exact (Except.ok.inj happ).symm

def Deleted (t t' : Table) (f : Fact) : Prop := f ∈ t.rows ∧ f.id ∉ t'.ids

/-- Where the times of a fact are compared as instants, and its invalidation
was not stamped before its flag was cleared. -/
def Comparable (d : Dialect) (f : Fact) : Prop :=
  (d = .sqlite → ∀ m ∈ f.markers, ∃ t, m = .isoformat t) ∧
    (f.isActive = false → ∀ m, f.invalidatedAt = some m → f.updatedAt.micros ≤ m.micros)

/-- The fact was tombstoned more than the whole grace period ago, by all its
markers. -/
def Qualifies (config : DreamConfig) (now : UtcTime) (f : Fact) : Prop :=
  f.tombstoned = true ∧ ∀ m ∈ f.markers, m.micros < now.civil.toMicros-config.grace

theorem marker_mem {f : Fact} (h : f.tombstoned = true) : f.markerAt ∈ f.markers := by
  unfold Fact.markerAt Fact.markers
  rcases hi : f.invalidatedAt with _ | m
  · rcases ha : f.isActive with _ | _
    · simp
    · simp [Fact.tombstoned, hi, ha] at h
  · simp

theorem live_not_tombstoned (f : Fact) : f.live = !f.tombstoned := by
  unfold Fact.live Fact.tombstoned
  rcases f.isActive with _ | _ <;> rcases f.invalidatedAt with _ | m <;> rfl

/-- In a comparable fact the marker of the planner is the latest one. -/
theorem marker_latest {d : Dialect} {f : Fact} (h : Comparable d f) :
    ∀ m ∈ f.markers, m.micros ≤ f.markerAt.micros := by
  intro m hm
  unfold Fact.markers at hm
  unfold Fact.markerAt
  rcases List.mem_append.mp hm with hm | hm
  · rcases ha : f.isActive with _ | _
    · rw [ha, if_neg (by decide), List.mem_singleton] at hm
      subst hm
      rcases hi : f.invalidatedAt with _ | i
      · exact le_rfl
      · exact h.2 ha i hi
    · rw [ha, if_pos rfl] at hm
      cases hm
  · rw [Option.mem_toList] at hm
    rw [hm]
    exact le_rfl

theorem before_micros {d : Dialect} {f : Fact} (h : Comparable d f) (ht : f.tombstoned = true)
    {v : UtcTime} (hb : d.before f.markerAt (.isoformat v)) :
    f.markerAt.micros < v.civil.toMicros := by
  cases d with
  | postgresql => exact hb
  | sqlite =>
    obtain ⟨u, hu⟩ := h.1 rfl f.markerAt (marker_mem ht)
    rw [hu] at hb ⊢
    exact (isoformat_lt_micros u v).mp hb

theorem before_of_micros (d : Dialect) {s : Stamp} {v : UtcTime} (h : s.micros < v.civil.toMicros) :
    d.before s (.isoformat v) := by
  cases d with
  | postgresql => exact h
  | sqlite => exact text_lt h

/-- A deleted fact is one of the candidates. -/
theorem deleted_candidate {d : Dialect} {config : DreamConfig} {ns limit : ℕ} {now : UtcTime}
    {t t' : Table} (h : Run d config ns now limit t t') {f : Fact} (hf : Deleted t t' f) :
    ∃ before, threshold now config = some before ∧ f.namespaceId = ns ∧ f.tombstoned = true ∧
      d.before f.markerAt (.isoformat before) := by
  obtain ⟨before, rows, hb, hrows, rfl⟩ := run_spec h
  obtain ⟨hft, hgone⟩ := hf
  simp only [deleteRows_ids, List.mem_filter, mem_ids hft, true_and, decide_eq_true_eq,
    not_not] at hgone
  obtain ⟨g, hg, hid⟩ := List.mem_map.mp hgone
  have hgc := ((candidates_spec hrows).2 g).mp (List.mem_of_mem_take hg)
  rw [List.inj_on_of_nodup_map t.key hgc.1 hft hid] at hgc
  exact ⟨before, hb, hgc.2⟩

/-- Comparable facts are deleted only when all their markers are old. -/
theorem deleted_old {d : Dialect} {config : DreamConfig} {ns limit : ℕ} {now : UtcTime} {t t' : Table}
    (h : Run d config ns now limit t t') {f : Fact} (hf : Deleted t t' f) (hc : Comparable d f) :
    ∀ m ∈ f.markers, m.micros+config.grace ≤ now.civil.toMicros := by
  intro m hm
  obtain ⟨before, hb, -, ht, hlt⟩ := deleted_candidate h hf
  have hlast := marker_latest hc m hm
  have hold := before_micros hc ht hlt
  rw [threshold_micros hb] at hold
  omega

theorem kept_row {d : Dialect} {config : DreamConfig} {ns limit : ℕ} {now : UtcTime} {t t' : Table}
    (h : Run d config ns now limit t t') {g : Fact} (hg : g ∈ t'.rows) :
    ∃ f ∈ t.rows, ∃ ids, g = f.unlink ids := by
  obtain ⟨before, rows, -, -, rfl⟩ := run_spec h
  obtain ⟨f, hf, rfl⟩ := List.mem_map.mp hg
  exact ⟨f, (List.mem_filter.mp hf).1, _, rfl⟩

/-- A run plans nothing or deletes a row. -/
theorem run_progress {d : Dialect} {config : DreamConfig} {ns limit : ℕ} {now : UtcTime} {t t' : Table}
    (hl : 1 ≤ limit) (h : Run d config ns now limit t t') :
    Plan d config ns now t [] ∨ t'.rows.length < t.rows.length := by
  obtain ⟨before, rows, hb, hrows, rfl⟩ := run_spec h
  rcases rows with _ | ⟨f, rows⟩
  · exact .inl ⟨before, [], hb, hrows, rfl⟩
  · refine .inr ?_
    have hf := ((candidates_spec hrows).2 f).mp List.mem_cons_self
    obtain ⟨n, rfl⟩ := Nat.exists_eq_add_of_le' hl
    simp only [deleteRows, List.length_map, List.take_succ_cons, List.map_cons]
    refine List.length_filter_lt_length_iff_exists.mpr ⟨f, hf.1, ?_⟩
    simp

/-- When nothing is planned, no fact of the namespace qualifies. -/
theorem nothing_left {d : Dialect} {config : DreamConfig} {ns : ℕ} {now : UtcTime} {t : Table}
    (h : Plan d config ns now t []) {f : Fact} (hf : f ∈ t.rows) (hns : f.namespaceId = ns) :
    ¬ Qualifies config now f := by
  rintro ⟨ht, hold⟩
  obtain ⟨before, rows, hb, hrows, hnil⟩ := h
  have hlt := hold f.markerAt (marker_mem ht)
  rw [← threshold_micros hb] at hlt
  have hmem := ((candidates_spec hrows).2 f).mpr ⟨hf, hns, ht, before_of_micros d hlt⟩
  rw [List.map_eq_nil_iff.mp hnil.symm] at hmem
  cases hmem

/-- From every table a run is possible, as long as Python has its threshold. -/
theorem exists_run (d : Dialect) {config : DreamConfig} (ns : ℕ) {now before : UtcTime}
    (hb : threshold now config = some before) (limit : ℕ) (t : Table) :
    ∃ t', Run d config ns now limit t t' := by
  have hrows : ∃ rows, d.Answer (selectCandidates ns (.isoformat before)) t.rows rows := by
    cases d with
    | postgresql => exact Listing.exists_answer Stamp.micros _ _
    | sqlite => exact Listing.exists_answer Stamp.text _ _
  obtain ⟨rows, hrows⟩ := hrows
  obtain ⟨hnd, hmem⟩ := candidates_spec hrows
  refine ⟨deleteRows ((rows.take limit).map Fact.id) t, _, ⟨before, rows, hb, hrows, rfl⟩, ?_⟩
  rw [← List.map_take]
  exact applyAll_planned config _ (hnd.sublist ((List.take_sublist limit rows).map Fact.id))
    (fun f hf => mem_ids ((hmem f).mp (List.mem_of_mem_take hf)).1)

structure Repeated (d : Dialect) (config : DreamConfig) (ns : ℕ) where
  now : ℕ → UtcTime
  limit : ℕ → ℕ
  table : ℕ → Table
  some_operation : ∀ k, 1 ≤ limit k
  run : ∀ k, Run d config ns (now k) (limit k) (table k) (table (k+1))

theorem exists_repeated (d : Dialect) (config : DreamConfig) (ns : ℕ) (now : ℕ → UtcTime)
    (limit : ℕ → ℕ) (t : Table) (hnow : ∀ k, (threshold (now k) config).isSome)
    (hlimit : ∀ k, 1 ≤ limit k) :
    ∃ r : Repeated d config ns, r.now = now ∧ r.limit = limit ∧ r.table 0 = t := by
  have hrun : ∀ k u, ∃ v, Run d config ns (now k) (limit k) u v := by
    intro k u
    obtain ⟨before, hb⟩ := Option.isSome_iff_exists.mp (hnow k)
    exact exists_run d ns hb (limit k) u
  choose next hnext using hrun
  exact ⟨⟨now,limit,fun k => Nat.rec t next k,hlimit,fun k => hnext k _⟩, rfl, rfl, rfl⟩

theorem repeated_row {d : Dialect} {config : DreamConfig} {ns : ℕ} (r : Repeated d config ns) (k : ℕ) :
    ∀ g ∈ (r.table k).rows, ∃ f ∈ (r.table 0).rows, ∃ ids, g = f.unlink ids := by
  induction k with
  | zero =>
    intro g hg
    refine ⟨g, hg, [], ?_⟩
    rcases g with ⟨i, n, a, _ | s, u, v⟩ <;> rfl
  | succ k ih =>
    intro g hg
    obtain ⟨f, hf, is, rfl⟩ := kept_row (r.run k) hg
    obtain ⟨e, he, js, rfl⟩ := ih f hf
    exact ⟨e, he, js++is, unlink_unlink js is e⟩

/-- Among the first runs, as many as there are rows and one more, is one that
plans nothing. -/
theorem repeated_ends {d : Dialect} {config : DreamConfig} {ns : ℕ} (r : Repeated d config ns) :
    ∃ k ≤ (r.table 0).rows.length, Plan d config ns (r.now k) (r.table k) [] := by
  by_contra hnone
  simp only [not_exists, not_and] at hnone
  have hshrinks : ∀ k ≤ (r.table 0).rows.length+1,
      (r.table k).rows.length+k ≤ (r.table 0).rows.length := by
    intro k
    induction k with
    | zero => exact fun _ => le_rfl
    | succ k ih =>
      intro hk
      have hlt := (run_progress (r.some_operation k) (r.run k)).resolve_left (hnone k (by omega))
      have hle := ih (by omega)
      omega
  have hlast := hshrinks _ le_rfl
  omega

theorem repeated_complete {d : Dialect} {config : DreamConfig} {ns : ℕ} (r : Repeated d config ns)
    {k : ℕ} (h : Plan d config ns (r.now k) (r.table k) []) {f : Fact} (hf : f ∈ (r.table 0).rows)
    (hns : f.namespaceId = ns) (hq : Qualifies config (r.now k) f) : f.id ∉ (r.table k).ids := by
  intro hid
  obtain ⟨g, hg, hgi⟩ := List.mem_map.mp hid
  obtain ⟨e, he, ids, rfl⟩ := repeated_row r k g hg
  have hef : e = f := List.inj_on_of_nodup_map (r.table 0).key he hf hgi
  subst hef
  exact nothing_left h hg hns hq

/-- A run deletes tombstoned facts only, and so no live successor; those whose
times are compared as instants are deleted only when all their markers are at
least the grace period old. Runs one after another come to plan nothing, and
then every fact that qualifies is gone. -/
theorem compaction_spec (d : Dialect) (config : DreamConfig) (ns : ℕ) :
    (∀ now limit t t', Run d config ns now limit t t' → ∀ f, Deleted t t' f →
      f.tombstoned = true ∧ (∀ g ∈ t.rows, g.supersededBy = some f.id → f.live = false) ∧
        (Comparable d f → ∀ m ∈ f.markers, m.micros+config.grace ≤ now.civil.toMicros)) ∧
      ∀ r : Repeated d config ns,
        (∃ k ≤ (r.table 0).rows.length, Plan d config ns (r.now k) (r.table k) []) ∧
          ∀ k, Plan d config ns (r.now k) (r.table k) [] → ∀ f ∈ (r.table 0).rows,
            f.namespaceId = ns → Qualifies config (r.now k) f → f.id ∉ (r.table k).ids := by
  refine ⟨fun now limit t t' h f hf => ?_, fun r => ⟨repeated_ends r, ?_⟩⟩
  · obtain ⟨before, -, -, ht, -⟩ := deleted_candidate h hf
    refine ⟨ht, fun g _ _ => ?_, deleted_old h hf⟩
    rw [live_not_tombstoned, ht]
    rfl
  · exact fun k hk f hf hns hq => repeated_complete r hk hf hns hq

namespace Invalidated

def year : DreamConfig := ⟨365, by decide⟩

def today : UtcTime := ⟨⟨2024,6,1,12,0,0,0⟩, by decide⟩

def yearAgo : UtcTime := ⟨⟨2023,6,2,12,0,0,0⟩, by decide⟩

def longAgo : UtcTime := ⟨⟨2023,1,1,0,0,0,0⟩, by decide⟩

def fact : Fact := ⟨1,0,true,none,.isoformat today,some (.isoformat longAgo)⟩

def facts : Table := ⟨[fact], by decide⟩

theorem threshold_year : threshold today year = some yearAgo := by decide

theorem fact_planned : Plan .postgresql year 0 today facts [planned year fact] := by
  refine ⟨yearAgo, [fact], threshold_year, ?_, rfl⟩
  have hkeeps : (selectCandidates 0 (.isoformat yearAgo)).keeps Stamp.micros fact = true := by
    decide
  change (selectCandidates 0 (.isoformat yearAgo)).Answer Stamp.micros [fact] [fact]
  rw [Listing.Answer, List.filter_singleton, hkeeps]
  exact (page_whole (by decide)).mpr ⟨List.Perm.refl _, List.pairwise_singleton _ _⟩

/-- A fact whose flag is set is deleted. -/
theorem active_fact_deleted : ∃ t', Run .postgresql year 0 today 1 facts t' ∧
    Deleted facts t' fact ∧ fact.isActive = true := by
  refine ⟨deleteRows [1] facts, ⟨_, fact_planned, ?_⟩, ⟨List.mem_singleton_self _, by decide⟩, rfl⟩
  exact applyAll_planned year [fact] (by decide) (by decide)

/-- Runs on the same table, all on one day, come to an end without the fact. -/
theorem compaction_spec_facts : ∃ r : Repeated .postgresql year 0, r.table 0 = facts ∧
    ∃ k ≤ 1, Plan .postgresql year 0 today (r.table k) [] ∧ fact.id ∉ (r.table k).ids := by
  obtain ⟨r, hnow, -, hstart⟩ := exists_repeated .postgresql year 0 (fun _ => today) (fun _ => 1)
    facts (fun _ => by rw [threshold_year]; rfl) (fun _ => le_rfl)
  obtain ⟨⟨k, hk, hplan⟩, hgone⟩ := (compaction_spec .postgresql year 0).2 r
  have hold : Qualifies year today fact := by
    refine ⟨rfl, fun m hm => ?_⟩
    obtain rfl := List.mem_singleton.mp hm
    decide
  have hfact := hgone k hplan fact (hstart ▸ List.mem_singleton_self fact) rfl (by rwa [hnow])
  rw [hnow] at hplan
  rw [hstart] at hk
  exact ⟨r, hstart, k, hk, hplan, hfact⟩

end Invalidated

end Uru.Dream.FactCompaction
