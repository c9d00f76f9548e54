import Uru.Filter.Chronicle
import Uru.Storage.TimestampText

/-!
# The window at the stores

Every channel of the Chronicle engine cuts its chunks down to the window on
the source timestamp of a chunk, or its creation where it has none. Each of
them takes the bounds for inclusive, so that no chunk is lost that the full
predicate keeps.
-/

set_option autoImplicit false

namespace Uru.Storage.ChronicleWindow

open Uru.Lib Uru.Filter Uru.Filter.Chronicle Uru.Storage.TimestampText

structure Chunk where
  occurredAt : Option DateTime
  sourceTimestamp : Option DateTime
  createdAt : DateTime
  texts : StringKey → Option PyStr
  metadata : Dict

namespace Chunk

def axis (c : Chunk) : DateTime := c.sourceTimestamp.getD c.createdAt

def row (c : Chunk) : Row where
  time
    | .occurredAt => c.occurredAt
    | .sourceTimestamp => c.sourceTimestamp
    | .createdAt => some c.createdAt
    | .updatedAt | .timestamp => none
  status := .completed

end Chunk

def chunkToRecord (c : Chunk) : Record where
  system
    | .date .occurredAt => stored (c.occurredAt.or c.sourceTimestamp)
    | .date .sourceTimestamp => stored c.sourceTimestamp
    | .date .createdAt => .datetime c.createdAt
    | .text k => ((c.texts k).map Val.str).getD .null
  metadata := c.metadata

/-- The readers of the window: the stores behind the semantic and full-text
channels, and the entity channel, which drops hydrated chunks itself. -/
inductive Reader
  | pgvector
  | surrealdb
  | sqliteLance
  | entityChannel

def window (b : ChronicleDateBound) : Listing Row DateTime :=
  (Request.searchWindow b.createdAfter b.createdBefore).listing

/-- SQLite compares the texts of the timestamps, the other stores the instants. -/
def Reader.admits (b : ChronicleDateBound) (c : Chunk) : Reader → Bool
  | .pgvector | .surrealdb => (window b).keeps DateTime.micros c.row
  | .sqliteLance => (window b).keeps (Adapter.text .vector) c.row
  | .entityChannel =>
    if b.createdAfter.any (fun t => c.axis.micros < t.micros) then false
    else if b.createdBefore.any (fun t => t.micros < c.axis.micros) then false
    else true

section Window

variable {b : ChronicleDateBound} {c : Chunk}

theorem coalesce_axis (c : Chunk) :
    coalesce [.sourceTimestamp,.createdAt] c.row = some c.axis := by
  cases h : c.sourceTimestamp with
  | none => simp [coalesce, Chunk.row, Chunk.axis, h]
  | some d => simp [coalesce, Chunk.row, Chunk.axis, h]

theorem window_keeps {κ : Type} [LinearOrder κ] (key : DateTime → κ) :
    (window b).keeps key c.row = true ↔
      (∀ d ∈ b.createdAfter, key d ≤ key c.axis) ∧ ∀ d ∈ b.createdBefore, key c.axis ≤ key d := by
  obtain ⟨after, before⟩ := b
  cases after with
  | none =>
    cases before with
    | none => simp [window, Request.listing, Listing.keeps, within, bound]
    | some e =>
      simp [window, Request.listing, Listing.keeps, within, bound, Bound.holds, coalesce_axis,
        Rel.holds]
  | some d =>
    cases before with
    | none =>
      simp [window, Request.listing, Listing.keeps, within, bound, Bound.holds, coalesce_axis,
        Rel.holds]
    | some e =>
      simp [window, Request.listing, Listing.keeps, within, bound, Bound.holds, coalesce_axis,
        Rel.holds]

theorem accepts_of_hasUtc {d : DateTime} (h : hasUtc d) : Adapter.vector.accepts d := by
  obtain ⟨u, hu⟩ := h
  unfold Adapter.accepts
  rw [normalized rfl, dtToIso, hu]
  rfl

theorem text_le {d e : DateTime} (hd : hasUtc d) (he : hasUtc e) :
    Adapter.vector.text d ≤ Adapter.vector.text e ↔ d.micros ≤ e.micros := by
  rw [← not_lt, ← not_lt, normalized_lt rfl (accepts_of_hasUtc he) (accepts_of_hasUtc hd)]

/-- Every reader takes the window for the instants within its bounds. -/
theorem admits_iff (reader : Reader) (hb : ∀ d ∈ b.dates, hasUtc d) (hc : hasUtc c.axis) :
    reader.admits b c = true ↔ b.Holds c.axis.micros := by
  have hafter : ∀ d ∈ b.createdAfter, hasUtc d := fun d hd =>
    hb d (List.mem_append_left _ (Option.mem_toList.mpr hd))
  have hbefore : ∀ d ∈ b.createdBefore, hasUtc d := fun d hd =>
    hb d (List.mem_append_right _ (Option.mem_toList.mpr hd))
  cases reader with
  | pgvector | surrealdb => exact window_keeps DateTime.micros
  | sqliteLance =>
    refine (window_keeps (Adapter.text .vector)).trans (and_congr ?_ ?_)
    · exact forall₂_congr (fun d hd => text_le (hafter d hd) hc)
    · exact forall₂_congr (fun d hd => text_le hc (hbefore d hd))
  | entityChannel =>
    obtain ⟨after, before⟩ := b
    cases after <;> cases before <;> simp [Reader.admits, ChronicleDateBound.Holds]

theorem admits_unbounded (reader : Reader) (h : b.dates = []) : reader.admits b c = true := by
  obtain ⟨after, before⟩ := b
  have hnone : after = none ∧ before = none := by
    simpa [ChronicleDateBound.dates, Option.toList_eq_nil_iff] using h
  obtain ⟨rfl, rfl⟩ := hnone
  cases reader <;> rfl

end Window

section Oracle

def relax : Op → Op
  | .gt => .gte
  | .lt => .lte
  | op => op

theorem operand_datetime {x : Operand} {v : DateTime} (h : asDatetime x = some v) (s : Val)
    (op : Op) : Filter.compileSystemClause s op x =
      Filter.compileSystemClause s op (.val (.datetime v)) := by
  rcases x with (y | t) | xs
  · cases y with
    | datetime d => cases h; rfl
    | _ => cases h
  · cases h
    cases op <;> rfl
  · cases h

theorem system_eq_datetime {d v : DateTime} (hd : hasUtc d) (hv : hasUtc v) :
    Filter.compileSystemClause (.datetime d) .eq (.val (.datetime v)) =
      some (decide (v.micros = d.micros)) := by
  obtain ⟨u, hu⟩ := hd
  obtain ⟨w, hw⟩ := hv
  have heq : u = w ↔ v.micros = d.micros := by
    rw [← toUtc_micros hu, ← toUtc_micros hw]
    exact ⟨fun h => by rw [h], fun h => micros_inj h.symm⟩
  have hclause : Filter.compileSystemClause (.datetime d) .eq (.val (.datetime v)) =
      eqAligned (.datetime d) (.datetime v) := rfl
  rw [hclause, eqAligned, aligned]
  simp only [hu, hw, bind, Option.bind_some, pyEq, DateTime.pyEq, UtcTime.aware, if_true]
  simp [heq]

/-- The oracle decides a relaxed comparison on the instants. -/
theorem oracle_relaxed {op : Op} (ho : op = .eq ∨ lowerOps op ∨ upperOps op) {d v : DateTime}
    (hd : hasUtc d) (hv : hasUtc v) :
    Filter.compileSystemClause (.datetime d) (relax op) (.val (.datetime v)) = some true ↔
      Within op v d.micros := by
  obtain ⟨u, hu⟩ := id hd
  obtain ⟨w, hw⟩ := id hv
  cases op with
  | eq => simp [relax, Within, system_eq_datetime hd hv]
  | gt | gte =>
    have hge := oracle_bound .ge hu hw
    simp only [TimestampText.op] at hge
    simp [relax, hge, Rel.holds, Within, lowerOps]
  | lt | lte =>
    have hle := oracle_bound .le hu hw
    simp only [TimestampText.op] at hle
    simp [relax, hle, Rel.holds, Within, lowerOps]
  | _ => simp [lowerOps, upperOps] at ho

theorem aligned_utc {compare : Val → Val → Option Bool} {d e : DateTime} {b : Bool}
    (h : aligned compare (.datetime d) (.datetime e) = some b) : hasUtc d ∧ hasUtc e := by
  rcases hd : d.toUtc with _ | u
  · simp [aligned, hd] at h
  · rcases he : e.toUtc with _ | v
    · simp [aligned, hd, he] at h
    · exact ⟨⟨u, hd⟩, ⟨v, he⟩⟩

/-- A comparison that the oracle accepts holds with its boundary included. -/
theorem oracle_within {op : Op} (ho : op = .eq ∨ lowerOps op ∨ upperOps op)
    {t : Option DateTime} {v : DateTime}
    (h : Filter.compileSystemClause (stored t) op (.val (.datetime v)) = some true) :
    ∃ d, t = some d ∧ hasUtc d ∧ hasUtc v ∧ Within op v d.micros := by
  cases t with
  | none =>
    cases op with
    | eq | gt | gte | lt | lte => cases h
    | _ => simp [lowerOps, upperOps] at ho
  | some d =>
    have hutc : hasUtc d ∧ hasUtc v := by
      cases op with
      | eq =>
        have heq : eqAligned (.datetime d) (.datetime v) = some true := h
        exact aligned_utc heq
      | gt | gte | lt | lte => exact aligned_utc h
      | _ => simp [lowerOps, upperOps] at ho
    obtain ⟨hd, hv⟩ := hutc
    obtain ⟨u, hu⟩ := id hd
    obtain ⟨w, hw⟩ := id hv
    refine ⟨d, rfl, hd, hv, ?_⟩
    rw [stored] at h
    cases op with
    | eq => simpa [Within, system_eq_datetime hd hv] using h
    | gt =>
      have hgt := oracle_bound .gt hu hw
      simp only [TimestampText.op] at hgt
      rw [hgt] at h
      have hlt : v.micros < d.micros := by simpa [Rel.holds] using h
      exact hlt.le
    | lt =>
      have hlt := oracle_bound .lt hu hw
      simp only [TimestampText.op] at hlt
      rw [hlt] at h
      have hlt' : d.micros < v.micros := by simpa [Rel.holds] using h
      exact hlt'.le
    | gte | lte => exact (oracle_relaxed ho hd hv).mp h
    | _ => simp [lowerOps, upperOps] at ho

end Oracle

section Superset

theorem key_clause (c : FilterClause) (hc : c.path = [pushdownKey]) (r : Record) :
    compileClause c r =
      Filter.compileSystemClause (r.system (.date .sourceTimestamp)) c.op c.operand := by
  have hkind : pathKind [pushdownKey] = .system (.date .sourceTimestamp) := by decide
  rw [compileClause, hc, hkind]

def relaxed (p : PyStr × Op × DateTime) : Ast :=
  clause [p.1] (relax p.2.1) (.val (.datetime p.2.2))

def dated (c : Chunk) : Chunk := { c with sourceTimestamp := some c.axis }

theorem folded_clause {ast : Ast} {p : PyStr × Op × DateTime} (hp : p ∈ folded ast) :
    (p.2.1 = .eq ∨ lowerOps p.2.1 ∨ upperOps p.2.1) ∧ p.1 = pushdownKey ∧
      ∀ c : Chunk, compilePython ast (chunkToRecord c) = some true →
        Filter.compileSystemClause (stored c.sourceTimestamp) p.2.1 (.val (.datetime p.2.2)) =
          some true := by
  rcases ast with c | ⟨op, fs⟩
  · cases hp
  · cases op with
    | or | not => cases hp
    | and =>
      obtain ⟨node, hnode, hcons⟩ := List.mem_filterMap.mp hp
      obtain ⟨c, rfl, hpath, hop, hval, hkey, hopeq⟩ := consumable_key hcons
      rw [hopeq]
      refine ⟨hop, hkey, fun chunk hrun => ?_⟩
      rw [compilePython, Formula.run_node, Formula.combine, Formula.allOf_true] at hrun
      have hleaf := hrun _ (List.mem_map_of_mem hnode)
      rw [Formula.run_leaf, key_clause c hpath, operand_datetime hval] at hleaf
      exact hleaf

theorem relaxed_holds {ast : Ast} {p : PyStr × Op × DateTime} (hp : p ∈ folded ast) {c : Chunk}
    (hc : hasUtc c.axis) (hv : hasUtc p.2.2) :
    compilePython (relaxed p) (chunkToRecord (dated c)) = some true ↔
      Within p.2.1 p.2.2 c.axis.micros := by
  obtain ⟨hop, hkey, _⟩ := folded_clause hp
  rw [← oracle_relaxed hop hc hv, relaxed, hkey, compilePython, clause, Formula.run_leaf,
    key_clause _ rfl]
  rfl

/-- No reader of the window loses a chunk that the full predicate keeps. What
the window alone means is the folded comparisons on the time it reads, with
their boundaries included. -/
theorem window_superset {mode : OnUnsupported} {ast : Ast} {s : Compiled}
    (h : compileChronicle mode ast = .ok s) :
    (∀ (reader : Reader) (c : Chunk), compilePython ast (chunkToRecord c) = some true →
      reader.admits s.predicate c = true) ∧
    (∀ key, key ∈ s.consumedKeys ↔ key = pushdownKey ∧ folded ast ≠ []) ∧
    ((∀ p ∈ folded ast, hasUtc p.2.2) → ∀ (reader : Reader) (c : Chunk), hasUtc c.axis →
      (reader.admits s.predicate c = true ↔ ∀ p ∈ folded ast,
        compilePython (relaxed p) (chunkToRecord (dated c)) = some true)) := by
  obtain ⟨hdates, hholds, hkeys⟩ := compileChronicle_spec h
  refine ⟨fun reader c hrun => ?_, hkeys, fun hutc reader c hc => ?_⟩
  · have hclause : ∀ p ∈ folded ast, ∃ d, c.sourceTimestamp = some d ∧ hasUtc d ∧
        hasUtc p.2.2 ∧ Within p.2.1 p.2.2 d.micros := fun p hp =>
      oracle_within (folded_clause hp).1 ((folded_clause hp).2.2 c hrun)
    by_cases hnil : folded ast = []
    · refine admits_unbounded reader (List.eq_nil_iff_forall_not_mem.mpr (fun d hd => ?_))
      obtain ⟨p, hp, _⟩ := hdates d hd
      rw [hnil] at hp
      cases hp
    · obtain ⟨p, hp⟩ := List.exists_mem_of_ne_nil _ hnil
      obtain ⟨d, hd, hdutc, _, _⟩ := hclause p hp
      have haxis : c.axis = d := by rw [Chunk.axis, hd, Option.getD_some]
      refine (admits_iff reader (fun e he => ?_) (haxis ▸ hdutc)).mpr
        ((hholds _).mpr (fun q hq => ?_))
      · obtain ⟨q, hq, rfl⟩ := hdates e he
        obtain ⟨_, _, _, hv, _⟩ := hclause q hq
        exact hv
      · obtain ⟨e, he, _, _, hw⟩ := hclause q hq
        rw [hd] at he
        cases he
        exact haxis ▸ hw
  · have hb : ∀ d ∈ s.predicate.dates, hasUtc d := by
      intro d hd
      obtain ⟨p, hp, rfl⟩ := hdates d hd
      exact hutc p hp
    rw [admits_iff reader hb hc, hholds]
    exact forall₂_congr (fun p hp => (relaxed_holds hp hc (hutc p hp)).symm)

end Superset

/-! A filter for what came after midnight, and a chunk of that very instant. -/

namespace Midnight

def afterMidnight : Ast := .node .and [clause [pushdownKey] .gt (.val (.datetime newYear))]

def atMidnight : Chunk where
  occurredAt := none
  sourceTimestamp := some newYear
  createdAt := newYear
  texts := fun _ => none
  metadata := []

def compiled : Compiled := ⟨⟨some newYear, none⟩, [pushdownKey]⟩

theorem compile_afterMidnight : compileChronicle .split afterMidnight = .ok compiled := rfl

theorem midnight_admitted : Reader.pgvector.admits compiled.predicate atMidnight = true ↔
    ∀ p ∈ folded afterMidnight,
      compilePython (relaxed p) (chunkToRecord (dated atMidnight)) = some true :=
  (window_superset compile_afterMidnight).2.2
    (by simpa [folded, afterMidnight, clause, consumableDateClause, lowerOps, asDatetime,
      Operand.val] using ⟨_, UtcTime.aware_toUtc _⟩)
    .pgvector atMidnight ⟨_, UtcTime.aware_toUtc _⟩

/-- The key is consumed, yet the window admits a chunk that the comparison on
the key, which is the whole filter, excludes. -/
theorem window_not_constraint : ¬ ∀ (ast : Ast) (s : Compiled) (reader : Reader) (c : Chunk),
    compileChronicle .split ast = .ok s → pushdownKey ∈ s.consumedKeys →
    (∀ l ∈ ast.leaves, l.path = [pushdownKey]) →
    (reader.admits s.predicate c = true ↔ compilePython ast (chunkToRecord c) = some true) := by
  intro h
  have hpath : ∀ l ∈ afterMidnight.leaves, l.path = [pushdownKey] := by
    intro l hl
    rw [afterMidnight, clause, Formula.leaves_node] at hl
    simp only [List.flatMap_cons, List.flatMap_nil, List.append_nil, Formula.leaves_leaf,
      List.mem_singleton] at hl
    rw [hl]
  have hiff := h afterMidnight compiled .pgvector atMidnight compile_afterMidnight
    List.mem_cons_self hpath
  have hadmits : Reader.pgvector.admits compiled.predicate atMidnight = true := by decide
  have hkeeps : compilePython afterMidnight (chunkToRecord atMidnight) = some false := by
    decide
  rw [hiff, hkeeps] at hadmits
  cases hadmits

end Midnight

end Uru.Storage.ChronicleWindow
