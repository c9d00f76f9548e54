import Mathlib.Data.List.Nodup
import Mathlib.Data.List.Pairwise
import Mathlib.Tactic

/-!
# Renaming types

The operator's mapping renames the types of entities and relationships; a type
is a text that the columns can hold. The
planner pages through the listed rows of a namespace and notes a rename for
each row that the mapping changes; apply rewrites these rows by id, and leaves
out those that have the new type already. An update fails that would give two
entities of one name one type. The record of an operation is read backwards by
exchanging the old and the new types. The labels in the graph are not mirrored.
The graph has a verb that relabels one pair after another.
-/

set_option autoImplicit false

namespace Uru.Dream.NormalizeSchema

variable {τ : Type} [DecidableEq τ]

/-- A row of `entities` or `relationships`, of which only the former are named;
`listed` says that the listings of live rows include it. -/
structure Row (τ : Type) where
  id : ℕ
  namespaceId : ℕ
  name : Option String
  listed : Bool
  type : τ
  updatedAt : ℤ

def Row.namesake (a b : Row τ) : Prop :=
  a.namespaceId = b.namespaceId ∧ a.name.isSome = true ∧ a.name = b.name

instance (a b : Row τ) : Decidable (a.namesake b) := inferInstanceAs (Decidable (_ ∧ _ ∧ _))

/-- `UNIQUE (namespace_id, name, entity_type)`, which says nothing of rows
without a name. -/
def UniqueNames (rows : List (Row τ)) : Prop :=
  rows.Pairwise (fun a b => a.namesake b → a.type ≠ b.type)

instance (rows : List (Row τ)) : Decidable (UniqueNames rows) :=
  inferInstanceAs (Decidable (rows.Pairwise _))

structure Table (τ : Type) (named : Bool) where
  rows : List (Row τ)
  key : (rows.map Row.id).Nodup
  names : ∀ row ∈ rows, row.name.isSome = named
  unique : UniqueNames rows

structure Item (τ : Type) where
  id : ℕ
  type : τ

structure Rename (τ : Type) where
  id : ℕ
  oldType : τ
  newType : τ

/-- A relationship in the graph; `inside` says that both endpoints are entities
of its namespace. -/
structure Edge (τ : Type) where
  id : ℕ
  namespaceId : ℕ
  inside : Bool
  listed : Bool
  label : τ
  updatedAt : ℤ

structure Graph (τ : Type) where
  nodes : List (Row τ)
  edges : List (Edge τ)
  node_key : (nodes.map Row.id).Nodup
  edge_key : (edges.map Edge.id).Nodup

structure Store (τ : Type) where
  entities : Table τ true
  relationships : Table τ false
  graph : Option (Graph τ)

structure DreamConfig (τ : Type) where
  normalizeSchemaEnabled : Bool
  normalizeSchemaMapping : List (τ × τ)

def pageSize : ℕ := 1000

def listRows (ns : ℕ) (rows : List (Row τ)) : List (Item τ) :=
  (rows.filter (fun row => row.namespaceId = ns ∧ row.listed = true)).map
    (fun row => ⟨row.id,row.type⟩)

def Graph.listEdges (ns : ℕ) (g : Graph τ) : List (Item τ) :=
  (g.edges.filter (fun e => e.namespaceId = ns ∧ e.inside = true ∧ e.listed = true)).map
    (fun e => ⟨e.id,e.label⟩)

/-- A coordinator with a graph lists what the graph holds. -/
def listEntities (ns : ℕ) (s : Store τ) : List (Item τ) :=
  match s.graph with
  | some g => listRows ns g.nodes
  | none => listRows ns s.entities.rows

def listRelationships (ns : ℕ) (s : Store τ) : List (Item τ) :=
  match s.graph with
  | some g => g.listEdges ns
  | none => listRows ns s.relationships.rows

def renameOf (mapping : List (τ × τ)) (item : Item τ) : Option (Rename τ) :=
  match mapping.lookup item.type with
  | none => none
  | some newType => if newType = item.type then none else some ⟨item.id,item.type,newType⟩

def collectRenames (mapping : List (τ × τ)) (listing : List (Item τ)) (offset : ℕ) :
    List (Rename τ) :=
  let batch := (listing.drop offset).take pageSize
  if batch = [] then []
  else batch.filterMap (renameOf mapping)++
    if batch.length < pageSize then [] else collectRenames mapping listing (offset+pageSize)
termination_by listing.length-offset
decreasing_by
  have hpos := List.length_pos_of_ne_nil ‹¬ batch = []›
  simp only [batch, List.length_take, List.length_drop, pageSize] at hpos ⊢
  omega

inductive Decision
  | planned
  | insufficientInput
deriving DecidableEq

structure DreamOp (τ : Type) where
  mapping : List (τ × τ)
  decision : Decision
  entityRenames : List (Rename τ)
  relationshipRenames : List (Rename τ)

def planVectorcypherNormalizeSchema (config : DreamConfig τ) (ns : ℕ) (s : Store τ) :
    List (DreamOp τ) :=
  let mapping := config.normalizeSchemaMapping
  if config.normalizeSchemaEnabled = false then []
  else if mapping = [] then [⟨[],.insufficientInput,[],[]⟩]
  else [⟨mapping,.planned,collectRenames mapping (listEntities ns s) 0,
    collectRenames mapping (listRelationships ns s) 0⟩]

def Row.retype (row : Row τ) (newType : τ) (ts : ℤ) : Row τ :=
  { row with type := newType, updatedAt := ts }

inductive DatabaseError
  | integrityError
deriving DecidableEq

def setType (id : ℕ) (newType : τ) (ts : ℤ) (row : Row τ) : Row τ :=
  if row.id = id then row.retype newType ts else row

omit [DecidableEq τ] in
theorem setType_kept (id : ℕ) (newType : τ) (ts : ℤ) (row : Row τ) :
    (setType id newType ts row).id = row.id ∧
      (setType id newType ts row).namespaceId = row.namespaceId ∧
      (setType id newType ts row).name = row.name := by
  unfold setType
  split <;> exact ⟨rfl, rfl, rfl⟩

/-- `UPDATE ... SET type WHERE id`. -/
def Table.update {named : Bool} (t : Table τ named) (id : ℕ) (newType : τ) (ts : ℤ) :
    Except DatabaseError (Table τ named) :=
  if h : UniqueNames (t.rows.map (setType id newType ts)) then
    .ok
      { rows := t.rows.map (setType id newType ts)
        key := by
          have hid : Row.id ∘ setType id newType ts = Row.id :=
            funext (fun row => (setType_kept id newType ts row).1)
          rw [List.map_map, hid]
          exact t.key
        names := by
          intro row hrow
          obtain ⟨row', hrow', rfl⟩ := List.mem_map.mp hrow
          rw [(setType_kept id newType ts row').2.2]
          exact t.names row' hrow'
        unique := h }
  else .error .integrityError

def readType {named : Bool} (t : Table τ named) (id : ℕ) : Option τ :=
  (t.rows.find? (fun row => row.id = id)).map Row.type

/-- `_apply_entity_renames` and `_apply_relationship_renames`: the table, and
the renames that were carried out. -/
def applyRenames {named : Bool} (ts : ℤ) : List (Rename τ) → Table τ named →
    Except DatabaseError (Table τ named × List (Rename τ))
  | [], t => .ok (t,[])
  | r::rs, t =>
    match readType t r.id with
    | none => applyRenames ts rs t
    | some current =>
      if current = r.newType then applyRenames ts rs t
      else do
        let rest ← applyRenames ts rs (← t.update r.id r.newType ts)
        return (rest.1,r::rest.2)

structure UndoRecord (τ : Type) where
  entityRenames : List (Rename τ)
  relationshipRenames : List (Rename τ)

/-- Without an SQL session nothing is written. The graph is left as it is: the
operation is not among those that are mirrored. The transaction is the caller's,
who rolls it back when a statement fails. -/
def applyVectorcypherNormalizeSchema (session : Bool) (op : DreamOp τ) (ts : ℤ)
    (s : Store τ) : Except DatabaseError (Store τ × UndoRecord τ) :=
  if session = false then .ok (s,⟨[],[]⟩)
  else do
    let e ← applyRenames ts op.entityRenames s.entities
    let r ← applyRenames ts op.relationshipRenames s.relationships
    return (⟨e.1,r.1,s.graph⟩,⟨e.2,r.2⟩)

def Rename.swap (r : Rename τ) : Rename τ := ⟨r.id,r.newType,r.oldType⟩

/-- The operation that replays a record with the types exchanged. -/
def UndoRecord.reverse (u : UndoRecord τ) : DreamOp τ :=
  ⟨[],.planned,u.entityRenames.map Rename.swap,u.relationshipRenames.map Rename.swap⟩

def relabel (ns : ℕ) (ts : ℤ) (oldLabel newLabel : τ) (edges : List (Edge τ)) : List (Edge τ) :=
  if oldLabel = newLabel then edges
  else edges.map (fun e =>
    if e.namespaceId = ns ∧ e.inside = true ∧ e.label = oldLabel then
      { e with label := newLabel, updatedAt := ts }
    else e)

def renameTypesBatch (sanitize : τ → τ) (ns : ℕ) (ts : ℤ) (renames : List (τ × τ))
    (edges : List (Edge τ)) : List (Edge τ) :=
  renames.foldl (fun edges r => relabel ns ts (sanitize r.1) (sanitize r.2) edges) edges

theorem collectRenames_eq (mapping : List (τ × τ)) (listing : List (Item τ)) (offset : ℕ) :
    collectRenames mapping listing offset = (listing.drop offset).filterMap (renameOf mapping) := by
  induction offset using collectRenames.induct listing with
  | case1 offset batch hnil =>
    rw [collectRenames, if_pos hnil]
    rcases List.take_eq_nil_iff.mp hnil with hzero | hdrop
    · cases hzero
    · rw [hdrop]
      rfl
  | case2 offset batch hne ih =>
    rw [collectRenames, if_neg hne]
    by_cases hlast : batch.length < pageSize
    · have hwhole : (listing.drop offset).length ≤ pageSize := by
        simp only [batch, List.length_take] at hlast
        omega
      rw [if_pos hlast, List.append_nil, List.take_of_length_le hwhole]
    · rw [if_neg hlast, ih, ← List.filterMap_append, ← List.drop_drop, List.take_append_drop]

theorem renameOf_some {mapping : List (τ × τ)} {item : Item τ} {r : Rename τ}
    (h : renameOf mapping item = some r) : r.id = item.id ∧ r.oldType = item.type ∧
      mapping.lookup item.type = some r.newType ∧ r.newType ≠ item.type := by
  unfold renameOf at h
  rcases hm : mapping.lookup item.type with _ | newType
  · rw [hm] at h
    cases h
  · rw [hm] at h
    by_cases hn : newType = item.type
    · simp [hn] at h
    · simp only [if_neg hn, Option.some.injEq] at h
      subst h
      exact ⟨rfl, rfl, rfl, hn⟩

theorem renames_ids (mapping : List (τ × τ)) (listing : List (Item τ)) :
    ((listing.filterMap (renameOf mapping)).map Rename.id).Sublist (listing.map Item.id) := by
  induction listing with
  | nil => exact List.Sublist.refl _
  | cons item listing ih =>
    rcases hr : renameOf mapping item with _ | r
    · rw [List.filterMap_cons_none hr]
      exact ih.cons _
    · rw [List.filterMap_cons_some hr, List.map_cons, List.map_cons, (renameOf_some hr).1]
      exact ih.cons_cons _

omit [DecidableEq τ] in
theorem list_nodup (ns : ℕ) {rows : List (Row τ)} (h : (rows.map Row.id).Nodup) :
    ((listRows ns rows).map Item.id).Nodup := by
  rw [listRows, List.map_map]
  exact h.sublist (List.filter_sublist.map Row.id)

omit [DecidableEq τ] in
theorem listEdges_nodup (ns : ℕ) (g : Graph τ) : ((g.listEdges ns).map Item.id).Nodup := by
  rw [Graph.listEdges, List.map_map]
  exact g.edge_key.sublist (List.filter_sublist.map Edge.id)

omit [DecidableEq τ] in
theorem listEntities_nodup (ns : ℕ) (s : Store τ) : ((listEntities ns s).map Item.id).Nodup := by
  unfold listEntities
  cases s.graph with
  | none => exact list_nodup ns s.entities.key
  | some g => exact list_nodup ns g.node_key

omit [DecidableEq τ] in
theorem listRelationships_nodup (ns : ℕ) (s : Store τ) :
    ((listRelationships ns s).map Item.id).Nodup := by
  unfold listRelationships
  cases s.graph with
  | none => exact list_nodup ns s.relationships.key
  | some g => exact listEdges_nodup ns g

section Tables

variable {named : Bool}

omit [DecidableEq τ] in
theorem row_unique {t : Table τ named} {row row' : Row τ} (h : row ∈ t.rows) (h' : row' ∈ t.rows)
    (hid : row.id = row'.id) : row = row' :=
  List.inj_on_of_nodup_map t.key h h' hid

omit [DecidableEq τ] in
theorem Row.namesake.symm {a b : Row τ} (h : a.namesake b) : b.namesake a :=
  ⟨h.1.symm, h.2.2 ▸ h.2.1, h.2.2.symm⟩

omit [DecidableEq τ] in
theorem Table.distinct {t : Table τ named} {a b : Row τ} (ha : a ∈ t.rows) (hb : b ∈ t.rows)
    (hid : a.id ≠ b.id) (h : a.namesake b) : a.type ≠ b.type := by
  have hsymm : Std.Symm (fun a b : Row τ => a.namesake b → a.type ≠ b.type) :=
    ⟨fun _ _ hab hba => (hab hba.symm).symm⟩
  exact t.unique.forall ha hb (fun he => hid (congrArg Row.id he)) h

omit [DecidableEq τ] in
theorem readType_of_mem {t : Table τ named} {row : Row τ} (h : row ∈ t.rows) :
    readType t row.id = some row.type := by
  unfold readType
  rcases hf : t.rows.find? (fun r => r.id = row.id) with _ | row'
  · exact absurd (decide_eq_true rfl) (List.find?_eq_none.mp hf row h)
  · have hfound := List.find?_some hf
    have hid : row'.id = row.id := of_decide_eq_true hfound
    rw [hf, ← row_unique (List.mem_of_find?_eq_some hf) h hid]
    rfl

def rewritten (ts : ℤ) (rs : List (Rename τ)) (row : Row τ) : Row τ :=
  match rs.find? (fun r => r.id = row.id) with
  | some r => if row.type = r.newType then row else row.retype r.newType ts
  | none => row

def carried (t : Table τ named) (r : Rename τ) : Bool :=
  match readType t r.id with
  | some current => current ≠ r.newType
  | none => false

theorem rewritten_kept (ts : ℤ) (rs : List (Rename τ)) (row : Row τ) :
    (rewritten ts rs row).id = row.id ∧ (rewritten ts rs row).namespaceId = row.namespaceId ∧
      (rewritten ts rs row).name = row.name := by
  unfold rewritten
  split
  · split <;> exact ⟨rfl, rfl, rfl⟩
  · exact ⟨rfl, rfl, rfl⟩

theorem rewritten_id (ts : ℤ) (rs : List (Rename τ)) (row : Row τ) :
    (rewritten ts rs row).id = row.id :=
  (rewritten_kept ts rs row).1

omit [DecidableEq τ] in
theorem readType_none {t : Table τ named} {id : ℕ} (h : readType t id = none) :
    ∀ row ∈ t.rows, row.id ≠ id := by
  intro row hrow hid
  rw [← hid, readType_of_mem hrow] at h
  cases h

omit [DecidableEq τ] in
theorem readType_some {t : Table τ named} {id : ℕ} {current : τ}
    (h : readType t id = some current) : ∃ row ∈ t.rows, row.id = id ∧ row.type = current := by
  obtain ⟨row, hf, ht⟩ := Option.map_eq_some_iff.mp h
  have hfound := List.find?_some hf
  exact ⟨row, List.mem_of_find?_eq_some hf, of_decide_eq_true hfound, ht⟩

omit [DecidableEq τ] in
theorem mem_setType {t t' : Table τ named} {id : ℕ} {newType : τ} {ts : ℤ}
    (ht : t'.rows = t.rows.map (setType id newType ts)) {row : Row τ} (h : row ∈ t.rows)
    (hne : row.id ≠ id) : row ∈ t'.rows :=
  ht ▸ List.mem_map.mpr ⟨row, h, if_neg hne⟩

omit [DecidableEq τ] in
theorem readType_other {t t' : Table τ named} {id id' : ℕ} {newType : τ} {ts : ℤ}
    (ht : t'.rows = t.rows.map (setType id newType ts)) (h : id' ≠ id) :
    readType t' id' = readType t id' := by
  rcases hr : readType t id' with _ | current
  · rcases hu : readType t' id' with _ | current
    · rfl
    · obtain ⟨row, hrow, hid, -⟩ := readType_some hu
      rw [ht] at hrow
      obtain ⟨row', hrow', rfl⟩ := List.mem_map.mp hrow
      exact absurd ((setType_kept id newType ts row').1.symm.trans hid)
        (readType_none hr row' hrow')
  · obtain ⟨row, hrow, hid, htype⟩ := readType_some hr
    rw [← hid, ← htype]
    exact readType_of_mem (mem_setType ht hrow (hid ▸ h))

omit [DecidableEq τ] in
theorem find_other {rs : List (Rename τ)} {id : ℕ} (h : id ∉ rs.map Rename.id) :
    rs.find? (fun r => r.id = id) = none :=
  List.find?_eq_none.mpr (fun r hr => by
    have hne : r.id ≠ id := fun he => h (he ▸ List.mem_map_of_mem hr)
    simpa using hne)

omit [DecidableEq τ] in
theorem find_unique {rs : List (Rename τ)} {r : Rename τ} {id : ℕ} (h : (rs.map Rename.id).Nodup)
    (hr : r ∈ rs) (hid : id = r.id) : rs.find? (fun q => q.id = id) = some r := by
  rcases hf : rs.find? (fun q => q.id = id) with _ | q
  · exact absurd (decide_eq_true hid.symm) (List.find?_eq_none.mp hf r hr)
  · have hfound := List.find?_some hf
    have hq : q.id = id := of_decide_eq_true hfound
    rw [hf, List.inj_on_of_nodup_map h (List.mem_of_find?_eq_some hf) hr (hq.trans hid)]

def Free (t : Table τ named) (rs : List (Rename τ)) : Prop :=
  ∀ r ∈ rs, ∀ row ∈ t.rows, row.id = r.id → row.type ≠ r.newType →
    ∀ other ∈ t.rows, other.id ≠ row.id → row.namesake other →
      other.type ≠ r.newType ∧ ∀ q ∈ rs, q.id = other.id → q.newType ≠ r.newType

omit [DecidableEq τ] in
theorem Free.tail {t : Table τ named} {r : Rename τ} {rs : List (Rename τ)}
    (h : Free t (r::rs)) : Free t rs := by
  intro q hq row hrow hid htype other hother hne hname
  obtain ⟨hfree, hgiven⟩ := h q (List.mem_cons_of_mem r hq) row hrow hid htype other hother hne hname
  exact ⟨hfree, fun p hp => hgiven p (List.mem_cons_of_mem r hp)⟩

theorem update_ok {t : Table τ named} {r : Rename τ} {rs : List (Rename τ)} {row₀ : Row τ}
    (h : Free t (r::rs)) (hrow₀ : row₀ ∈ t.rows) (hid₀ : row₀.id = r.id)
    (ht₀ : row₀.type ≠ r.newType) (ts : ℤ) :
    ∃ t', t.update r.id r.newType ts = .ok t' ∧
      t'.rows = t.rows.map (setType r.id r.newType ts) := by
  have hfree := h r List.mem_cons_self row₀ hrow₀ hid₀ ht₀
  have hunique : UniqueNames (t.rows.map (setType r.id r.newType ts)) := by
    refine List.pairwise_map.mpr ?_
    refine (t.unique.and (List.pairwise_map.mp t.key)).imp_of_mem (fun {a b} ha hb hab hname => ?_)
    obtain ⟨-, hnsa, hna⟩ := setType_kept r.id r.newType ts a
    obtain ⟨-, hnsb, hnb⟩ := setType_kept r.id r.newType ts b
    have hname : a.namesake b := by
      rwa [Row.namesake, hnsa, hnsb, hna, hnb] at hname
    by_cases hra : a.id = r.id
    · have hb' : b.id ≠ r.id := fun hrb => hab.2 (hra.trans hrb.symm)
      rw [setType, if_pos hra, setType, if_neg hb']
      obtain rfl := row_unique ha hrow₀ (hra.trans hid₀.symm)
      exact ((hfree b hb (fun he => hab.2 he.symm) hname).1).symm
    · rw [setType, if_neg hra]
      by_cases hrb : b.id = r.id
      · rw [setType, if_pos hrb]
        obtain rfl := row_unique hb hrow₀ (hrb.trans hid₀.symm)
        exact (hfree a ha hab.2 hname.symm).1
      · rw [setType, if_neg hrb]
        exact hab.1 hname
  exact ⟨_, dif_pos hunique, rfl⟩

omit [DecidableEq τ] in
theorem Free.update {t t' : Table τ named} {r : Rename τ} {rs : List (Rename τ)} {ts : ℤ}
    (h : Free t (r::rs)) (hnd : r.id ∉ rs.map Rename.id)
    (ht : t'.rows = t.rows.map (setType r.id r.newType ts)) : Free t' rs := by
  intro q hq row hrow hid htype other hother hne hname
  rw [ht] at hrow hother
  obtain ⟨a, ha, rfl⟩ := List.mem_map.mp hrow
  obtain ⟨b, hb, rfl⟩ := List.mem_map.mp hother
  obtain ⟨hida, hnsa, hna⟩ := setType_kept r.id r.newType ts a
  obtain ⟨hidb, hnsb, hnb⟩ := setType_kept r.id r.newType ts b
  have hname : a.namesake b := by
    rwa [Row.namesake, hnsa, hnsb, hna, hnb] at hname
  rw [hida] at hid hne
  rw [hidb] at hne ⊢
  have hself : a.id ≠ r.id := fun he => hnd (List.mem_map.mpr ⟨q, hq, hid.symm.trans he⟩)
  rw [setType, if_neg hself] at htype
  obtain ⟨hfree, hgiven⟩ := h q (List.mem_cons_of_mem r hq) a ha hid htype b hb hne hname
  refine ⟨?_, fun p hp => hgiven p (List.mem_cons_of_mem r hp)⟩
  by_cases hro : b.id = r.id
  · rw [setType, if_pos hro]
    exact hgiven r List.mem_cons_self hro.symm
  · rwa [setType, if_neg hro]

/-- Renames of distinct rows that take no namesake's type are carried out side
by side. -/
theorem applyRenames_eq (ts : ℤ) (rs : List (Rename τ)) : ∀ t : Table τ named,
    (rs.map Rename.id).Nodup → Free t rs → ∃ t',
      applyRenames ts rs t = .ok (t',rs.filter (carried t)) ∧
        t'.rows = t.rows.map (rewritten ts rs) := by
  induction rs with
  | nil => exact fun t _ _ => ⟨t, rfl, (List.map_id t.rows).symm⟩
  | cons r rs ih =>
    intro t hnd hfree
    rw [List.map_cons, List.nodup_cons] at hnd
    have hskip : ∀ row : Row τ, (row.id = r.id → row.type = r.newType) →
        rewritten ts (r::rs) row = rewritten ts rs row := by
      intro row hrow
      by_cases he : row.id = r.id
      · have hnone : rs.find? (fun q => q.id = r.id) = none := find_other hnd.1
        simp [rewritten, he, hrow he, hnone]
      · simp [rewritten, Ne.symm he]
    rcases hread : readType t r.id with _ | current
    · obtain ⟨t', happlied, hrows⟩ := ih t hnd.2 hfree.tail
      have hout : carried t r = false := by simp [carried, hread]
      simp only [applyRenames, hread]
      refine ⟨t', by rw [happlied, List.filter_cons_of_neg (by simp [hout])],
        hrows.trans (List.map_congr_left (fun row hrow => (hskip row ?_).symm))⟩
      exact fun he => absurd he (readType_none hread row hrow)
    · obtain ⟨row₀, hrow₀, hid₀, ht₀⟩ := readType_some hread
      by_cases hc : current = r.newType
      · obtain ⟨t', happlied, hrows⟩ := ih t hnd.2 hfree.tail
        have hout : carried t r = false := by simp [carried, hread, hc]
        simp only [applyRenames, hread, if_pos hc]
        refine ⟨t', by rw [happlied, List.filter_cons_of_neg (by simp [hout])],
          hrows.trans (List.map_congr_left (fun row hrow => (hskip row ?_).symm))⟩
        intro he
        rw [row_unique hrow hrow₀ (he.trans hid₀.symm), ht₀, hc]
      · obtain ⟨t₁, hupdate, hset⟩ := update_ok hfree hrow₀ hid₀ (ht₀ ▸ hc) ts
        obtain ⟨t', happlied, hrows⟩ := ih t₁ hnd.2 (hfree.update hnd.1 hset)
        have hin : carried t r = true := by simp [carried, hread, hc]
        simp only [applyRenames, hread, if_neg hc, hupdate]
        refine ⟨t', ?_, ?_⟩
        · have hsame : rs.filter (carried t₁) = rs.filter (carried t) := by
            refine List.filter_congr (fun q hq => ?_)
            have hne : q.id ≠ r.id := fun he => hnd.1 (he ▸ List.mem_map_of_mem hq)
            simp only [carried, readType_other hset hne]
          rw [List.filter_cons_of_pos hin, ← hsame]
          show (applyRenames ts rs t₁ >>= _) = _
          rw [happlied]
          rfl
        · rw [hrows, hset, List.map_map]
          refine List.map_congr_left (fun row hrow => ?_)
          by_cases he : row.id = r.id
          · have hnone : rs.find? (fun q => q.id = r.id) = none := find_other hnd.1
            have htype : row.type ≠ r.newType := by
              rw [row_unique hrow hrow₀ (he.trans hid₀.symm), ht₀]
              exact hc
            simp [rewritten, setType, he, Row.retype, hnone, htype]
          · simp [rewritten, setType, he, Ne.symm he]

theorem rewritten_type (ts : ℤ) {rs : List (Rename τ)} {row : Row τ} {r : Rename τ}
    (h : rs.find? (fun q => q.id = row.id) = some r) : (rewritten ts rs row).type = r.newType := by
  simp only [rewritten, h]
  split_ifs with hsame
  · exact hsame
  · rfl

theorem rewritten_same (ts : ℤ) {rs : List (Rename τ)} {row : Row τ} {r : Rename τ}
    (h : rs.find? (fun q => q.id = row.id) = some r) (ht : row.type = r.newType) :
    rewritten ts rs row = row := by
  simp only [rewritten, h, if_pos ht]

theorem applyRenames_none (ts : ℤ) {rs : List (Rename τ)} {t : Table τ named}
    (h : ∀ r ∈ rs, carried t r = false) : applyRenames ts rs t = .ok (t,[]) := by
  induction rs with
  | nil => rfl
  | cons r rs ih =>
    have hrest := ih (fun q hq => h q (List.mem_cons_of_mem r hq))
    have hr := h r List.mem_cons_self
    rw [applyRenames]
    rcases hread : readType t r.id with _ | current
    · exact hrest
    · have hc : current = r.newType := by simpa [carried, hread] using hr
      simp only [if_pos hc, hrest]

/-- A second run finds each row with its new type. -/
theorem applyRenames_again (ts ts' : ℤ) {rs : List (Rename τ)} {t t' : Table τ named}
    (h : (rs.map Rename.id).Nodup) (ht : t'.rows = t.rows.map (rewritten ts rs)) :
    applyRenames ts' rs t' = .ok (t',[]) := by
  refine applyRenames_none ts' (fun r hr => ?_)
  rcases hread : readType t' r.id with _ | current
  · simp [carried, hread]
  · obtain ⟨row, hrow, hid, htype⟩ := readType_some hread
    rw [ht] at hrow
    obtain ⟨row₀, hrow₀, rfl⟩ := List.mem_map.mp hrow
    have hf : rs.find? (fun q => q.id = row₀.id) = some r := find_unique h hr
      ((rewritten_id ts rs row₀).symm.trans hid)
    simp [carried, hread, ← htype, rewritten_type ts hf]

theorem carried_iff {t : Table τ named} {row : Row τ} {r : Rename τ} (h : row ∈ t.rows)
    (hid : r.id = row.id) : carried t r = true ↔ row.type ≠ r.newType := by
  simp [carried, hid, readType_of_mem h]

/-- Where no rename takes the type of a namesake, none takes it back. -/
theorem Free.swap {t t' : Table τ named} {rs : List (Rename τ)} {ts : ℤ}
    (hfree : Free t rs) (hold : ∀ row ∈ t.rows, ∀ r ∈ rs, r.id = row.id → r.oldType = row.type)
    (ht : t'.rows = t.rows.map (rewritten ts rs)) :
    Free t' ((rs.filter (carried t)).map Rename.swap) := by
  intro r' hr' row hrow hid _ other hother hne hname
  obtain ⟨r, hr, rfl⟩ := List.mem_map.mp hr'
  have hr := (List.mem_filter.mp hr).1
  rw [ht] at hrow hother
  obtain ⟨a, ha, rfl⟩ := List.mem_map.mp hrow
  obtain ⟨b, hb, rfl⟩ := List.mem_map.mp hother
  obtain ⟨hida, hnsa, hna⟩ := rewritten_kept ts rs a
  obtain ⟨hidb, hnsb, hnb⟩ := rewritten_kept ts rs b
  have hname : a.namesake b := by
    rwa [Row.namesake, hnsa, hnsb, hna, hnb] at hname
  rw [hida, hidb] at hne
  have hback : r.swap.newType = a.type := hold a ha r hr (hid.symm.trans hida)
  have hdistinct := Table.distinct hb ha hne hname.symm
  rw [hback]
  constructor
  · rcases hf : rs.find? (fun q => q.id = b.id) with _ | q
    · simp only [rewritten, hf]
      exact hdistinct
    · have hq := List.mem_of_find?_eq_some hf
      have hfound := List.find?_some hf
      have hqid : q.id = b.id := of_decide_eq_true hfound
      by_cases hsame : b.type = q.newType
      · rwa [rewritten_same ts hf hsame]
      · rw [rewritten_type ts hf]
        exact ((hfree q hq b hb hqid.symm hsame a ha (fun he => hne he.symm) hname.symm).1).symm
  · intro q' hq' hqid
    obtain ⟨q, hq, rfl⟩ := List.mem_map.mp hq'
    rw [hidb] at hqid
    have hq := hold b hb q (List.mem_filter.mp hq).1 hqid
    exact fun he => hdistinct (hq.symm.trans he)

/-- Exchanging the types of the renames that were carried out gives each row
back its type. -/
theorem applyRenames_back (ts ts' : ℤ) {rs : List (Rename τ)} {t t' : Table τ named}
    (h : (rs.map Rename.id).Nodup) (hfree : Free t rs)
    (hold : ∀ row ∈ t.rows, ∀ r ∈ rs, r.id = row.id → r.oldType = row.type)
    (ht : t'.rows = t.rows.map (rewritten ts rs)) :
    ∃ t'' record, applyRenames ts' ((rs.filter (carried t)).map Rename.swap) t' =
        .ok (t'',record) ∧
      t''.rows.map (fun row => (row.id,row.type)) = t.rows.map (fun row => (row.id,row.type)) := by
  have hids : (((rs.filter (carried t)).map Rename.swap).map Rename.id).Nodup := by
    rw [List.map_map]
    exact h.sublist (List.filter_sublist.map Rename.id)
  obtain ⟨t'', hback, hrows⟩ := applyRenames_eq ts' _ t' hids (hfree.swap hold ht)
  refine ⟨t'', _, hback, ?_⟩
  rw [hrows, ht, List.map_map, List.map_map]
  refine List.map_congr_left (fun row hrow => Prod.ext ?_ ?_)
  · exact (rewritten_id ts' _ _).trans (rewritten_id ts rs row)
  · have hkept : row.id ∉ ((rs.filter (carried t)).map Rename.swap).map Rename.id →
        rewritten ts' ((rs.filter (carried t)).map Rename.swap) row = row := by
      intro hout
      simp only [rewritten, find_other hout]
    have hout : (∀ r ∈ rs, r.id = row.id → row.type = r.newType) →
        row.id ∉ ((rs.filter (carried t)).map Rename.swap).map Rename.id := by
      intro hall hin
      rw [List.map_map] at hin
      obtain ⟨q, hq, hqid⟩ := List.mem_map.mp hin
      obtain ⟨hq, hcarried⟩ := List.mem_filter.mp hq
      exact (carried_iff hrow (r := q) hqid).mp hcarried (hall q hq hqid)
    rcases hf : rs.find? (fun q => q.id = row.id) with _ | r
    · have hsame : rewritten ts rs row = row := by simp only [rewritten, hf]
      have hnone : ∀ r ∈ rs, r.id = row.id → row.type = r.newType := fun r hr hid =>
        absurd (decide_eq_true hid) (List.find?_eq_none.mp hf r hr)
      simp only [Function.comp_apply, hsame, hkept (hout hnone)]
    · have hr := List.mem_of_find?_eq_some hf
      have hfound := List.find?_some hf
      have hid : r.id = row.id := of_decide_eq_true hfound
      by_cases ht : row.type = r.newType
      · have hall : ∀ q ∈ rs, q.id = row.id → row.type = q.newType := fun q hq hqid =>
          List.inj_on_of_nodup_map h hr hq (hid.trans hqid.symm) ▸ ht
        simp only [Function.comp_apply, rewritten_same ts hf ht, hkept (hout hall)]
      · have hmem : r.swap ∈ (rs.filter (carried t)).map Rename.swap :=
          List.mem_map_of_mem (List.mem_filter.mpr ⟨hr, (carried_iff hrow hid).mpr ht⟩)
        have hback := find_unique hids hmem ((rewritten_id ts rs row).trans hid.symm)
        exact (rewritten_type ts' hback).trans (hold row hrow r hr hid)

end Tables

def once (mapping : List (τ × τ)) (listing : List (Item τ)) (ts : ℤ) (row : Row τ) : Row τ :=
  let newType := (mapping.lookup row.type).getD row.type
  if (∃ item ∈ listing, item.id = row.id) ∧ newType ≠ row.type then row.retype newType ts else row

/-- No row that the mapping changes gets the type that a namesake has, before or
after. -/
def Unclaimed {named : Bool} (mapping : List (τ × τ)) (listing : List (Item τ)) (ts : ℤ)
    (t : Table τ named) : Prop :=
  ∀ row ∈ t.rows, (once mapping listing ts row).type ≠ row.type →
    ∀ other ∈ t.rows, other.id ≠ row.id → row.namesake other →
      other.type ≠ (once mapping listing ts row).type ∧
        (once mapping listing ts other).type ≠ (once mapping listing ts row).type

def Agrees {named : Bool} (listing : List (Item τ)) (t : Table τ named) : Prop :=
  ∀ row ∈ t.rows, ∀ item ∈ listing, item.id = row.id → item.type = row.type

section Planned

variable {named : Bool} {mapping : List (τ × τ)} {listing : List (Item τ)} {t : Table τ named}

theorem rewritten_planned (ts : ℤ)
    (hnd : (listing.map Item.id).Nodup) (hagrees : Agrees listing t) {row : Row τ}
    (h : row ∈ t.rows) :
    rewritten ts (listing.filterMap (renameOf mapping)) row = once mapping listing ts row := by
  have hlisted : ∀ r ∈ listing.filterMap (renameOf mapping), r.id = row.id →
      ∃ item ∈ listing, item.id = row.id ∧ renameOf mapping item = some r := by
    intro r hr hid
    obtain ⟨item, hitem, hrename⟩ := List.mem_filterMap.mp hr
    exact ⟨item, hitem, (renameOf_some hrename).1.symm.trans hid, hrename⟩
  by_cases hin : ∃ item ∈ listing, item.id = row.id
  · obtain ⟨item, hitem, hid⟩ := hin
    have htype := hagrees row h item hitem hid
    rcases hr : renameOf mapping item with _ | r
    · have hnone : (listing.filterMap (renameOf mapping)).find? (fun q => q.id = row.id) = none := by
        refine List.find?_eq_none.mpr (fun r hr' hq => ?_)
        obtain ⟨item', hitem', hid', hrename⟩ := hlisted r hr' (of_decide_eq_true hq)
        rw [List.inj_on_of_nodup_map hnd hitem' hitem (hid'.trans hid.symm), hr] at hrename
        cases hrename
      have hsame : (mapping.lookup row.type).getD row.type = row.type := by
        rw [← htype]
        unfold renameOf at hr
        rcases hm : mapping.lookup item.type with _ | newType
        · rfl
        · rw [hm] at hr
          by_cases hn : newType = item.type
          · exact hn
          · simp [hn] at hr
      simp only [rewritten, hnone, once, hsame]
      simp
    · obtain ⟨hrid, -, hlookup, hnew⟩ := renameOf_some hr
      rw [htype] at hlookup hnew
      have hmem : r ∈ listing.filterMap (renameOf mapping) :=
        List.mem_filterMap.mpr ⟨item, hitem, hr⟩
      have hf := find_unique (hnd.sublist (renames_ids mapping listing)) hmem
        (hid.symm.trans hrid.symm)
      have hnew' : (mapping.lookup row.type).getD row.type = r.newType := by
        rw [hlookup]
        rfl
      simp only [rewritten, hf, once, hnew', if_neg hnew.symm]
      rw [if_pos ⟨⟨item, hitem, hid⟩, hnew⟩]
  · have hnone : (listing.filterMap (renameOf mapping)).find? (fun q => q.id = row.id) = none := by
      refine List.find?_eq_none.mpr (fun r hr hq => hin ?_)
      obtain ⟨item, hitem, hid, -⟩ := hlisted r hr (of_decide_eq_true hq)
      exact ⟨item, hitem, hid⟩
    simp only [rewritten, hnone, once]
    rw [if_neg (fun hboth => hin hboth.1)]

theorem planned_old
    (hagrees : Agrees listing t) : ∀ row ∈ t.rows, ∀ r ∈ listing.filterMap (renameOf mapping),
      r.id = row.id → r.oldType = row.type := by
  intro row hrow r hr hid
  obtain ⟨item, hitem, hrename⟩ := List.mem_filterMap.mp hr
  obtain ⟨hrid, hold, -, -⟩ := renameOf_some hrename
  exact hold.trans (hagrees row hrow item hitem (hrid.symm.trans hid))

theorem planned_free {ts : ℤ} (hnd : (listing.map Item.id).Nodup) (hagrees : Agrees listing t)
    (hfree : Unclaimed mapping listing ts t) : Free t (listing.filterMap (renameOf mapping)) := by
  have hids := hnd.sublist (renames_ids mapping listing)
  have hgiven : ∀ row ∈ t.rows, ∀ r ∈ listing.filterMap (renameOf mapping), row.id = r.id →
      (once mapping listing ts row).type = r.newType := by
    intro row hrow r hr hid
    rw [← rewritten_planned ts hnd hagrees hrow]
    exact rewritten_type ts (find_unique hids hr hid)
  intro r hr row hrow hid htype other hother hne hname
  have hnew := hgiven row hrow r hr hid
  obtain ⟨hhas, hgets⟩ := hfree row hrow (hnew ▸ htype.symm) other hother hne hname
  rw [hnew] at hhas hgets
  exact ⟨hhas, fun q hq hqid => hgiven other hother q hq hqid.symm ▸ hgets⟩

omit [DecidableEq τ] in
/-- Rows without a name take no type from one another. -/
theorem nameless_free {t : Table τ false} (rs : List (Rename τ)) : Free t rs := by
  intro r _ row hrow _ _ other _ _ hname
  have hnone := t.names row hrow
  rw [hname.2.1] at hnone
  cases hnone

end Planned

theorem planned_renames {config : DreamConfig τ} {ns : ℕ} {s : Store τ} {op : DreamOp τ}
    (h : op ∈ planVectorcypherNormalizeSchema config ns s) :
    op.entityRenames =
        (listEntities ns s).filterMap (renameOf config.normalizeSchemaMapping) ∧
      op.relationshipRenames =
        (listRelationships ns s).filterMap (renameOf config.normalizeSchemaMapping) := by
  simp only [planVectorcypherNormalizeSchema] at h
  split_ifs at h with hoff hempty
  · cases h
  · rw [List.mem_singleton] at h
    subst h
    have hnone : ∀ listing : List (Item τ),
        listing.filterMap (renameOf config.normalizeSchemaMapping) = [] := by
      intro listing
      refine List.filterMap_eq_nil_iff.mpr (fun item _ => ?_)
      rw [hempty]
      rfl
    exact ⟨(hnone _).symm, (hnone _).symm⟩
  · rw [List.mem_singleton] at h
    subst h
    exact ⟨collectRenames_eq .., collectRenames_eq ..⟩

section Verb

variable (sanitize : τ → τ) (ns : ℕ) (ts : ℤ)

def relabelEdge (r : τ × τ) (e : Edge τ) : Edge τ :=
  if e.namespaceId = ns ∧ e.inside = true ∧ e.label = sanitize r.1 ∧
      sanitize r.1 ≠ sanitize r.2 then
    { e with label := sanitize r.2, updatedAt := ts }
  else e

theorem relabel_eq (r : τ × τ) (edges : List (Edge τ)) :
    relabel ns ts (sanitize r.1) (sanitize r.2) edges =
      edges.map (relabelEdge sanitize ns ts r) := by
  unfold relabel relabelEdge
  by_cases h : sanitize r.1 = sanitize r.2
  · simp [h]
  · simp [h]

/-- The first pair for the label of an edge decides. -/
def firstPair (renames : List (τ × τ)) (e : Edge τ) : Edge τ :=
  match renames.find? (fun r => sanitize r.1 = e.label) with
  | some r => relabelEdge sanitize ns ts r e
  | none => e

theorem renameTypesBatch_eq (renames : List (τ × τ)) : ∀ edges : List (Edge τ),
    renameTypesBatch sanitize ns ts renames edges =
      edges.map (fun e => renames.foldl (fun e r => relabelEdge sanitize ns ts r e) e) := by
  induction renames with
  | nil => exact fun edges => (List.map_id edges).symm
  | cons r renames ih =>
    intro edges
    have hstep := ih (edges.map (relabelEdge sanitize ns ts r))
    rw [List.map_map] at hstep
    rw [renameTypesBatch, List.foldl_cons, relabel_eq]
    exact hstep

theorem relabel_fold_out {renames : List (τ × τ)} {e : Edge τ}
    (h : ∀ r ∈ renames, relabelEdge sanitize ns ts r e = e) :
    renames.foldl (fun e r => relabelEdge sanitize ns ts r e) e = e := by
  induction renames with
  | nil => rfl
  | cons r renames ih =>
    rw [List.foldl_cons, h r List.mem_cons_self]
    exact ih (fun q hq => h q (List.mem_cons_of_mem r hq))

theorem relabelEdge_out {r : τ × τ} {e : Edge τ}
    (h : ¬ (e.namespaceId = ns ∧ e.inside = true ∧ e.label = sanitize r.1)) :
    relabelEdge sanitize ns ts r e = e :=
  if_neg (fun hall => h ⟨hall.1, hall.2.1, hall.2.2.1⟩)

theorem relabelEdge_again {p q : τ × τ} {e : Edge τ} (hp : sanitize p.1 = e.label)
    (hpq : sanitize p.2 ≠ sanitize q.1) :
    relabelEdge sanitize ns ts q (relabelEdge sanitize ns ts p e) =
      relabelEdge sanitize ns ts p e := by
  refine relabelEdge_out sanitize ns ts (fun hq => hpq ?_)
  rw [← hq.2.2]
  by_cases hin : e.namespaceId = ns ∧ e.inside = true
  · by_cases hsame : sanitize p.1 = sanitize p.2
    · rw [relabelEdge, if_neg (fun hall => hall.2.2.2 hsame), ← hp, hsame]
    · rw [relabelEdge, if_pos ⟨hin.1, hin.2, hp.symm, hsame⟩]
  · rw [relabelEdge, if_neg (fun hall => hin ⟨hall.1, hall.2.1⟩)] at hq
    exact absurd ⟨hq.1, hq.2.1⟩ hin

theorem firstPair_eq (renames : List (τ × τ))
    (h : renames.Pairwise (fun p q => sanitize p.2 ≠ sanitize q.1)) (e : Edge τ) :
    renames.foldl (fun e r => relabelEdge sanitize ns ts r e) e =
      firstPair sanitize ns ts renames e := by
  induction renames with
  | nil => rfl
  | cons r renames ih =>
    obtain ⟨hr, hrest⟩ := List.pairwise_cons.mp h
    rw [List.foldl_cons]
    by_cases hlabel : sanitize r.1 = e.label
    · rw [relabel_fold_out sanitize ns ts (fun q hq =>
        relabelEdge_again sanitize ns ts hlabel (hr q hq))]
      simp [firstPair, hlabel]
    · rw [relabelEdge_out sanitize ns ts (fun hall => hlabel hall.2.2.symm), ih hrest]
      simp [firstPair, hlabel]

end Verb

/-- Applying a planned operation gives each listed row the type of the mapping,
once, and leaves the graph as it is, as long as no entity gets the type of a
namesake. A second run changes nothing, and replaying the record with the types
exchanged gives each row back its type. The verb for the graph relabels side by
side, as long as no pair brings in a label that a later pair takes away. -/
theorem renames_once (sanitize : τ → τ) (config : DreamConfig τ) (ns : ℕ) (ts ts' : ℤ)
    (s : Store τ) (op : DreamOp τ) (hop : op ∈ planVectorcypherNormalizeSchema config ns s)
    (he : Agrees (listEntities ns s) s.entities)
    (hr : Agrees (listRelationships ns s) s.relationships)
    (hfree : Unclaimed config.normalizeSchemaMapping (listEntities ns s) ts s.entities) :
    let mapping := config.normalizeSchemaMapping
    ∃ applied record undone record',
      applyVectorcypherNormalizeSchema true op ts s = .ok (applied,record) ∧
      applied.entities.rows = s.entities.rows.map (once mapping (listEntities ns s) ts) ∧
      applied.relationships.rows =
        s.relationships.rows.map (once mapping (listRelationships ns s) ts) ∧
      applied.graph = s.graph ∧
      applyVectorcypherNormalizeSchema true op ts' applied = .ok (applied,⟨[],[]⟩) ∧
      applyVectorcypherNormalizeSchema true record.reverse ts' applied = .ok (undone,record') ∧
      undone.entities.rows.map (fun row => (row.id,row.type)) =
        s.entities.rows.map (fun row => (row.id,row.type)) ∧
      undone.relationships.rows.map (fun row => (row.id,row.type)) =
        s.relationships.rows.map (fun row => (row.id,row.type)) ∧
      applyVectorcypherNormalizeSchema false op ts s = .ok (s,⟨[],[]⟩) ∧
      ∀ (renames : List (τ × τ)) (edges : List (Edge τ)),
        renames.Pairwise (fun p q => sanitize p.2 ≠ sanitize q.1) →
          renameTypesBatch sanitize ns ts renames edges =
            edges.map (firstPair sanitize ns ts renames) := by
  obtain ⟨hentities, hrelationships⟩ := planned_renames hop
  have hne := listEntities_nodup ns s
  have hnr := listRelationships_nodup ns s
  have hide := hne.sublist (renames_ids config.normalizeSchemaMapping (listEntities ns s))
  have hidr := hnr.sublist (renames_ids config.normalizeSchemaMapping (listRelationships ns s))
  have hfreee := planned_free hne he hfree
  rw [← hentities] at hide hfreee
  rw [← hrelationships] at hidr
  obtain ⟨e, happlye, hrowse⟩ := applyRenames_eq ts _ s.entities hide hfreee
  obtain ⟨r, happlyr, hrowsr⟩ := applyRenames_eq ts _ s.relationships hidr (nameless_free _)
  obtain ⟨e', ue, hbacke, hsamee⟩ :=
    applyRenames_back ts ts' hide hfreee (hentities ▸ planned_old he) hrowse
  obtain ⟨r', ur, hbackr, hsamer⟩ :=
    applyRenames_back ts ts' hidr (nameless_free _) (hrelationships ▸ planned_old hr) hrowsr
  refine ⟨⟨e,r,s.graph⟩, ⟨op.entityRenames.filter (carried s.entities),
    op.relationshipRenames.filter (carried s.relationships)⟩, ⟨e',r',s.graph⟩, ⟨ue,ur⟩,
    ?_, ?_, ?_, rfl, ?_, ?_, hsamee, hsamer, rfl, ?_⟩
  · simp only [applyVectorcypherNormalizeSchema, Bool.true_eq_false, if_false, happlye, happlyr]
    rfl
  · refine hrowse.trans ?_
    rw [hentities]
    exact List.map_congr_left (fun row hrow => rewritten_planned ts hne he hrow)
  · refine hrowsr.trans ?_
    rw [hrelationships]
    exact List.map_congr_left (fun row hrow => rewritten_planned ts hnr hr hrow)
  · simp only [applyVectorcypherNormalizeSchema, Bool.true_eq_false, if_false,
      applyRenames_again ts ts' hide hrowse, applyRenames_again ts ts' hidr hrowsr]
    rfl
  · simp only [applyVectorcypherNormalizeSchema, Bool.true_eq_false, if_false,
      UndoRecord.reverse, hbacke, hbackr]
    rfl
  · intro renames edges hpairs
    rw [renameTypesBatch_eq]
    exact List.map_congr_left (fun e _ => firstPair_eq sanitize ns ts renames hpairs e)

namespace Mirrored

def config : DreamConfig String := ⟨true,[("works at","employed by"),("PERSON","HUMAN")]⟩

def people : List (Row String) :=
  [⟨7,0,some "Ada",true,"PERSON",0⟩,⟨8,0,some "Ada",true,"PLACE",0⟩]

def store : Store String where
  entities := ⟨people,by decide,by decide,by decide⟩
  relationships := ⟨[⟨1,0,none,true,"works at",0⟩],by decide,by decide,by decide⟩
  graph := some ⟨people,[⟨1,0,true,true,"works at",0⟩],by decide,by decide⟩

def op : DreamOp String :=
  ⟨config.normalizeSchemaMapping,.planned,[⟨7,"PERSON","HUMAN"⟩],[⟨1,"works at","employed by"⟩]⟩

theorem op_planned : op ∈ planVectorcypherNormalizeSchema config 0 store := by
  have hentities : collectRenames config.normalizeSchemaMapping (listEntities 0 store) 0 =
      [⟨7,"PERSON","HUMAN"⟩] :=
    (collectRenames_eq ..).trans rfl
  have hrelationships : collectRenames config.normalizeSchemaMapping
      (listRelationships 0 store) 0 = [⟨1,"works at","employed by"⟩] :=
    (collectRenames_eq ..).trans rfl
  simp only [planVectorcypherNormalizeSchema, hentities, hrelationships]
  exact List.mem_singleton.mpr rfl

/-- The row has the new type, and the edge of the graph its old label. -/
theorem label_stays : ∃ op ∈ planVectorcypherNormalizeSchema config 0 store,
    ∃ applied record, applyVectorcypherNormalizeSchema true op 1 store = .ok (applied,record) ∧
      applied.relationships.rows.map Row.type = ["employed by"] ∧
      applied.graph.map (fun g => g.edges.map Edge.label) = some ["works at"] :=
  ⟨op, op_planned, _, _, rfl, by decide, by decide⟩

theorem relationship_renamed :
    (∃ applied record, applyVectorcypherNormalizeSchema true op 1 store = .ok (applied,record) ∧
      applied.entities.rows.map Row.type = ["HUMAN","PLACE"] ∧
      applied.relationships.rows.map Row.type = ["employed by"]) ∧
    renameTypesBatch id 0 1 [("knows","KNOWS"),("likes","LIKES")]
        [⟨1,0,true,true,"likes",0⟩,⟨2,0,true,true,"knows",0⟩] =
      [⟨1,0,true,true,"LIKES",1⟩,⟨2,0,true,true,"KNOWS",1⟩] := by
  have he : Agrees (listEntities 0 store) store.entities := by
    unfold Agrees
    decide
  have hr : Agrees (listRelationships 0 store) store.relationships := by
    unfold Agrees
    decide
  have hfree : Unclaimed config.normalizeSchemaMapping (listEntities 0 store) 1 store.entities := by
    unfold Unclaimed
    decide
  obtain ⟨applied, record, -, -, happly, hentities, hrelationships, -, -, -, -, -, -, hverb⟩ :=
    renames_once id config 0 1 2 store op op_planned he hr hfree
  refine ⟨⟨applied, record, happly, ?_, ?_⟩, (hverb _ _ (by decide)).trans rfl⟩
  · rw [hentities]
    decide
  · rw [hrelationships]
    decide

end Mirrored

end Uru.Dream.NormalizeSchema
