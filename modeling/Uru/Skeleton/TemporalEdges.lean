import Mathlib.Data.List.Nodup
import Mathlib.Tactic
import Uru.Lib.SortOn

/-!
# Superseded temporal edges

Before an edge of an exclusive relationship type is stored, the edges it
conflicts with are closed: those of its entities and type that occurred before
it, among the oldest hundred that are still valid. A closed edge names the new
edge, which the table does not hold yet; a database that checks the reference
refuses, and the call fails with nothing stored. An edge that occurred before
the stored ones closes nothing and stays valid beside them.
-/

set_option autoImplicit false

namespace Uru.Skeleton.TemporalEdges
open Uru.Lib

structure TemporalEdge where
  id : ℕ
  namespaceId : ℕ
  sourceEntityId : ℕ
  targetEntityId : ℕ
  relationshipType : String
  occurredAt : ℤ
  isValid : Bool
  invalidatedById : Option ℕ
  invalidationReason : Option String
deriving DecidableEq

def getEdgesByEntityPair (rows : List TemporalEdge)
    (sourceEntityId targetEntityId namespaceId : ℕ) (relationshipType : Option String)
    (includeInvalid : Bool) (limit : ℕ) : List TemporalEdge :=
  let found := rows.filter (fun row => row.namespaceId = namespaceId ∧
    row.sourceEntityId = sourceEntityId ∧ row.targetEntityId = targetEntityId ∧
    relationshipType.all (fun type => type = "" ∨ row.relationshipType = type) ∧
    (includeInvalid ∨ row.isValid))
  (sortOn TemporalEdge.occurredAt found).take limit

/-- Every statement is checked against the reference to the invalidating edge
when the database enforces it; `none` is the failure. -/
def invalidateEdge (enforced : Bool) (rows : List TemporalEdge) (edgeId : ℕ)
    (invalidatedBy : Option ℕ) (reason : Option String) : Option (List TemporalEdge) :=
  match rows.find? (fun row => row.id = edgeId) with
  | none => some rows
  | some _ =>
    if enforced ∧ ¬ invalidatedBy.all (fun id => rows.any (fun row => row.id = id)) then none
    else some (rows.map (fun row => if row.id = edgeId then
      { row with
        isValid := false
        invalidatedById := invalidatedBy
        invalidationReason := reason }
      else row))

def exclusiveTypes : List String :=
  ["WORKS_FOR","REPORTS_TO","MANAGES","MARRIED_TO","CEO_OF","PRESIDENT_OF","LOCATED_AT",
    "HEADQUARTERED_IN"]

/-- `str.upper` maps the characters one by one. -/
def upperText (upper : Char → String) (s : String) : String := String.join (s.toList.map upper)

section Store

variable (enforced : Bool) (upper : Char → String)

def handleConflicts (rows : List TemporalEdge) (newEdge : TemporalEdge) :
    Option (List TemporalEdge) :=
  let existing := getEdgesByEntityPair rows newEdge.sourceEntityId
    newEdge.targetEntityId newEdge.namespaceId (some newEdge.relationshipType) false 100
  if upperText upper newEdge.relationshipType ∈ exclusiveTypes then
    existing.foldlM (fun rows oldEdge =>
      if newEdge.occurredAt > oldEdge.occurredAt then
        invalidateEdge enforced rows oldEdge.id (some newEdge.id)
          (some ("Superseded by newer "++newEdge.relationshipType++" edge"))
      else some rows) rows
  else some rows

/-- The stored edge; an id that is taken makes the call fail. -/
def createEdge (rows : List TemporalEdge) (edge : TemporalEdge) (checkConflicts : Bool) :
    Option (List TemporalEdge) :=
  (if checkConflicts then handleConflicts enforced upper rows edge else some rows).bind
    (fun rows =>
      if rows.any (fun row => row.id = edge.id) then none
      else some (rows++[{ edge with invalidatedById := none, invalidationReason := none }]))

/-- A call with conflict checking; a failed call is rolled back. -/
def submit (rows : List TemporalEdge) (edge : TemporalEdge) : List TemporalEdge :=
  (createEdge enforced upper rows edge true).getD rows

def submitted (edges : List TemporalEdge) : List TemporalEdge :=
  edges.foldl (submit enforced upper) []

end Store

structure Key where
  namespaceId : ℕ
  sourceEntityId : ℕ
  targetEntityId : ℕ
  relationshipType : String
deriving DecidableEq

def TemporalEdge.key (e : TemporalEdge) : Key :=
  ⟨e.namespaceId,e.sourceEntityId,e.targetEntityId,e.relationshipType⟩

/-- Of the edges of a key exactly the one that occurred last is valid, and each
of the others names one of them that occurred later. -/
structure Superseded (k : Key) (edges rows : List TemporalEdge) : Prop where
  stored : ∀ e ∈ edges, e.key = k → ∃ row ∈ rows, row.id = e.id
  latest : ∀ row ∈ rows, row.key = k → (row.isValid = true ↔
    ∀ e ∈ edges, e.key = k → e.occurredAt ≤ row.occurredAt)
  closed : ∀ row ∈ rows, row.key = k → row.isValid = false → ∃ e ∈ edges, e.key = k ∧
    row.occurredAt < e.occurredAt ∧ row.invalidatedById = some e.id

section Call

variable {enforced : Bool} {upper : Char → String}

def Exclusive (upper : Char → String) (type : String) : Prop :=
  upperText upper type ∈ exclusiveTypes

instance (type : String) : Decidable (Exclusive upper type) := by
  unfold Exclusive
  infer_instance

theorem Exclusive.ne_empty {type : String} (h : Exclusive upper type) : type ≠ "" := by
  rintro rfl
  have hempty : upperText upper "" = "" := by simp [upperText]
  unfold Exclusive at h
  rw [hempty] at h
  revert h
  decide

def validOf (k : Key) (rows : List TemporalEdge) : List TemporalEdge :=
  rows.filter (fun row => row.key = k ∧ row.isValid = true)

/-- The page that a new edge is checked against. -/
def page (rows : List TemporalEdge) (e : TemporalEdge) : List TemporalEdge :=
  (sortOn TemporalEdge.occurredAt (validOf e.key rows)).take 100

theorem get_edges_page (rows : List TemporalEdge) {e : TemporalEdge}
    (h : Exclusive upper e.relationshipType) :
    getEdgesByEntityPair rows e.sourceEntityId e.targetEntityId e.namespaceId
      (some e.relationshipType) false 100 = page rows e := by
  have hne := h.ne_empty
  simp only [getEdgesByEntityPair, page, validOf]
  congr 2
  refine List.filter_congr (fun row _ => ?_)
  simp only [TemporalEdge.key, Key.mk.injEq, Option.all_some, hne, false_or, Bool.false_eq_true,
    decide_eq_true_eq, and_assoc]

def supersede (e row : TemporalEdge) : TemporalEdge :=
  { row with
    isValid := false
    invalidatedById := some e.id
    invalidationReason := some ("Superseded by newer "++e.relationshipType++" edge") }

def Older (olds : List TemporalEdge) (e row : TemporalEdge) : Prop :=
  ∃ old ∈ olds, old.occurredAt < e.occurredAt ∧ old.id = row.id

instance (olds : List TemporalEdge) (e row : TemporalEdge) : Decidable (Older olds e row) := by
  unfold Older
  infer_instance

def close (olds : List TemporalEdge) (e row : TemporalEdge) : TemporalEdge :=
  if Older olds e row then supersede e row else row

theorem invalidate_free (rows : List TemporalEdge) (edgeId : ℕ) (e : TemporalEdge) :
    invalidateEdge false rows edgeId (some e.id)
        (some ("Superseded by newer "++e.relationshipType++" edge")) =
      some (rows.map (fun row => if row.id = edgeId then supersede e row else row)) := by
  unfold invalidateEdge
  cases hf : rows.find? (fun row => row.id = edgeId) with
  | some row => simp [supersede]
  | none =>
    have hnone : ∀ row ∈ rows, row.id ≠ edgeId := by simpa using hf
    have hkeep : ∀ row ∈ rows, (if row.id = edgeId then supersede e row else row) = row :=
      fun row hr => if_neg (hnone row hr)
    rw [List.map_congr_left hkeep, List.map_id']

theorem invalidate_refused {rows : List TemporalEdge} {old e : TemporalEdge} (hold : old ∈ rows)
    (hfresh : ∀ row ∈ rows, row.id ≠ e.id) (reason : Option String) :
    invalidateEdge true rows old.id (some e.id) reason = none := by
  unfold invalidateEdge
  cases hf : rows.find? (fun row => row.id = old.id) with
  | none =>
    have hmiss := List.find?_eq_none.mp hf old hold
    simp at hmiss
  | some row =>
    have hnot : ¬ (some e.id).all (fun id => rows.any (fun row => row.id = id)) = true := by
      simpa using hfresh
    rw [if_pos ⟨rfl, hnot⟩]

theorem close_cons (old : TemporalEdge) (olds : List TemporalEdge) (e row : TemporalEdge) :
    close (old::olds) e row = if old.occurredAt < e.occurredAt then
      close olds e (if row.id = old.id then supersede e row else row) else close olds e row := by
  have hcons : Older (old::olds) e row ↔
      old.occurredAt < e.occurredAt ∧ old.id = row.id ∨ Older olds e row := by
    simp [Older]
  by_cases h : old.occurredAt < e.occurredAt
  · by_cases hid : row.id = old.id
    · rw [if_pos h, if_pos hid, close, if_pos (hcons.mpr (.inl ⟨h, hid.symm⟩)), close]
      split_ifs <;> rfl
    · rw [if_pos h, if_neg hid, close, close]
      simp only [hcons, h, Ne.symm hid, and_false, false_or]
  · rw [if_neg h, close, close]
    simp only [hcons, h, false_and, false_or]

theorem conflicts_free (olds rows : List TemporalEdge) (e : TemporalEdge) :
    olds.foldlM (fun rows oldEdge =>
      if e.occurredAt > oldEdge.occurredAt then
        invalidateEdge false rows oldEdge.id (some e.id)
          (some ("Superseded by newer "++e.relationshipType++" edge"))
      else some rows) rows = some (rows.map (close olds e)) := by
  induction olds generalizing rows with
  | nil =>
    have hid : close [] e = id := by
      funext row
      simp [close, Older]
    simp [hid]
  | cons old olds ih =>
    rw [List.foldlM_cons]
    by_cases h : old.occurredAt < e.occurredAt
    · rw [if_pos h, invalidate_free]
      simp only [Option.bind_eq_bind, Option.bind_some, ih, List.map_map]
      congr 2
      funext row
      simp [close_cons, h]
    · rw [if_neg h]
      simp only [Option.bind_eq_bind, Option.bind_some, ih]
      congr 2
      funext row
      simp [close_cons, h]

/-- A checked reference refuses the first older edge. -/
theorem conflicts_refused {olds rows : List TemporalEdge} {e : TemporalEdge} (hsub : olds ⊆ rows)
    (hfresh : ∀ row ∈ rows, row.id ≠ e.id) :
    olds.foldlM (fun rows oldEdge =>
      if e.occurredAt > oldEdge.occurredAt then
        invalidateEdge true rows oldEdge.id (some e.id)
          (some ("Superseded by newer "++e.relationshipType++" edge"))
      else some rows) rows =
        if ∃ old ∈ olds, old.occurredAt < e.occurredAt then none else some rows := by
  induction olds with
  | nil => simp
  | cons old olds ih =>
    have hold : old ∈ rows := hsub List.mem_cons_self
    rw [List.foldlM_cons]
    by_cases h : old.occurredAt < e.occurredAt
    · rw [if_pos h, invalidate_refused hold hfresh, if_pos ⟨old, List.mem_cons_self, h⟩]
      rfl
    · rw [if_neg h]
      simp only [Option.bind_eq_bind, Option.bind_some,
        ih (fun x hx => hsub (List.mem_cons_of_mem old hx)), List.exists_mem_cons_iff, h, false_or]

def fresh (e : TemporalEdge) : TemporalEdge :=
  { e with invalidatedById := none, invalidationReason := none }

theorem mem_page {rows : List TemporalEdge} {e row : TemporalEdge} (h : row ∈ page rows e) :
    row ∈ rows ∧ row.key = e.key ∧ row.isValid = true := by
  have hmem := mem_sortOn.mp (List.mem_of_mem_take h)
  simpa [validOf] using hmem

/-- What a call with a new id does: it is refused, or it closes the older edges
of its page and is stored. -/
theorem submit_cases {rows : List TemporalEdge} {e : TemporalEdge}
    (hfresh : ∀ row ∈ rows, row.id ≠ e.id) :
    (enforced = true ∧ Exclusive upper e.relationshipType ∧
        (∃ old ∈ page rows e, old.occurredAt < e.occurredAt) ∧
        submit enforced upper rows e = rows) ∨
      ((Exclusive upper e.relationshipType → enforced = true ∧
          ∀ old ∈ page rows e, ¬ old.occurredAt < e.occurredAt) ∧
        submit enforced upper rows e = rows++[fresh e]) ∨
      (enforced = false ∧ Exclusive upper e.relationshipType ∧
        submit enforced upper rows e = rows.map (close (page rows e) e)++[fresh e]) := by
  have hstore : ∀ f : TemporalEdge → TemporalEdge, (∀ row, (f row).id = row.id) →
      (if (rows.map f).any (fun row => row.id = e.id) then none
        else some (rows.map f++[fresh e])) = some (rows.map f++[fresh e]) := by
    intro f hf
    refine if_neg ?_
    simpa [hf] using hfresh
  have hplain := hstore id (fun _ => rfl)
  rw [List.map_id] at hplain
  unfold submit createEdge handleConflicts
  by_cases hx : upperText upper e.relationshipType ∈ exclusiveTypes
  · simp only [if_true, if_pos hx, get_edges_page rows hx]
    cases enforced with
    | false =>
      have hid : ∀ row, (close (page rows e) e row).id = row.id := by
        intro row
        unfold close
        split_ifs <;> rfl
      refine .inr (.inr ⟨rfl, hx, ?_⟩)
      rw [conflicts_free, Option.bind_some]
      exact congrArg (Option.getD · rows) (hstore _ hid)
    | true =>
      rw [conflicts_refused (fun row hr => (mem_page hr).1) hfresh]
      by_cases hold : ∃ old ∈ page rows e, old.occurredAt < e.occurredAt
      · exact .inl ⟨rfl, hx, hold, by rw [if_pos hold]; rfl⟩
      · refine .inr (.inl ⟨fun _ => ⟨rfl, by simpa using hold⟩, ?_⟩)
        rw [if_neg hold, Option.bind_some]
        exact congrArg (Option.getD · rows) hplain
  · simp only [if_true, if_neg hx, Option.bind_some]
    exact .inr (.inl ⟨fun h => absurd h hx, congrArg (Option.getD · rows) hplain⟩)

/-- What is known of a row: the edge it was created from and, once it is
closed, an edge of its key that occurred later. -/
structure Origin (edges : List TemporalEdge) (e row : TemporalEdge) : Prop where
  id_eq : row.id = e.id
  key_eq : row.key = e.key
  time_eq : row.occurredAt = e.occurredAt
  status : row.isValid = e.isValid ∧ row.invalidatedById = none ∨
    row.isValid = false ∧ e.isValid = true ∧ ∃ f ∈ edges, f.key = e.key ∧
      e.occurredAt < f.occurredAt ∧ row.invalidatedById = some f.id

structure Kept (edges rows : List TemporalEdge) : Prop where
  ids : (rows.map TemporalEdge.id).Nodup
  origin : ∀ row ∈ rows, ∃ e ∈ edges, Origin edges e row

theorem Origin.mono {edges edges' : List TemporalEdge} {e row : TemporalEdge}
    (h : Origin edges e row) (hsub : edges ⊆ edges') : Origin edges' e row := by
  refine ⟨h.id_eq, h.key_eq, h.time_eq, h.status.imp id ?_⟩
  rintro ⟨hv, he, f, hf, hrest⟩
  exact ⟨hv, he, f, hsub hf, hrest⟩

theorem Kept.fresh {edges rows : List TemporalEdge} (h : Kept edges rows) {e : TemporalEdge}
    (he : e.id ∉ edges.map TemporalEdge.id) : ∀ row ∈ rows, row.id ≠ e.id := by
  intro row hr heq
  obtain ⟨f, hf, ho⟩ := h.origin row hr
  exact he (List.mem_map.mpr ⟨f, hf, ho.id_eq.symm.trans heq⟩)

/-- Only a valid, older row of the key of the edge is closed. -/
theorem older_page {rows : List TemporalEdge} (hids : (rows.map TemporalEdge.id).Nodup)
    {e row : TemporalEdge} (hr : row ∈ rows) (h : Older (page rows e) e row) :
    row ∈ page rows e ∧ row.occurredAt < e.occurredAt := by
  obtain ⟨old, hold, hlt, hid⟩ := h
  have heq : old = row := List.inj_on_of_nodup_map hids (mem_page hold).1 hr hid
  exact heq ▸ ⟨hold, hlt⟩

theorem close_origin {edges rows : List TemporalEdge} (h : Kept edges rows) {e row : TemporalEdge}
    (hr : row ∈ rows) : ∃ f ∈ edges, Origin (edges++[e]) f (close (page rows e) e row) := by
  obtain ⟨f, hf, ho⟩ := h.origin row hr
  refine ⟨f, hf, ?_⟩
  unfold close
  split_ifs with hold
  · obtain ⟨hpage, hlt⟩ := older_page h.ids hr hold
    obtain ⟨-, hkey, hvalid⟩ := mem_page hpage
    have hcreated : f.isValid = true := by
      rcases ho.status with ⟨hv, -⟩ | ⟨hv, -⟩
      · exact hv ▸ hvalid
      · rw [hv] at hvalid
        cases hvalid
    refine ⟨ho.id_eq, ho.key_eq, ho.time_eq, .inr ⟨rfl, hcreated, e, by simp, ?_, ?_, rfl⟩⟩
    · rw [← ho.key_eq, hkey]
    · rw [← ho.time_eq]
      exact hlt
  · exact ho.mono (List.subset_append_left _ _)

theorem Kept.append {edges rows rows' : List TemporalEdge} {e : TemporalEdge}
    (hids : rows'.map TemporalEdge.id = rows.map TemporalEdge.id)
    (hnodup : (rows.map TemporalEdge.id).Nodup) (hfresh : ∀ row ∈ rows, row.id ≠ e.id)
    (horigin : ∀ row ∈ rows', ∃ f ∈ edges, Origin (edges++[e]) f row) :
    Kept (edges++[e]) (rows'++[TemporalEdges.fresh e]) := by
  constructor
  · rw [List.map_append, hids]
    refine List.nodup_append.mpr ⟨hnodup, List.nodup_singleton _, fun i hi j hj heq => ?_⟩
    obtain ⟨row, hr, rfl⟩ := List.mem_map.mp hi
    exact hfresh row hr (heq.trans (List.mem_singleton.mp hj))
  · intro row hr
    rcases List.mem_append.mp hr with hold | hnew
    · obtain ⟨f, hf, ho⟩ := horigin row hold
      exact ⟨f, List.mem_append_left _ hf, ho⟩
    · rw [List.mem_singleton.mp hnew]
      exact ⟨e, by simp, ⟨rfl, rfl, rfl, .inl ⟨rfl, rfl⟩⟩⟩

theorem submit_kept {edges rows : List TemporalEdge} (h : Kept edges rows) {e : TemporalEdge}
    (he : e.id ∉ edges.map TemporalEdge.id) : Kept (edges++[e]) (submit enforced upper rows e) := by
  have hfresh := h.fresh he
  have hsub : edges ⊆ edges++[e] := List.subset_append_left _ _
  rcases @submit_cases enforced upper _ _ hfresh with
    ⟨-, -, -, heq⟩ | ⟨-, heq⟩ | ⟨-, -, heq⟩
  · rw [heq]
    refine ⟨h.ids, fun row hr => ?_⟩
    obtain ⟨f, hf, ho⟩ := h.origin row hr
    exact ⟨f, hsub hf, ho.mono hsub⟩
  · rw [heq]
    refine Kept.append rfl h.ids hfresh (fun row hr => ?_)
    obtain ⟨f, hf, ho⟩ := h.origin row hr
    exact ⟨f, hf, ho.mono hsub⟩
  · rw [heq]
    refine Kept.append ?_ h.ids hfresh (fun row' hr => ?_)
    · rw [List.map_map]
      refine List.map_congr_left (fun row _ => ?_)
      simp only [Function.comp_apply, close]
      split_ifs <;> rfl
    · obtain ⟨row, hrow, rfl⟩ := List.mem_map.mp hr
      exact close_origin h hrow

theorem submitted_append (pre post : List TemporalEdge) : submitted enforced upper (pre++post) =
    post.foldl (submit enforced upper) (submitted enforced upper pre) := List.foldl_append ..

theorem ids_append {pre : List TemporalEdge} {e : TemporalEdge}
    (h : ((pre++[e]).map TemporalEdge.id).Nodup) :
    (pre.map TemporalEdge.id).Nodup ∧ e.id ∉ pre.map TemporalEdge.id := by
  rw [List.map_append, List.nodup_append] at h
  obtain ⟨hpre, -, hne⟩ := h
  exact ⟨hpre, fun hmem => hne _ hmem _ (List.mem_singleton_self _) rfl⟩

theorem submitted_kept {edges : List TemporalEdge} (h : (edges.map TemporalEdge.id).Nodup) :
    Kept edges (submitted enforced upper edges) := by
  induction edges using List.reverseRecOn with
  | nil => exact ⟨List.nodup_nil, fun _ hr => nomatch hr⟩
  | append_singleton pre e ih =>
    obtain ⟨hpre, he⟩ := ids_append h
    rw [submitted_append]
    exact submit_kept (ih hpre) he

@[simp] theorem close_key (olds : List TemporalEdge) (e row : TemporalEdge) :
    (close olds e row).key = row.key := by
  unfold close
  split_ifs <;> rfl

/-- A call leaves the rows of the other keys as they are. -/
theorem submit_others {edges rows : List TemporalEdge} (h : Kept edges rows) {e row : TemporalEdge}
    (he : e.id ∉ edges.map TemporalEdge.id) (hkey : row.key ≠ e.key) :
    row ∈ submit enforced upper rows e ↔ row ∈ rows := by
  have hnew : row ≠ fresh e := by
    rintro rfl
    exact hkey rfl
  have hclose : ∀ r ∈ rows, r.key ≠ e.key → close (page rows e) e r = r := by
    intro r hr hne
    exact if_neg (fun hold => hne (mem_page (older_page h.ids hr hold).1).2.1)
  rcases @submit_cases enforced upper _ _ (h.fresh he) with
    ⟨-, -, -, heq⟩ | ⟨-, heq⟩ | ⟨-, -, heq⟩
  · rw [heq]
  · simp [heq, hnew]
  · rw [heq, List.mem_append, List.mem_singleton, or_iff_left hnew, List.mem_map]
    constructor
    · rintro ⟨r, hr, rfl⟩
      rw [close_key] at hkey
      rwa [hclose r hr hkey]
    · intro hr
      exact ⟨row, hr, hclose row hr hkey⟩

theorem submitted_others {k : Key} {pre post : List TemporalEdge}
    (h : ((pre++post).map TemporalEdge.id).Nodup) (hpost : ∀ f ∈ post, f.key ≠ k)
    {row : TemporalEdge} (hrow : row.key = k) :
    row ∈ submitted enforced upper (pre++post) ↔ row ∈ submitted enforced upper pre := by
  induction post using List.reverseRecOn with
  | nil => rw [List.append_nil]
  | append_singleton post f ih =>
    rw [← List.append_assoc] at h ⊢
    obtain ⟨hpre, hf⟩ := ids_append h
    rw [← ih hpre (fun g hg => hpost g (by simp [hg])), submitted_append]
    exact submit_others (submitted_kept hpre) hf
      (fun heq => hpost f (by simp) (heq.symm.trans hrow))

/-- Without the check every edge is stored. -/
theorem submitted_stored {edges : List TemporalEdge} (h : (edges.map TemporalEdge.id).Nodup) :
    ∀ e ∈ edges, ∃ row ∈ submitted false upper edges, row.id = e.id := by
  induction edges using List.reverseRecOn with
  | nil => exact fun _ he => nomatch he
  | append_singleton pre e ih =>
    obtain ⟨hpre, he⟩ := ids_append h
    have hfresh := (@submitted_kept false upper _ hpre).fresh he
    obtain ⟨f, hf, heq⟩ : ∃ f : TemporalEdge → TemporalEdge, (∀ row, (f row).id = row.id) ∧
        submit false upper (submitted false upper pre) e =
          (submitted false upper pre).map f++[fresh e] := by
      rcases @submit_cases false upper _ _ hfresh with
        ⟨hno, -⟩ | ⟨-, heq⟩ | ⟨-, -, heq⟩
      · cases hno
      · exact ⟨id, fun _ => rfl, by rw [heq, List.map_id]⟩
      · refine ⟨_, fun row => ?_, heq⟩
        unfold close
        split_ifs <;> rfl
    rw [submitted_append]
    simp only [List.foldl_cons, List.foldl_nil, heq]
    intro g hg
    rcases List.mem_append.mp hg with hold | hlast
    · obtain ⟨row, hr, hid⟩ := ih hpre g hold
      exact ⟨f row, List.mem_append_left _ (List.mem_map_of_mem hr), (hf row).trans hid⟩
    · rw [List.mem_singleton.mp hlast]
      exact ⟨fresh e, by simp, rfl⟩

/-- With the check no row is ever closed. -/
theorem submitted_open {edges : List TemporalEdge} (h : (edges.map TemporalEdge.id).Nodup) :
    ∀ row ∈ submitted true upper edges, row.invalidatedById = none := by
  induction edges using List.reverseRecOn with
  | nil => exact fun _ he => nomatch he
  | append_singleton pre e ih =>
    obtain ⟨hpre, he⟩ := ids_append h
    have hfresh := (@submitted_kept true upper _ hpre).fresh he
    rw [submitted_append]
    simp only [List.foldl_cons, List.foldl_nil]
    rcases @submit_cases true upper _ _ hfresh with
      ⟨-, -, -, heq⟩ | ⟨-, heq⟩ | ⟨hno, -⟩
    · rw [heq]
      exact ih hpre
    · rw [heq]
      intro row hr
      rcases List.mem_append.mp hr with hold | hnew
      · exact ih hpre row hold
      · rw [List.mem_singleton.mp hnew]
        rfl
    · cases hno

theorem exists_last {k : Key} {edges : List TemporalEdge} (h : ∃ e ∈ edges, e.key = k) :
    ∃ pre e post, edges = pre++e::post ∧ e.key = k ∧ ∀ f ∈ post, f.key ≠ k := by
  induction edges with
  | nil => simp at h
  | cons x edges ih =>
    by_cases hrest : ∃ e ∈ edges, e.key = k
    · obtain ⟨pre, e, post, rfl, hkey, hpost⟩ := ih hrest
      exact ⟨x::pre, e, post, rfl, hkey, hpost⟩
    · obtain ⟨e, he, hkey⟩ := h
      rcases List.mem_cons.mp he with rfl | he'
      · exact ⟨[], e, edges, rfl, hkey, fun f hf hk => hrest ⟨f, hf, hk⟩⟩
      · exact absurd ⟨e, he', hkey⟩ hrest

end Call

section Order

variable (enforced : Bool) (upper : Char → String) (k : Key) (edges : List TemporalEdge)

/-- The edges of the key are created valid. Where the reference is checked
there is at most one of them; elsewhere the one that arrives last occurred
last, and finds no more than a page of valid ones. -/
def Orderly : Prop :=
  (∀ e ∈ edges, e.key = k → e.isValid = true) ∧
    if enforced then (edges.filter (fun e => e.key = k)).length ≤ 1
    else ∀ pre e post, edges = pre++e::post → e.key = k → (∀ f ∈ post, f.key ≠ k) →
      (∀ f ∈ pre, f.key = k → f.occurredAt < e.occurredAt) ∧
        (validOf k (submitted enforced upper pre)).length ≤ 100

variable {enforced upper k edges}
variable (hids : (edges.map TemporalEdge.id).Nodup)
include hids

theorem origin_eq {row e : TemporalEdge} (hr : row ∈ submitted enforced upper edges) (he : e ∈ edges)
    (hid : row.id = e.id) : Origin edges e row := by
  obtain ⟨f, hf, ho⟩ := (submitted_kept hids).origin row hr
  have hfe : f = e := List.inj_on_of_nodup_map hids hf he (ho.id_eq.symm.trans hid)
  exact hfe ▸ ho

theorem created_valid (h : Superseded k edges (submitted enforced upper edges)) :
    ∀ e ∈ edges, e.key = k → e.isValid = true := by
  intro e he hkey
  obtain ⟨row, hr, hid⟩ := h.stored e he hkey
  have ho := origin_eq hids hr he hid
  rcases ho.status with ⟨hv, hnone⟩ | ⟨-, hv, -⟩
  · by_contra hne
    have hclosed : row.isValid = false := by simpa [hv] using hne
    obtain ⟨f, -, -, -, hby⟩ := h.closed row hr (ho.key_eq.trans hkey) hclosed
    rw [hnone] at hby
    cases hby
  · exact hv

theorem single_of_superseded (h : Superseded k edges (submitted true upper edges))
    (htime : ∀ e ∈ edges, ∀ f ∈ edges, e.key = k → f.key = k →
      e.occurredAt = f.occurredAt → e = f) :
    (edges.filter (fun e => e.key = k)).length ≤ 1 := by
  have hmax : ∀ e ∈ edges, e.key = k → ∀ f ∈ edges, f.key = k → f.occurredAt ≤ e.occurredAt := by
    intro e he hkey
    obtain ⟨row, hr, hid⟩ := h.stored e he hkey
    have ho := origin_eq hids hr he hid
    have hopen := submitted_open hids row hr
    have hvalid : row.isValid = true := by
      rcases ho.status with ⟨hv, -⟩ | ⟨-, -, f, -, -, -, hby⟩
      · rw [hv]
        exact created_valid hids h e he hkey
      · rw [hopen] at hby
        cases hby
    have hall := (h.latest row hr (ho.key_eq.trans hkey)).mp hvalid
    rwa [ho.time_eq] at hall
  have hnodup : (edges.filter (fun e => e.key = k)).Nodup := (hids.of_map).filter _
  match hf : edges.filter (fun e => e.key = k) with
  | [] => simp [hf]
  | [_] => simp [hf]
  | a::b::rest =>
    rw [hf] at hnodup
    have ha : a ∈ edges.filter (fun e => e.key = k) := by simp [hf]
    have hb : b ∈ edges.filter (fun e => e.key = k) := by simp [hf]
    simp only [List.mem_filter, decide_eq_true_eq] at ha hb
    have hab := htime a ha.1 b hb.1 ha.2 hb.2
      (le_antisymm (hmax b hb.1 hb.2 a ha.1 ha.2) (hmax a ha.1 ha.2 b hb.1 hb.2))
    simp [hab] at hnodup

/-- The rows of a key after a run are those after its last edge. -/
theorem last_rows {pre post : List TemporalEdge} {e : TemporalEdge} (h : edges = pre++e::post)
    (hpost : ∀ f ∈ post, f.key ≠ k) {row : TemporalEdge} (hrow : row.key = k) :
    row ∈ submitted enforced upper edges ↔
      row ∈ submit enforced upper (submitted enforced upper pre) e := by
  have happ : edges = (pre++[e])++post := by simp [h]
  rw [happ] at hids ⊢
  rw [submitted_others hids hpost hrow, submitted_append]
  rfl

theorem ids_split {pre post : List TemporalEdge} {e : TemporalEdge} (h : edges = pre++e::post) :
    (pre.map TemporalEdge.id).Nodup ∧ e.id ∉ pre.map TemporalEdge.id := by
  have happ : edges = (pre++[e])++post := by simp [h]
  rw [happ, List.map_append] at hids
  exact ids_append hids.of_append_left

/-- Without the check the last edge of an exclusive key closes its page. -/
theorem last_call (hx : Exclusive upper k.relationshipType) {pre post : List TemporalEdge}
    {e : TemporalEdge} (h : edges = pre++e::post) (hkey : e.key = k) :
    submit false upper (submitted false upper pre) e =
      (submitted false upper pre).map (close (page (submitted false upper pre) e) e)++[fresh e] := by
  obtain ⟨hpre, he⟩ := ids_split hids h
  have htype : Exclusive upper e.relationshipType := by
    rw [← hkey] at hx
    exact hx
  rcases @submit_cases false upper _ _ ((submitted_kept hpre).fresh he) with
    ⟨hno, -⟩ | ⟨hopen, -⟩ | ⟨-, -, heq⟩
  · cases hno
  · cases (hopen htype).1
  · exact heq

theorem last_of_superseded (hx : Exclusive upper k.relationshipType)
    (h : Superseded k edges (submitted false upper edges))
    (htime : ∀ e ∈ edges, ∀ f ∈ edges, e.key = k → f.key = k →
      e.occurredAt = f.occurredAt → e = f) {pre post : List TemporalEdge} {e : TemporalEdge}
    (hedges : edges = pre++e::post) (hkey : e.key = k) (hpost : ∀ f ∈ post, f.key ≠ k) :
    (∀ f ∈ pre, f.key = k → f.occurredAt < e.occurredAt) ∧
      (validOf k (submitted false upper pre)).length ≤ 100 := by
  obtain ⟨hpre, he⟩ := ids_split hids hedges
  have hmem : e ∈ edges := by simp [hedges]
  have hsub : pre ⊆ edges := fun f hf => by simp [hedges, hf]
  have hcall := last_call hids hx hedges hkey
  have hkept := @submitted_kept false upper _ hpre
  have hlast : ∀ f ∈ pre, f.key = k → f.occurredAt < e.occurredAt := by
    intro f hf hfk
    have hrow : fresh e ∈ submitted false upper edges := by
      rw [last_rows hids hedges hpost (show (fresh e).key = k from hkey), hcall]
      simp
    have hvalid : (fresh e).isValid = true := created_valid hids h e hmem hkey
    have hle := (h.latest _ hrow hkey).mp hvalid f (hsub hf) hfk
    refine lt_of_le_of_ne hle (fun heq => he ?_)
    exact htime f (hsub hf) e hmem hfk hkey heq ▸ List.mem_map_of_mem hf
  refine ⟨hlast, ?_⟩
  by_contra hmany
  -- more valid rows than a page holds: one of them is not looked at
  obtain ⟨row, hr, hout⟩ : ∃ row ∈ validOf k (submitted false upper pre),
      row ∉ page (submitted false upper pre) e := by
    by_contra hall
    push Not at hall
    have hnodup : (validOf k (submitted false upper pre)).Nodup := hkept.ids.of_map.filter _
    have hlen := (hnodup.subperm hall).length_le
    simp only [page, List.length_take] at hlen
    omega
  obtain ⟨hin, hrk, hrv⟩ : row ∈ submitted false upper pre ∧ row.key = k ∧ row.isValid = true := by
    simpa [validOf] using hr
  have hkeep : close (page (submitted false upper pre) e) e row = row :=
    if_neg (fun hold => hout (older_page hkept.ids hin hold).1)
  have hfinal : row ∈ submitted false upper edges := by
    rw [last_rows hids hedges hpost hrk, hcall]
    exact List.mem_append_left _ (List.mem_map.mpr ⟨row, hin, hkeep⟩)
  have hle := (h.latest row hfinal hrk).mp hrv e hmem hkey
  obtain ⟨f, hf, ho⟩ := hkept.origin row hin
  have hlt := hlast f hf (ho.key_eq.symm.trans hrk)
  rw [ho.time_eq] at hle
  omega

/-- A row of a key whose edges were created valid is valid or names a later edge. -/
theorem closed_names (hvalid : ∀ e ∈ edges, e.key = k → e.isValid = true) {row : TemporalEdge}
    (hr : row ∈ submitted enforced upper edges) (hrow : row.key = k) (hclosed : row.isValid = false) :
    ∃ e ∈ edges, e.key = k ∧ row.occurredAt < e.occurredAt ∧
      row.invalidatedById = some e.id := by
  obtain ⟨e, he, ho⟩ := (submitted_kept hids).origin row hr
  have hek : e.key = k := ho.key_eq.symm.trans hrow
  rcases ho.status with ⟨hv, -⟩ | ⟨-, -, f, hf, hfk, hlt, hby⟩
  · rw [hv, hvalid e he hek] at hclosed
    cases hclosed
  · exact ⟨f, hf, hfk.trans hek, ho.time_eq ▸ hlt, hby⟩

theorem superseded_of_last (hx : Exclusive upper k.relationshipType)
    (hvalid : ∀ e ∈ edges, e.key = k → e.isValid = true)
    {pre post : List TemporalEdge} {e : TemporalEdge} (hedges : edges = pre++e::post)
    (hkey : e.key = k) (hpost : ∀ f ∈ post, f.key ≠ k)
    (hlast : ∀ f ∈ pre, f.key = k → f.occurredAt < e.occurredAt)
    (hpage : (validOf k (submitted false upper pre)).length ≤ 100) :
    Superseded k edges (submitted false upper edges) := by
  have hcall := last_call hids hx hedges hkey
  have hkept := @submitted_kept false upper _ (ids_split hids hedges).1
  have hmem : e ∈ edges := by simp [hedges]
  refine ⟨fun f hf _ => submitted_stored hids f hf, fun row hr hrow => ?_,
    fun row hr hrow => closed_names hids hvalid hr hrow⟩
  rw [last_rows hids hedges hpost hrow, hcall, List.mem_append, List.mem_singleton] at hr
  rcases hr with hold | rfl
  · obtain ⟨old, hin, rfl⟩ := List.mem_map.mp hold
    rw [close_key] at hrow
    obtain ⟨f, hf, ho⟩ := hkept.origin old hin
    have hlt := hlast f hf (ho.key_eq.symm.trans hrow)
    rw [← ho.time_eq] at hlt
    have htime : (close (page (submitted false upper pre) e) e old).occurredAt =
        old.occurredAt := by
      unfold close
      split_ifs <;> rfl
    have hclosed : (close (page (submitted false upper pre) e) e old).isValid = false := by
      unfold close
      split_ifs with holder
      · rfl
      · by_contra hopen
        rw [Bool.not_eq_false] at hopen
        refine holder ⟨old, ?_, hlt, rfl⟩
        rw [page, hkey, List.take_of_length_le ((sortOn_perm _ _).length_eq.trans_le hpage)]
        exact mem_sortOn.mpr (by simp [validOf, hin, hrow, hopen])
    rw [htime, hclosed]
    refine ⟨fun hno => (nomatch hno), fun hall => ?_⟩
    have hle := hall e hmem hkey
    omega
  · have hv : (fresh e).isValid = true := hvalid e hmem hkey
    refine ⟨fun _ f hf hfk => ?_, fun _ => hv⟩
    rw [hedges] at hf
    rcases List.mem_append.mp hf with hfpre | hftail
    · exact (hlast f hfpre hfk).le
    · rcases List.mem_cons.mp hftail with rfl | hfpost
      · exact le_rfl
      · exact absurd hfk (hpost f hfpost)

theorem superseded_of_single (hvalid : ∀ e ∈ edges, e.key = k → e.isValid = true)
    (hone : (edges.filter (fun e => e.key = k)).length ≤ 1) :
    Superseded k edges (submitted enforced upper edges) := by
  have heq : ∀ e ∈ edges, ∀ f ∈ edges, e.key = k → f.key = k → e = f := by
    intro e he f hf hek hfk
    have hmem : ∀ g ∈ edges, g.key = k → g ∈ edges.filter (fun e => e.key = k) :=
      fun g hg hgk => by simp [hg, hgk]
    match h : edges.filter (fun e => e.key = k) with
    | [] => simpa [h] using hmem e he hek
    | [a] =>
      have hea := hmem e he hek
      have hfa := hmem f hf hfk
      rw [h, List.mem_singleton] at hea hfa
      rw [hea, hfa]
    | a::b::rest =>
      rw [h] at hone
      simp at hone
  refine ⟨fun e he hek => ?_, fun row hr hrow => ?_,
    fun row hr hrow => closed_names hids hvalid hr hrow⟩
  · obtain ⟨pre, e', post, hedges, hkey, hpost⟩ := exists_last ⟨e, he, hek⟩
    obtain rfl := heq e he e' (by simp [hedges]) hek hkey
    obtain ⟨hpre, hnot⟩ := ids_split hids hedges
    have hkept := @submitted_kept enforced upper _ hpre
    have hnone : ∀ row ∈ submitted enforced upper pre, row.key ≠ e.key := by
      intro row hr hrk
      obtain ⟨f, hf, ho⟩ := hkept.origin row hr
      obtain rfl := heq f (by simp [hedges, hf]) e he (ho.key_eq.symm.trans (hrk.trans hek)) hek
      exact hnot (List.mem_map_of_mem hf)
    refine ⟨fresh e, (last_rows hids hedges hpost (show (fresh e).key = k from hek)).mpr ?_, rfl⟩
    rcases @submit_cases enforced upper _ _ (hkept.fresh hnot) with
      ⟨-, -, ⟨old, hold, -⟩, -⟩ | ⟨-, hcall⟩ | ⟨-, -, hcall⟩
    · exact absurd (mem_page hold).2.1 (hnone old (mem_page hold).1)
    · simp [hcall]
    · simp [hcall]
  · obtain ⟨e, he, ho⟩ := (submitted_kept hids).origin row hr
    have hek := ho.key_eq.symm.trans hrow
    refine ⟨fun _ f hf hfk => ?_, fun _ => ?_⟩
    · rw [heq f hf e he hfk hek, ho.time_eq]
    · by_contra hopen
      rw [Bool.not_eq_true] at hopen
      obtain ⟨f, hf, hfk, hlt, -⟩ := closed_names hids hvalid hr hrow hopen
      rw [heq f hf e he hfk hek, ho.time_eq] at hlt
      omega

omit hids

/-- For an exclusive key whose edges have distinct times, a run leaves exactly
the edge that occurred last valid if and only if the run is orderly; edges of
other keys are left as they are by every call. -/
theorem superseded_iff (enforced : Bool) (upper : Char → String) (k : Key)
    (edges : List TemporalEdge) (hids : (edges.map TemporalEdge.id).Nodup)
    (hx : Exclusive upper k.relationshipType)
    (htime : ∀ e ∈ edges, ∀ f ∈ edges, e.key = k → f.key = k →
      e.occurredAt = f.occurredAt → e = f) :
    (Superseded k edges (submitted enforced upper edges) ↔ Orderly enforced upper k edges) ∧
      ∀ pre e post, edges = pre++e::post → ∀ row : TemporalEdge, row.key ≠ e.key →
        (row ∈ submitted enforced upper (pre++[e]) ↔ row ∈ submitted enforced upper pre) := by
  refine ⟨⟨fun h => ⟨created_valid hids h, ?_⟩, fun ⟨hvalid, h⟩ => ?_⟩, ?_⟩
  · cases enforced with
    | true => exact single_of_superseded hids h htime
    | false =>
      exact fun pre e post hedges hkey hpost => last_of_superseded hids hx h htime hedges hkey hpost
  · by_cases hsome : ∃ e ∈ edges, e.key = k
    · cases enforced with
      | true => exact superseded_of_single hids hvalid h
      | false =>
        obtain ⟨pre, e, post, hedges, hkey, hpost⟩ := exists_last hsome
        obtain ⟨hlast, hpage⟩ := h pre e post hedges hkey hpost
        exact superseded_of_last hids hx hvalid hedges hkey hpost hlast hpage
    · refine superseded_of_single hids hvalid ?_
      have hnone : edges.filter (fun e => e.key = k) = [] := by
        simpa using fun e he hk => hsome ⟨e, he, hk⟩
      simp [hnone]
  · intro pre e post hedges row hrow
    obtain ⟨hpre, he⟩ := ids_split hids hedges
    rw [submitted_append]
    exact submit_others (submitted_kept hpre) he hrow

end Order

namespace Backfilled

def newer : TemporalEdge := ⟨1,0,10,20,"WORKS_FOR",2024,true,none,none⟩

def older : TemporalEdge := ⟨2,0,10,20,"WORKS_FOR",2023,true,none,none⟩

def upper (c : Char) : String := String.singleton c.toUpper

theorem both_valid : ¬ ∃ enforced : Bool,
    Superseded newer.key [newer,older] (submitted enforced upper [newer,older]) := by
  rintro ⟨enforced, h⟩
  have hrow : older ∈ submitted enforced upper [newer,older] := by
    cases enforced <;> decide
  have hall := (h.latest older hrow (by decide)).mp (by decide) newer (by simp) rfl
  exact absurd hall (by decide)

theorem newer_first :
    Superseded newer.key [newer,older] (submitted false upper [newer,older]) ↔
      Orderly false upper newer.key [newer,older] := by
  refine (superseded_iff false upper newer.key [newer,older] (by decide) (by decide) ?_).1
  simp only [List.mem_cons, List.not_mem_nil, or_false]
  rintro e (rfl | rfl) f (rfl | rfl) - - h <;> first | rfl | cases h

end Backfilled

end Uru.Skeleton.TemporalEdges
