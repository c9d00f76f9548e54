import Mathlib.Data.List.Perm.Basic
import Mathlib.Logic.Relation
import Mathlib.Tactic
import Uru.Dream.DedupeUndo

/-!
# Consolidation on two stores

One store rewrites the ends of a relationship in place; the other cannot, so it
retires the edge and relates the new ends under a name derived from the old
one. Both read as the same redirection of the live relationships along the
merges they make. The first makes the merges its verifier lets through, the
second makes all of them.
-/

set_option autoImplicit false

namespace Uru.Dream.DedupeSurreal
open Uru.Storage Uru.Lib Uru.Lib.Table Relation

structure Edge where
  relId : UUID
  source : UUID
  target : UUID
  relationshipType : String
  sourceDocumentIds : List UUID
  sourceChunkIds : List UUID
  confidence : ℚ
  weight : ℚ
  validUntil : Option Time
  createdAt : Time
  updatedAt : Time
  columns : List String
deriving DecidableEq

structure Store where
  entities : List Entity
  relatesTo : List Edge
deriving DecidableEq

inductive Statement
  | retireEdge (relId : UUID)
  | relate (edge : Edge)
  | retireEntity (id : UUID)

section Batch

variable (now : Time)

def retireEdges (ids : List UUID) (e : Edge) : Edge :=
  if e.relId ∈ ids ∧ e.validUntil = none then
    { e with validUntil := some now, updatedAt := now }
  else e

/-- The names of the edges are unique, and relating under a name that is taken
fails. -/
def execute (s : Store) : Statement → Option Store
  | .retireEdge relId =>
    some { s with relatesTo := s.relatesTo.map (retireEdges now [relId]) }
  | .relate edge =>
    if edge.relId ∈ s.relatesTo.map Edge.relId then none
    else some { s with relatesTo := s.relatesTo++[edge] }
  | .retireEntity id => some { s with entities := s.entities.map (retired now id) }

def executeBatch (statements : List Statement) (s : Store) : Option Store :=
  statements.foldlM (execute now) s

end Batch

section Apply

variable (uuid5 : UUID → UUID → UUID) (now : Time) (canonical absorbed : UUID)

def incident (e : Edge) : Bool :=
  (e.source = absorbed ∨ e.target = absorbed) ∧ e.validUntil = none

def loops (e : Edge) : Bool :=
  redirect canonical absorbed e.source = redirect canonical absorbed e.target

def related (e : Edge) : Edge :=
  { e with
    relId := uuid5 e.relId canonical
    source := redirect canonical absorbed e.source
    target := redirect canonical absorbed e.target
    validUntil := none
    createdAt := now
    updatedAt := now }

def rowStatements (e : Edge) : List Statement :=
  .retireEdge e.relId::
    if loops canonical absorbed e then [] else [.relate (related uuid5 now canonical absorbed e)]

/-- The incident edges are read first; then the merge is one batch. -/
def applyEntry (s : Store) : Option Store :=
  executeBatch now
    ((s.relatesTo.filter (incident absorbed)).flatMap
      (rowStatements uuid5 now canonical absorbed)++[.retireEntity absorbed]) s

/-- No verifier is asked here. -/
def applyDedupeEntities (op : DedupeOp) (s : Store) : Option Store :=
  op.merges.foldlM (fun s entry => applyEntry uuid5 now entry.canonicalId entry.absorbedId s) s

end Apply

structure Shown where
  source : UUID
  target : UUID
  relationshipType : String
  sourceDocumentIds : List UUID
  sourceChunkIds : List UUID
  confidence : ℚ
  weight : ℚ
  validUntil : Option Time
  columns : List String
deriving DecidableEq

def rowShown (r : Relationship) : Shown :=
  ⟨r.sourceEntityId,r.targetEntityId,r.relationshipType,r.sourceDocumentIds,
    r.sourceChunkIds,r.confidence,r.weight,r.validUntil,r.columns⟩

def edgeShown (e : Edge) : Shown :=
  ⟨e.source,e.target,e.relationshipType,e.sourceDocumentIds,e.sourceChunkIds,e.confidence,
    e.weight,e.validUntil,e.columns⟩

def liveRows (t : Time) (rows : List Relationship) : List Shown :=
  rows.filterMap (fun r => if r.live t then some (rowShown r) else none)

def liveEdges (t : Time) (edges : List Edge) : List Shown :=
  edges.filterMap (fun e => if windowOpen t e.validUntil then some (edgeShown e) else none)

def liveEntities (t : Time) (entities : List Entity) : List Entity :=
  entities.filter (Entity.live t)

/-- At the time `t` both stores show the same entities and relationships. -/
def Same (t : Time) (c : Content) (s : Store) : Prop :=
  (liveEntities t c.entities).Perm (liveEntities t s.entities) ∧
    (liveRows t c.relationships).Perm (liveEdges t s.relatesTo)

def redirected (canonical absorbed : UUID) (v : Shown) : Option Shown :=
  if v.source = absorbed ∨ v.target = absorbed then
    if redirect canonical absorbed v.source = redirect canonical absorbed v.target then none
    else some { v with
      source := redirect canonical absorbed v.source
      target := redirect canonical absorbed v.target }
  else some v

def redirectedAll (canonical : UUID) (as : List UUID) (l : List Shown) : List Shown :=
  as.foldl (fun l a => l.filterMap (redirected canonical a)) l

def OpenEnded (as : List UUID) (l : List Shown) : Prop :=
  ∀ v ∈ l, (v.source ∈ as ∨ v.target ∈ as) → v.validUntil = none

def Derived (uuid5 : UUID → UUID → UUID) : UUID → UUID → Prop :=
  TransGen (fun a b => ∃ c, b = uuid5 a c)

theorem redirect_other {canonical a b x : UUID} (hne : canonical ≠ a)
    (h : redirect canonical b x = a) : x = a ∧ a ≠ b := by
  unfold redirect at h
  split_ifs at h with hxb
  · exact absurd h hne
  · exact ⟨h, fun heq => hxb (h.trans heq)⟩

structure Sound (uuid5 : UUID → UUID → UUID) (s : Store) : Prop where
  keys : (s.relatesTo.map Edge.relId).Nodup
  lineage : ∀ x ∈ s.relatesTo, ∀ y ∈ s.relatesTo, Derived uuid5 y.relId x.relId →
    y.validUntil ≠ none

section Batch

variable {uuid5 : UUID → UUID → UUID} {now : Time} {canonical absorbed : UUID}

@[simp] theorem retireEdges_id (ids : List UUID) (e : Edge) :
    (retireEdges now ids e).relId = e.relId := by
  unfold retireEdges
  split <;> rfl

theorem retireEdges_ids (ids : List UUID) (edges : List Edge) :
    (edges.map (retireEdges now ids)).map Edge.relId = edges.map Edge.relId := by
  rw [List.map_map]
  exact List.map_congr_left (fun e _ => retireEdges_id ids e)

theorem retireEdges_cons (id : UUID) (ids : List UUID) (e : Edge) :
    retireEdges now ids (retireEdges now [id] e) = retireEdges now (id::ids) e := by
  by_cases hid : e.relId = id <;> by_cases hopen : e.validUntil = none <;>
    simp [retireEdges, hid, hopen]

theorem retireEdges_other {ids : List UUID} {e : Edge} (h : e.relId ∉ ids) :
    retireEdges now ids e = e :=
  if_neg (fun hboth => h hboth.1)

def newEdges (uuid5 : UUID → UUID → UUID) (now : Time) (canonical absorbed : UUID)
    (rows : List Edge) : List Edge :=
  (rows.filter (fun e => !loops canonical absorbed e)).map (related uuid5 now canonical absorbed)

theorem newEdges_cons (r : Edge) (rows : List Edge) :
    newEdges uuid5 now canonical absorbed (r::rows) =
      (if loops canonical absorbed r then [] else [related uuid5 now canonical absorbed r])++
        newEdges uuid5 now canonical absorbed rows := by
  cases hloop : loops canonical absorbed r <;> simp [newEdges, hloop]

/-- One row retires its edge and relates the new one. -/
theorem execute_row {r : Edge} {s : Store}
    (hfresh : uuid5 r.relId canonical ∉ s.relatesTo.map Edge.relId) :
    executeBatch now (rowStatements uuid5 now canonical absorbed r) s =
      some ⟨s.entities,s.relatesTo.map (retireEdges now [r.relId])++
        if loops canonical absorbed r then [] else [related uuid5 now canonical absorbed r]⟩ := by
  unfold rowStatements
  split_ifs with hloop
  · simp [executeBatch, execute]
  · have hfresh' : (related uuid5 now canonical absorbed r).relId ∉
        (s.relatesTo.map (retireEdges now [r.relId])).map Edge.relId := by
      rw [retireEdges_ids]
      exact hfresh
    simp only [executeBatch, List.foldlM_cons, List.foldlM_nil, execute, Option.bind_eq_bind,
      Option.bind_some, if_neg hfresh', Option.pure_def]

theorem execute_rows (huuid5 : Function.Injective2 uuid5) (rows : List Edge) (s : Store)
    (hnodup : (rows.map Edge.relId).Nodup)
    (hin : ∀ r ∈ rows, r.relId ∈ s.relatesTo.map Edge.relId)
    (hfresh : ∀ r ∈ rows, uuid5 r.relId canonical ∉ s.relatesTo.map Edge.relId) :
    executeBatch now (rows.flatMap (rowStatements uuid5 now canonical absorbed)) s =
      some ⟨s.entities,s.relatesTo.map (retireEdges now (rows.map Edge.relId))++
        newEdges uuid5 now canonical absorbed rows⟩ := by
  induction rows generalizing s with
  | nil =>
    have hsame : s.relatesTo.map (retireEdges now []) = s.relatesTo :=
      (List.map_congr_left (fun e _ => retireEdges_other List.not_mem_nil)).trans (List.map_id _)
    simp [executeBatch, newEdges, hsame]
  | cons r rows ih =>
    obtain ⟨hr, hrest⟩ := List.nodup_cons.mp hnodup
    have hother : uuid5 r.relId canonical ∉ rows.map Edge.relId := by
      intro h
      obtain ⟨q, hq, hid⟩ := List.mem_map.mp h
      exact hfresh r List.mem_cons_self (hid ▸ hin q (List.mem_cons_of_mem r hq))
    have hone := @execute_row uuid5 now canonical absorbed r s (hfresh r List.mem_cons_self)
    unfold executeBatch at hone ih ⊢
    rw [List.flatMap_cons, List.foldlM_append, hone, Option.bind_eq_bind, Option.bind_some,
      ih _ hrest]
    · have hkeep : (if loops canonical absorbed r then []
            else [related uuid5 now canonical absorbed r]).map
              (retireEdges now (rows.map Edge.relId)) =
            if loops canonical absorbed r then [] else [related uuid5 now canonical absorbed r] := by
        split_ifs
        · rfl
        · rw [List.map_cons, retireEdges_other hother, List.map_nil]
      have hretired : (s.relatesTo.map (retireEdges now [r.relId])).map
            (retireEdges now (rows.map Edge.relId)) =
          s.relatesTo.map (retireEdges now ((r::rows).map Edge.relId)) := by
        rw [List.map_map]
        exact List.map_congr_left (fun e _ => retireEdges_cons _ _ e)
      rw [List.map_append, hkeep, hretired, newEdges_cons, List.append_assoc]
    · intro q hq
      rw [List.map_append, retireEdges_ids]
      exact List.mem_append_left _ (hin q (List.mem_cons_of_mem r hq))
    · intro q hq h
      rw [List.map_append, retireEdges_ids] at h
      rcases List.mem_append.mp h with hold | hnew
      · exact hfresh q (List.mem_cons_of_mem r hq) hold
      · split_ifs at hnew with hloop
        · cases hnew
        · rw [List.map_cons, List.map_nil, List.mem_singleton] at hnew
          have hid : q.relId = r.relId := (huuid5 hnew).1
          exact hr (hid ▸ List.mem_map_of_mem hq)

end Batch

section Merge

variable {uuid5 : UUID → UUID → UUID} {now : Time} {canonical absorbed : UUID} {s : Store}

theorem incident_iff {e : Edge} : incident absorbed e ↔
    (e.source = absorbed ∨ e.target = absorbed) ∧ e.validUntil = none := by
  simp [incident]

def mergedEdges (uuid5 : UUID → UUID → UUID) (now : Time) (canonical absorbed : UUID)
    (edges : List Edge) : List Edge :=
  edges.map (fun e => if incident absorbed e then
      { e with validUntil := some now, updatedAt := now } else e)++
    newEdges uuid5 now canonical absorbed (edges.filter (incident absorbed))

theorem Sound.fresh (h : Sound uuid5 s) {r : Edge} (hr : r ∈ s.relatesTo)
    (hopen : r.validUntil = none) (c : UUID) :
    uuid5 r.relId c ∉ s.relatesTo.map Edge.relId := by
  intro htaken
  obtain ⟨x, hx, hid⟩ := List.mem_map.mp htaken
  exact h.lineage x hx r hr (.single ⟨c, hid⟩) hopen

/-- The merge of an absorbed member. -/
theorem applyEntry_spec (huuid5 : Function.Injective2 uuid5) (h : Sound uuid5 s) :
    applyEntry uuid5 now canonical absorbed s =
      some ⟨s.entities.map (retired now absorbed),
        mergedEdges uuid5 now canonical absorbed s.relatesTo⟩ := by
  have hrows := @execute_rows uuid5 now canonical absorbed huuid5
    (s.relatesTo.filter (incident absorbed)) s (h.keys.sublist (List.filter_sublist.map _))
    (fun r hr => List.mem_map_of_mem (List.mem_filter.mp hr).1)
    (fun r hr => h.fresh (List.mem_filter.mp hr).1
      (incident_iff.mp (List.mem_filter.mp hr).2).2 canonical)
  have hretired : s.relatesTo.map (retireEdges now
        ((s.relatesTo.filter (incident absorbed)).map Edge.relId)) =
      s.relatesTo.map (fun e => if incident absorbed e then
        { e with validUntil := some now, updatedAt := now } else e) := by
    refine List.map_congr_left (fun e he => if_congr ⟨fun hboth => ?_, fun hin => ?_⟩ rfl rfl)
    · obtain ⟨r, hr, hid⟩ := List.mem_map.mp hboth.1
      obtain ⟨hr, hin⟩ := List.mem_filter.mp hr
      rwa [List.inj_on_of_nodup_map h.keys he hr hid.symm]
    · exact ⟨List.mem_map_of_mem (List.mem_filter.mpr ⟨he, hin⟩), (incident_iff.mp hin).2⟩
  unfold applyEntry
  unfold executeBatch at hrows ⊢
  rw [List.foldlM_append, hrows, hretired]
  rfl

theorem mem_newEdges {rows : List Edge} {x : Edge} :
    x ∈ newEdges uuid5 now canonical absorbed rows ↔ ∃ r ∈ rows, loops canonical absorbed r = false ∧
      related uuid5 now canonical absorbed r = x := by
  simp [newEdges, and_assoc]

theorem mem_mergedEdges {edges : List Edge} {x : Edge} :
    x ∈ mergedEdges uuid5 now canonical absorbed edges ↔
      (∃ r ∈ edges, x = if incident absorbed r then
        { r with validUntil := some now, updatedAt := now } else r) ∨
      ∃ r ∈ edges, incident absorbed r ∧ loops canonical absorbed r = false ∧
        x = related uuid5 now canonical absorbed r := by
  unfold mergedEdges
  rw [List.mem_append, List.mem_map, mem_newEdges]
  simp only [List.mem_filter, and_assoc, eq_comm]

/-- Every edge after the merge is an old one, retired if it was incident, or
has a name derived from one. -/
theorem merged_edge_cases {edges : List Edge} {x : Edge}
    (hx : x ∈ mergedEdges uuid5 now canonical absorbed edges) :
    (∃ r ∈ edges, x.relId = r.relId ∧ (r.validUntil ≠ none → x.validUntil ≠ none) ∧
        (incident absorbed r → x.validUntil ≠ none)) ∨
      ∃ r ∈ edges, incident absorbed r ∧ x.relId = uuid5 r.relId canonical := by
  rcases mem_mergedEdges.mp hx with ⟨r, hr, rfl⟩ | ⟨r, hr, hin, -, rfl⟩
  · refine .inl ⟨r, hr, ?_⟩
    split_ifs with hin
    · exact ⟨rfl, fun _ => by simp, fun _ => by simp⟩
    · exact ⟨rfl, id, fun h => absurd h hin⟩
  · exact .inr ⟨r, hr, hin, rfl⟩

/-- No edge is left at the absorbed member, and none comes to another. -/
theorem merged_settled {edges : List Edge} {a : UUID} (hne : canonical ≠ a)
    (h : a = absorbed ∨ ∀ e ∈ edges, ¬ incident a e) :
    ∀ e ∈ mergedEdges uuid5 now canonical absorbed edges, ¬ incident a e := by
  intro x hx hin
  obtain ⟨htouches, hend⟩ := incident_iff.mp hin
  rcases mem_mergedEdges.mp hx with ⟨r, hr, rfl⟩ | ⟨r, hr, hrin, -, rfl⟩
  · split_ifs at hend htouches with hrin
    rcases h with rfl | h
    · exact hrin (incident_iff.mpr ⟨htouches, hend⟩)
    · exact h r hr (incident_iff.mpr ⟨htouches, hend⟩)
  · have hold : (r.source = a ∨ r.target = a) ∧ a ≠ absorbed := by
      rcases htouches with hsource | htarget
      · exact ⟨.inl (redirect_other hne hsource).1, (redirect_other hne hsource).2⟩
      · exact ⟨.inr (redirect_other hne htarget).1, (redirect_other hne htarget).2⟩
    rcases h with heq | h
    · exact hold.2 heq
    · exact h r hr (incident_iff.mpr ⟨hold.1, (incident_iff.mp hrin).2⟩)

theorem derived_last (huuid5 : Function.Injective2 uuid5) {a r c : UUID}
    (h : Derived uuid5 a (uuid5 r c)) : a = r ∨ Derived uuid5 a r := by
  rcases TransGen.tail'_iff.mp h with ⟨b, hab, d, hd⟩
  obtain rfl := (huuid5 hd).1
  rcases Relation.reflTransGen_iff_eq_or_transGen.mp hab with heq | hder
  · exact .inl heq.symm
  · exact .inr hder

theorem merged_sound (huuid5 : Function.Injective2 uuid5) (h : Sound uuid5 s)
    (entities : List Entity) :
    Sound uuid5 ⟨entities,mergedEdges uuid5 now canonical absorbed s.relatesTo⟩ := by
  have hopen : ∀ r : Edge, incident absorbed r → r.validUntil = none :=
    fun r hr => (incident_iff.mp hr).2
  refine ⟨?_, fun x hx y hy hder => ?_⟩
  · have hold : (s.relatesTo.map (fun e => if incident absorbed e then
        { e with validUntil := some now, updatedAt := now } else e)).map Edge.relId =
          s.relatesTo.map Edge.relId := by
      rw [List.map_map]
      refine List.map_congr_left (fun e _ => ?_)
      simp only [Function.comp_apply]
      split <;> rfl
    simp only [mergedEdges, List.map_append, hold]
    refine h.keys.append ?_ ?_
    · rw [newEdges, List.map_map]
      refine List.Nodup.map_on (fun a ha b hb heq => ?_)
        ((h.keys.of_map.filter _).filter _)
      have ha' := (List.mem_filter.mp (List.mem_filter.mp ha).1).1
      have hb' := (List.mem_filter.mp (List.mem_filter.mp hb).1).1
      exact List.inj_on_of_nodup_map h.keys ha' hb' (huuid5 heq).1
    · intro id hid hnew
      obtain ⟨x, hx, rfl⟩ := List.mem_map.mp hnew
      obtain ⟨r, hr, -, rfl⟩ := mem_newEdges.mp hx
      obtain ⟨hr, hin⟩ := List.mem_filter.mp hr
      exact h.fresh hr (hopen r hin) canonical hid
  · rcases merged_edge_cases hx with ⟨q, hq, hqid, -⟩ | ⟨q, hq, hqin, hqid⟩ <;>
      rcases merged_edge_cases hy with ⟨r, hr, hrid, hretired, hincident⟩ | ⟨r, hr, hrin, hrid⟩
    · rw [hqid, hrid] at hder
      exact hretired (h.lineage q hq r hr hder)
    · rw [hqid, hrid] at hder
      exact absurd (hopen r hrin) (h.lineage q hq r hr (.head ⟨canonical, rfl⟩ hder))
    · rw [hqid, hrid] at hder
      rcases derived_last huuid5 hder with heq | hder'
      · rw [List.inj_on_of_nodup_map h.keys hr hq heq] at hincident
        exact hincident hqin
      · exact hretired (h.lineage q hq r hr hder')
    · rw [hqid, hrid] at hder
      rcases derived_last huuid5 hder with heq | hder'
      · exact absurd (List.mem_map_of_mem hq) (heq ▸ h.fresh hr (hopen r hrin) canonical)
      · exact absurd (hopen r hrin) (h.lineage q hq r hr (.head ⟨canonical, rfl⟩ hder'))

end Merge

section View

variable {uuid5 : UUID → UUID → UUID} {now t : Time} {opId canonical absorbed : UUID}

/-- Two selections of a list that never answer for the same element. -/
theorem filterMap_split {α β : Type} {f g h : α → Option β} (l : List α)
    (heach : ∀ x ∈ l, (g x = none ∧ h x = f x) ∨ (f x = none ∧ h x = g x)) :
    (l.filterMap h).Perm (l.filterMap f++l.filterMap g) := by
  induction l with
  | nil => exact .refl _
  | cons x l ih =>
    have hrest := ih (fun y hy => heach y (List.mem_cons_of_mem x hy))
    rcases heach x List.mem_cons_self with ⟨hg, hh⟩ | ⟨hf, hh⟩
    · rw [List.filterMap_cons, List.filterMap_cons, List.filterMap_cons, hg, hh]
      cases f x with
      | none => exact hrest
      | some y => exact hrest.cons y
    · rw [List.filterMap_cons, List.filterMap_cons, List.filterMap_cons, hf, hh]
      cases g x with
      | none => exact hrest
      | some y => exact (hrest.cons y).trans List.perm_middle.symm

theorem live_mergeRow (r : Relationship) :
    (if (mergeRow now opId canonical absorbed r).live t then
        some (rowShown (mergeRow now opId canonical absorbed r)) else none) =
      (if r.live t then some (rowShown r) else none).bind (redirected canonical absorbed) := by
  by_cases hselected : selected absorbed r
  · obtain ⟨htouches, hvalid⟩ := selected_iff.mp hselected
    have htouches' : (rowShown r).source = absorbed ∨ (rowShown r).target = absorbed := htouches
    by_cases hcollapses : collapses canonical absorbed r
    · have hloop : redirect canonical absorbed (rowShown r).source =
          redirect canonical absorbed (rowShown r).target := of_decide_eq_true hcollapses
      rw [mergeRow_collapsed hselected hcollapses]
      cases hlive : r.live t <;>
        simp [Relationship.live, invalidate, redirected, htouches', hloop]
    · have hloop : ¬ redirect canonical absorbed (rowShown r).source =
          redirect canonical absorbed (rowShown r).target :=
        fun h => hcollapses (decide_eq_true h)
      rw [mergeRow_repointed hselected hcollapses]
      have hlive : (repoint now (newSrc canonical absorbed r) (newTgt canonical absorbed r) r).live
          t = r.live t := rfl
      rw [hlive]
      cases r.live t
      · rfl
      · simp only [if_true, Option.bind_some, redirected, if_pos htouches', if_neg hloop]
        rfl
  · rw [mergeRow_of_not_selected hselected]
    cases hlive : r.live t
    · rfl
    · have hvalid : r.invalidatedAt = none := by
        simp only [Relationship.live, Bool.and_eq_true, Option.isNone_iff_eq_none] at hlive
        exact hlive.1.2
      have htouches : ¬ ((rowShown r).source = absorbed ∨ (rowShown r).target = absorbed) :=
        fun h => hselected (selected_iff.mpr ⟨h, hvalid⟩)
      simp only [if_true, Option.bind_some, redirected, if_neg htouches]

/-- Rewriting the rows in place redirects what they show. -/
theorem liveRows_merged (rows : List Relationship) :
    liveRows t (rows.map (mergeRow now opId canonical absorbed)) =
      (liveRows t rows).filterMap (redirected canonical absorbed) := by
  unfold liveRows
  rw [List.filterMap_map, List.filterMap_filterMap]
  exact List.filterMap_congr (fun r _ => live_mergeRow r)

/-- So does retiring the edges and relating new ones, when none of the edges
has an end date. -/
theorem liveEdges_merged (ht : now ≤ t) (edges : List Edge)
    (hopen : OpenEnded [absorbed] (liveEdges t edges)) :
    (liveEdges t (mergedEdges uuid5 now canonical absorbed edges)).Perm
      ((liveEdges t edges).filterMap (redirected canonical absorbed)) := by
  have hnew : liveEdges t (newEdges uuid5 now canonical absorbed
        (edges.filter (incident absorbed))) =
      edges.filterMap (fun e => if incident absorbed e ∧ loops canonical absorbed e = false then
        some (edgeShown (related uuid5 now canonical absorbed e)) else none) := by
    unfold liveEdges newEdges
    rw [List.filterMap_map, List.filter_filter, List.filterMap_filter]
    refine List.filterMap_congr (fun e _ => ?_)
    cases incident absorbed e <;> cases loops canonical absorbed e <;> simp [related, windowOpen]
  have hold : liveEdges t (edges.map (fun e => if incident absorbed e then
        { e with validUntil := some now, updatedAt := now } else e)) =
      edges.filterMap (fun e => if windowOpen t e.validUntil ∧ ¬ incident absorbed e then
        some (edgeShown e) else none) := by
    unfold liveEdges
    rw [List.filterMap_map]
    refine List.filterMap_congr (fun e _ => ?_)
    cases hin : incident absorbed e <;> simp [hin, windowOpen, ht]
  have hsplit := filterMap_split (f := fun e => if windowOpen t e.validUntil ∧
        ¬ incident absorbed e then some (edgeShown e) else none)
      (g := fun e => if incident absorbed e ∧ loops canonical absorbed e = false then
        some (edgeShown (related uuid5 now canonical absorbed e)) else none)
      (h := fun e => (if windowOpen t e.validUntil then some (edgeShown e) else none).bind
        (redirected canonical absorbed)) edges (fun e he => ?_)
  · rw [mergedEdges, liveEdges, List.filterMap_append]
    change (liveEdges t _++liveEdges t _).Perm _
    rw [hold, hnew, liveEdges, List.filterMap_filterMap]
    exact hsplit.symm
  · by_cases hin : incident absorbed e
    · obtain ⟨htouches, hend⟩ := incident_iff.mp hin
      have htouches' : (edgeShown e).source = absorbed ∨ (edgeShown e).target = absorbed :=
        htouches
      refine .inr ⟨by simp [hin], ?_⟩
      cases hloop : loops canonical absorbed e
      · have hends : ¬ redirect canonical absorbed (edgeShown e).source =
            redirect canonical absorbed (edgeShown e).target := of_decide_eq_false hloop
        simp only [hend, windowOpen, if_true, Option.bind_some, redirected, if_pos htouches',
          if_neg hends, hin, and_self]
        simp [related, edgeShown, hend]
      · have hends : redirect canonical absorbed (edgeShown e).source =
            redirect canonical absorbed (edgeShown e).target := of_decide_eq_true hloop
        simp [hend, windowOpen, redirected, htouches', hends]
    · refine .inl ⟨by simp [hin], ?_⟩
      cases hlive : windowOpen t e.validUntil
      · simp
      · have hshown : edgeShown e ∈ liveEdges t edges :=
          List.mem_filterMap.mpr ⟨e, he, if_pos hlive⟩
        have htouches : ¬ ((edgeShown e).source = absorbed ∨ (edgeShown e).target = absorbed) := by
          intro h
          have hend := hopen _ hshown (by simpa using h)
          exact hin (incident_iff.mpr ⟨h, hend⟩)
        simp only [if_true, Option.bind_some, redirected, if_neg htouches, hin]
        rfl

theorem open_ended_redirected {as : List UUID} {l : List Shown} (hc : canonical ∉ as)
    (h : OpenEnded as l) : OpenEnded as (l.filterMap (redirected canonical absorbed)) := by
  intro v hv hends
  obtain ⟨w, hw, hred⟩ := List.mem_filterMap.mp hv
  have hback : ∀ x, redirect canonical absorbed x ∈ as → x ∈ as := by
    intro x hx
    unfold redirect at hx
    split_ifs at hx
    · exact absurd hx hc
    · exact hx
  unfold redirected at hred
  split_ifs at hred
  · obtain rfl := Option.some.inj hred
    exact h w hw (hends.imp (hback _) (hback _))
  · obtain rfl := Option.some.inj hred
    exact h w hw hends

end View

section Operation

variable {uuid5 : UUID → UUID → UUID} {now t : Time} {opId canonical : UUID}
variable {cfg : DreamConfig} {judge : CandidatePair → Decision}

def survives (as : List UUID) (e : Entity) : Bool := ¬ (e.id ∈ as ∧ e.validUntil = none)

theorem live_retired (ht : now ≤ t) (as : List UUID) (entities : List Entity) :
    liveEntities t (entities.map (fun e => as.foldl (fun e a => retired now a e) e)) =
      (liveEntities t entities).filter (survives as) := by
  unfold liveEntities
  rw [List.filter_map, List.filter_filter]
  have hsame : entities.filter (fun e => survives as e && e.live t) =
      entities.filter (Entity.live t ∘ fun e => as.foldl (fun e a => retired now a e) e) := by
    refine List.filter_congr (fun e _ => ?_)
    simp only [Function.comp_apply, retired_entity]
    by_cases h : e.id ∈ as ∧ e.validUntil = none
    · simp [survives, h, Entity.live, windowOpen, ht]
    · simp [survives, h]
  rw [hsame]
  refine (List.map_congr_left (fun e he => ?_)).trans (List.map_id _)
  have hlive := (List.mem_filter.mp he).2
  simp only [Function.comp_apply, retired_entity] at hlive ⊢
  split_ifs at hlive ⊢ with h
  · simp [Entity.live, windowOpen, not_lt.mpr ht] at hlive
  · rfl

/-- The path that rewrites in place redirects along the merges let through. -/
theorem liveRows_applied {entries : List MergeEntry}
    (hc : ∀ m ∈ entries, m.canonicalId = canonical) (c : Content) :
    liveRows t (applyMerges cfg judge now opId entries c).1.relationships =
      redirectedAll canonical (applied cfg judge entries) (liveRows t c.relationships) := by
  induction entries generalizing c with
  | nil => rfl
  | cons m ms ih =>
    have hm := hc m List.mem_cons_self
    have hms := ih (fun m' h => hc m' (List.mem_cons_of_mem m h))
      (applyMerge cfg judge now opId m c).1
    rw [applied_cons]
    refine hms.trans ?_
    by_cases ha : authorised (maybeRunVerifier cfg judge m)
    · rw [if_pos ha, applyMerge_relationships c ha, liveRows_merged, hm]
      rfl
    · rw [if_neg ha, applyMerge_refused c ha]

theorem redirectedAll_perm {l l' : List Shown} (as : List UUID) (h : l.Perm l') :
    (redirectedAll canonical as l).Perm (redirectedAll canonical as l') := by
  induction as generalizing l l' with
  | nil => exact h
  | cons a as ih => exact ih (h.filterMap _)

/-- The path that relates new edges takes every operation, and redirects along
all of its merges. -/
theorem apply_entries_spec (huuid5 : Function.Injective2 uuid5) {entries : List MergeEntry}
    (hc : ∀ m ∈ entries, m.canonicalId = canonical)
    (hkept : canonical ∉ entries.map MergeEntry.absorbedId) {s : Store} (hs : Sound uuid5 s) :
    ∃ s', entries.foldlM (fun s entry =>
        applyEntry uuid5 now entry.canonicalId entry.absorbedId s) s = some s' ∧
      Sound uuid5 s' ∧
      s'.entities = s.entities.map (fun e =>
        (entries.map MergeEntry.absorbedId).foldl (fun e a => retired now a e) e) ∧
      (∀ a, canonical ≠ a →
        (a ∈ entries.map MergeEntry.absorbedId ∨ ∀ e ∈ s.relatesTo, ¬ incident a e) →
        ∀ e ∈ s'.relatesTo, ¬ incident a e) ∧
      ∀ t, now ≤ t → OpenEnded (entries.map MergeEntry.absorbedId) (liveEdges t s.relatesTo) →
        (liveEdges t s'.relatesTo).Perm (redirectedAll canonical
          (entries.map MergeEntry.absorbedId) (liveEdges t s.relatesTo)) := by
  induction entries generalizing s with
  | nil =>
    refine ⟨s, rfl, hs, (List.map_id _).symm, fun a _ h => ?_, fun _ _ _ => .refl _⟩
    rcases h with h | h
    · cases h
    · exact h
  | cons m ms ih =>
    have hm := hc m List.mem_cons_self
    obtain ⟨-, hkept'⟩ := not_or.mp (fun h => hkept (List.mem_cons.mpr h))
    have hfirst := @applyEntry_spec uuid5 now canonical m.absorbedId s huuid5 hs
    obtain ⟨s', hrun, hsound, hentities, hsettled, hedges⟩ :=
      ih (fun m' h => hc m' (List.mem_cons_of_mem m h)) hkept'
        (@merged_sound uuid5 now canonical m.absorbedId s huuid5 hs
          (s.entities.map (retired now m.absorbedId)))
    refine ⟨s', ?_, hsound, ?_, fun a hne h => hsettled a hne ?_, fun t ht hopen => ?_⟩
    · rw [List.foldlM_cons, hm, hfirst, Option.bind_eq_bind, Option.bind_some]
      exact hrun
    · rw [hentities, List.map_map]
      rfl
    · rcases h with h | h
      · rcases List.mem_cons.mp h with rfl | h'
        · exact .inr (merged_settled hne (.inl rfl))
        · exact .inl h'
      · exact .inr (merged_settled hne (.inr h))
    · have hone : OpenEnded [m.absorbedId] (liveEdges t s.relatesTo) :=
        fun v hv hends => hopen v hv (hends.imp
          (fun h => List.mem_cons.mpr (.inl (List.mem_singleton.mp h)))
          (fun h => List.mem_cons.mpr (.inl (List.mem_singleton.mp h))))
      have hrest : OpenEnded (ms.map MergeEntry.absorbedId) (liveEdges t s.relatesTo) :=
        fun v hv hends => hopen v hv (hends.imp (List.mem_cons_of_mem _) (List.mem_cons_of_mem _))
      have hmerged := @liveEdges_merged uuid5 now t canonical m.absorbedId ht s.relatesTo
        hone
      refine (hedges t ht (fun v hv hends => ?_)).trans (redirectedAll_perm _ hmerged)
      exact open_ended_redirected hkept' hrest v (hmerged.mem_iff.mp hv) hends

end Operation

section Replay

variable {uuid5 : UUID → UUID → UUID} {now again : Time} {opId canonical a b : UUID}
variable {cfg : DreamConfig} {judge : CandidatePair → Decision} {r : Relationship}

theorem not_selected_mergeRow (hne : canonical ≠ a) (h : a = b ∨ ¬ selected a r) :
    ¬ selected a (mergeRow now opId canonical b r) := by
  intro hafter
  obtain ⟨htouches, hvalid⟩ := selected_iff.mp hafter
  by_cases hselected : selected b r
  · by_cases hcollapses : collapses canonical b r
    · rw [mergeRow_collapsed hselected hcollapses] at hvalid
      cases hvalid
    · rw [mergeRow_repointed hselected hcollapses] at htouches
      have hold : r.touches a ∧ a ≠ b := by
        rcases htouches with hsource | htarget
        · exact ⟨.inl (redirect_other hne hsource).1, (redirect_other hne hsource).2⟩
        · exact ⟨.inr (redirect_other hne htarget).1, (redirect_other hne htarget).2⟩
      rcases h with heq | h
      · exact hold.2 heq
      · exact h (selected_iff.mpr ⟨hold.1, (selected_iff.mp hselected).2⟩)
  · rw [mergeRow_of_not_selected hselected] at hafter
    rcases h with rfl | h
    · exact hselected hafter
    · exact h hafter

theorem mergedRow_settled (as : List UUID) (hne : canonical ≠ a) (h : a ∈ as ∨ ¬ selected a r) :
    ¬ selected a (mergedRow now opId canonical as r) := by
  induction as generalizing r with
  | nil => exact h.resolve_left List.not_mem_nil
  | cons b as ih =>
    refine ih ?_
    rcases h with h | h
    · rcases List.mem_cons.mp h with rfl | h'
      · exact .inr (not_selected_mergeRow hne (.inl rfl))
      · exact .inl h'
    · exact .inr (not_selected_mergeRow hne (.inr h))

/-- A second run finds nothing to rewrite. -/
theorem apply_again {entries : List MergeEntry}
    (hc : ∀ m ∈ entries, m.canonicalId = canonical)
    (hkept : canonical ∉ applied cfg judge entries) (c : Content) :
    (applyMerges cfg judge again opId entries (applyMerges cfg judge now opId entries c).1).1 =
      (applyMerges cfg judge now opId entries c).1 := by
  refine content_eq ?_ ?_
  · rw [apply_entities, apply_entities, List.map_map]
    refine List.map_congr_left (fun e _ => ?_)
    simp only [Function.comp_apply, retired_entity]
    by_cases h : e.id ∈ applied cfg judge entries ∧ e.validUntil = none
    · simp [h]
    · simp [h]
  · rw [apply_relationships hc, apply_relationships hc, List.map_map]
    refine List.map_congr_left (fun r _ => mergedRow_of_not_recorded ?_)
    rintro ⟨hvalid, a, ha, htouches⟩
    have hne : canonical ≠ a := fun heq => hkept (heq ▸ ha)
    exact mergedRow_settled _ hne (.inl ha) (selected_iff.mpr ⟨htouches, hvalid⟩)

theorem apply_entries_again {s : Store} {entries : List MergeEntry}
    (hedges : ∀ a ∈ entries.map MergeEntry.absorbedId, ∀ e ∈ s.relatesTo, ¬ incident a e)
    (hentities : ∀ a ∈ entries.map MergeEntry.absorbedId, ∀ e ∈ s.entities, e.id = a →
      e.validUntil ≠ none) :
    entries.foldlM (fun s entry =>
      applyEntry uuid5 again entry.canonicalId entry.absorbedId s) s = some s := by
  induction entries with
  | nil => rfl
  | cons m ms ih =>
    have hnone : s.relatesTo.filter (incident m.absorbedId) = [] :=
      List.filter_eq_nil_iff.mpr (hedges _ List.mem_cons_self)
    have hkeep : s.entities.map (retired again m.absorbedId) = s.entities := by
      refine (List.map_congr_left (fun e he => ?_)).trans (List.map_id _)
      by_cases hid : e.id = m.absorbedId
      · have hended := hentities _ List.mem_cons_self e he hid
        simp [retired, retire, Update.on, Update.hits, hended]
      · exact Update.on_other hid
    have hone : applyEntry uuid5 again m.canonicalId m.absorbedId s = some s := by
      simp [applyEntry, hnone, executeBatch, execute, hkeep]
    rw [List.foldlM_cons, hone, Option.bind_eq_bind, Option.bind_some]
    exact ih (fun a ha => hedges a (List.mem_cons_of_mem _ ha))
      (fun a ha => hentities a (List.mem_cons_of_mem _ ha))

end Replay

section Redirection

variable {canonical a b : UUID}

theorem redirected_ends {v w : Shown} (h : redirected canonical b v = some w) :
    (w.source = w.target → w = v) ∧ (canonical ≠ a →
      (a = b ∨ (v.source ≠ a ∧ v.target ≠ a)) → w.source ≠ a ∧ w.target ≠ a) := by
  unfold redirected at h
  split_ifs at h with htouches hloop
  · obtain rfl := Option.some.inj h
    refine ⟨fun heq => absurd heq hloop, fun hne hor => ⟨fun heq => ?_, fun heq => ?_⟩⟩
    · obtain ⟨hv, hab⟩ := redirect_other hne heq
      exact (hor.resolve_left hab).1 hv
    · obtain ⟨hv, hab⟩ := redirect_other hne heq
      exact (hor.resolve_left hab).2 hv
  · obtain rfl := Option.some.inj h
    refine ⟨fun _ => rfl, fun _ hor => ?_⟩
    rcases hor with rfl | hor
    · exact not_or.mp htouches
    · exact hor

theorem redirectedAll_ends (as : List UUID) (l : List Shown) :
    ∀ v ∈ redirectedAll canonical as l, (v.source = v.target → v ∈ l) ∧
      ∀ a, canonical ≠ a → (a ∈ as ∨ ∀ w ∈ l, w.source ≠ a ∧ w.target ≠ a) →
        v.source ≠ a ∧ v.target ≠ a := by
  induction as generalizing l with
  | nil => exact fun v hv => ⟨fun _ => hv, fun a _ h => h.resolve_left List.not_mem_nil v hv⟩
  | cons b as ih =>
    intro v hv
    obtain ⟨hloop, hends⟩ := ih _ v hv
    refine ⟨fun heq => ?_, fun a hne h => hends a hne ?_⟩
    · obtain ⟨w, hw, hwv⟩ := List.mem_filterMap.mp (hloop heq)
      rw [(redirected_ends (a := b) hwv).1 heq]
      exact hw
    · rcases h with h | h
      · rcases List.mem_cons.mp h with rfl | h'
        · refine .inr (fun w hw => ?_)
          obtain ⟨u, -, huw⟩ := List.mem_filterMap.mp hw
          exact (redirected_ends huw).2 hne (.inl rfl)
        · exact .inl h'
      · refine .inr (fun w hw => ?_)
        obtain ⟨u, hu, huw⟩ := List.mem_filterMap.mp hw
        exact (redirected_ends huw).2 hne (.inr (h u hu))

theorem redirectedAll_length (as : List UUID) (l : List Shown) :
    (redirectedAll canonical as l).length ≤ l.length := by
  induction as generalizing l with
  | nil => exact le_rfl
  | cons a as ih => exact (ih _).trans (List.length_filterMap_le _ _)

/-- The redirection doubles no relationship, makes no loop and leaves none at an
absorbed member. -/
theorem redirectedAll_clean (as : List UUID) (hc : canonical ∉ as) (l : List Shown) :
    (redirectedAll canonical as l).length ≤ l.length ∧
      ∀ v ∈ redirectedAll canonical as l, (v.source = v.target → v ∈ l) ∧
        v.source ∉ as ∧ v.target ∉ as := by
  refine ⟨redirectedAll_length as l, fun v hv => ?_⟩
  obtain ⟨hloop, hends⟩ := redirectedAll_ends as l v hv
  have hne : ∀ a ∈ as, canonical ≠ a := fun a ha heq => hc (heq ▸ ha)
  exact ⟨hloop, fun h => (hends _ (hne _ h) (.inl h)).1 rfl,
    fun h => (hends _ (hne _ h) (.inl h)).2 rfl⟩

end Redirection

section Both

variable {uuid5 : UUID → UUID → UUID} {cfg : DreamConfig} {judge : CandidatePair → Decision}

theorem applied_all {entries : List MergeEntry}
    (h : ∀ m ∈ entries, authorised (maybeRunVerifier cfg judge m)) :
    applied cfg judge entries = entries.map MergeEntry.absorbedId := by
  rw [applied, List.filter_eq_self.mpr h]

/-- Applied to stores that show the same, both paths redirect the live
relationships along their merges, and show the same again when the verifier
lets every merge through. Nothing is changed by a second run. -/
theorem surreal_refines (huuid5 : Function.Injective2 uuid5) (op : DedupeOp) (c : Content)
    (s : Store) (hs : Sound uuid5 s) (now now' again again' : Time) :
    ∃ s', applyDedupeEntities uuid5 now' op s = some s' ∧ Sound uuid5 s' ∧
      (∀ t, now ≤ t → now' ≤ t → Same t c s →
        OpenEnded (op.merges.map MergeEntry.absorbedId) (liveRows t c.relationships) →
        let c' := (applyVectorcypherDedupeEntities cfg judge now op c).1
        let as := applied cfg judge op.merges
        let as' := op.merges.map MergeEntry.absorbedId
        liveRows t c'.relationships =
            redirectedAll op.canonicalId as (liveRows t c.relationships) ∧
          (liveEdges t s'.relatesTo).Perm
            (redirectedAll op.canonicalId as' (liveRows t c.relationships)) ∧
          liveEntities t c'.entities = (liveEntities t c.entities).filter (survives as) ∧
          (liveEntities t s'.entities).Perm ((liveEntities t c.entities).filter (survives as')) ∧
          (∀ l ∈ [as,as'], (redirectedAll op.canonicalId l (liveRows t c.relationships)).length ≤
              (liveRows t c.relationships).length ∧
            ∀ v ∈ redirectedAll op.canonicalId l (liveRows t c.relationships),
              (v.source = v.target → v ∈ liveRows t c.relationships) ∧
                v.source ∉ l ∧ v.target ∉ l) ∧
          ((∀ m ∈ op.merges, authorised (maybeRunVerifier cfg judge m)) → Same t c' s')) ∧
      (applyVectorcypherDedupeEntities cfg judge again op
          (applyVectorcypherDedupeEntities cfg judge now op c).1).1 =
        (applyVectorcypherDedupeEntities cfg judge now op c).1 ∧
      applyDedupeEntities uuid5 again' op s' = some s' := by
  have hkept := @canonical_not_absorbed cfg judge op
  have hne : ∀ a ∈ op.merges.map MergeEntry.absorbedId, op.canonicalId ≠ a :=
    fun a ha heq => op.canonical_kept (heq ▸ ha)
  obtain ⟨s', hrun, hsound, hentities, hsettled, hedges⟩ :=
    @apply_entries_spec uuid5 now' op.canonicalId huuid5 op.merges op.one_canonical
      op.canonical_kept s hs
  refine ⟨s', hrun, hsound, fun t ht ht' hsame hopen => ?_,
    apply_again op.one_canonical hkept c, ?_⟩
  · have hopen' : OpenEnded (op.merges.map MergeEntry.absorbedId) (liveEdges t s.relatesTo) :=
      fun v hv => hopen v (hsame.2.mem_iff.mpr hv)
    have hrows := @liveRows_applied now t op.opId op.canonicalId cfg judge op.merges
      op.one_canonical c
    have hedges' := (hedges t ht' hopen').trans (redirectedAll_perm _ hsame.2.symm)
    have hlive : liveEntities t (applyMerges cfg judge now op.opId op.merges c).1.entities =
        (liveEntities t c.entities).filter (survives (applied cfg judge op.merges)) := by
      rw [apply_entities, live_retired ht]
    have hlive' : (liveEntities t s'.entities).Perm
        ((liveEntities t c.entities).filter
          (survives (op.merges.map MergeEntry.absorbedId))) := by
      rw [hentities, live_retired ht']
      exact hsame.1.symm.filter _
    refine ⟨hrows, hedges', hlive, hlive', ?_, fun hall => ?_⟩
    · intro l hl
      rcases List.mem_cons.mp hl with rfl | hl'
      · exact redirectedAll_clean _ hkept _
      · rw [List.mem_singleton.mp hl']
        exact redirectedAll_clean _ op.canonical_kept _
    · rw [applied_all hall] at hrows hlive
      refine ⟨?_, ?_⟩
      · rw [show (applyVectorcypherDedupeEntities cfg judge now op c).1.entities =
          (applyMerges cfg judge now op.opId op.merges c).1.entities from rfl, hlive]
        exact hlive'.symm
      · rw [show (applyVectorcypherDedupeEntities cfg judge now op c).1.relationships =
          (applyMerges cfg judge now op.opId op.merges c).1.relationships from rfl, hrows]
        exact hedges'.symm
  · refine apply_entries_again (fun a ha => hsettled a (hne a ha) (.inl ha)) ?_
    intro a ha e he hid
    rw [hentities] at he
    obtain ⟨x, -, rfl⟩ := List.mem_map.mp he
    rw [retired_entity] at hid ⊢
    split_ifs at hid ⊢ with h
    · simp
    · exact fun hend => h ⟨hid ▸ ha, hend⟩

end Both

namespace Deferred

def derive (relId canonical : UUID) : UUID := Nat.pair relId canonical+1

theorem derive_injective : Function.Injective2 derive := by
  intro a b c d h
  exact Nat.pair_eq_pair.mp (Nat.succ.inj h)

theorem derived_above {a b : UUID} (h : Derived derive a b) : a < b := by
  induction h with
  | single h =>
    obtain ⟨c, rfl⟩ := h
    exact Nat.lt_succ_of_le (Nat.left_le_pair a c)
  | tail _ h ih =>
    obtain ⟨c, rfl⟩ := h
    exact ih.trans (Nat.lt_succ_of_le (Nat.left_le_pair _ c))

def rows : Content where
  entities := [person 1 7, person 2 3, person 3 2]
  relationships := [acquaintance 12 2 3]
  entity_keys := by decide
  relationship_keys := by decide

def unified : Store where
  entities := [person 1 7, person 2 3, person 3 2]
  relatesTo := [⟨12,2,3,"KNOWS",[],[],1,1,none,0,0,[]⟩]

def op : DedupeOp where
  opId := 77
  canonicalId := 1
  merges := [⟨1,2,some (9/10),"Ann","Ann","PERSON",[],[]⟩]
  one_canonical := by simp
  absorbed_once := by simp
  canonical_kept := by simp

theorem unified_sound : Sound derive unified := by
  refine ⟨by decide, fun x hx y hy h => ?_⟩
  rw [List.mem_singleton.mp hx, List.mem_singleton.mp hy] at h
  exact absurd (derived_above h) (lt_irrefl _)

theorem same_before : Same 5 rows unified := ⟨.refl _, .refl _⟩

/-- The verifier defers the merge on one store; the other makes it. -/
theorem not_same_after : ¬ ∀ s', applyDedupeEntities derive 4 op unified = some s' →
    Same 5 (applyVectorcypherDedupeEntities defaults (fun _ => .defer) 4 op rows).1 s' := by
  intro h
  obtain ⟨s', hrun, -, hentities, -⟩ := @apply_entries_spec derive 4 op.canonicalId
    derive_injective op.merges op.one_canonical op.canonical_kept unified unified_sound
  have hlength := (h s' hrun).1.length_eq
  rw [hentities, live_retired (by decide)] at hlength
  revert hlength
  decide +kernel

/-- The same stores and operation, with a verifier that lets the merge through. -/
theorem let_through : ∃ s', applyDedupeEntities derive 4 op unified = some s' ∧
    Same 5 (applyVectorcypherDedupeEntities defaults (fun _ => .merge) 4 op rows).1 s' := by
  obtain ⟨s', hrun, -, hsame, -⟩ := @surreal_refines derive defaults (fun _ => .merge)
    derive_injective op rows unified unified_sound 4 4 6 6
  obtain ⟨-, -, -, -, -, hall⟩ := hsame 5 (by decide) (by decide) same_before
    (by unfold OpenEnded; decide +kernel)
  exact ⟨s', hrun, hall (by decide +kernel)⟩

end Deferred

end Uru.Dream.DedupeSurreal
