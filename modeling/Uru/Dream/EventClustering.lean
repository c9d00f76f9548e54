import Mathlib.Algebra.BigOperators.Group.List.Basic
import Mathlib.Algebra.Order.Ring.Rat
import Mathlib.Data.Prod.Lex
import Mathlib.Tactic
import Uru.Extraction.EntityBlocking
import Uru.Lib.Machine
import Uru.Lib.Ranking
import Uru.Lib.SortOn
import Uru.Lib.UnionFind

/-!
# Clusters of events and merged events

Within a subject two events are near when their dot product reaches the
threshold and their dates lie within the window; the clusters are the
components of that relation. The canonical event of a cluster has the highest
confidence, then the latest observation, then the lowest id, and the others are
merged into it. Since a merge goes up in that order, and the order never
changes, merged events lead to one that is not.
-/

set_option autoImplicit false

namespace Uru.Dream.EventClustering
open Uru.Lib Relation

structure EventRow where
  eventId : ℕ
  subject : String
  referencedDate : ℤ
  observationDate : ℤ
  confidence : ℚ
  embedding : List ℚ
deriving DecidableEq, Inhabited

def dotProduct (a b : List ℚ) : ℚ := (List.zipWith (· * ·) a b).sum

/-- The batched product lists the indices at or above the threshold, with their
scores, in some order. -/
structure Kernel where
  batchDotProduct : List ℚ → List (List ℚ) → ℚ → List (ℕ × ℚ)
  scored : ∀ query candidates threshold j,
    (∃ score, (j,score) ∈ batchDotProduct query candidates threshold) ↔
      ∃ c, candidates[j]? = some c ∧ threshold ≤ dotProduct query c

/-- The batched product of the other searches is one. -/
def batched : Kernel where
  batchDotProduct := Uru.Extraction.EntityBlocking.batchDotProduct
  scored query candidates threshold j := by
    simp only [Uru.Extraction.EntityBlocking.batchDotProduct,
      Uru.Extraction.EntityBlocking.above, mem_sortOn, List.mem_filterMap]
    constructor
    · rintro ⟨score, ⟨s, i⟩, hmem, heq⟩
      split_ifs at heq with hle
      obtain ⟨rfl, rfl⟩ := Prod.ext_iff.mp (Option.some.inj heq)
      rw [List.mk_mem_zipIdx_iff_getElem?, List.getElem?_map, Option.map_eq_some_iff] at hmem
      obtain ⟨c, hc, rfl⟩ := hmem
      exact ⟨c, hc, hle⟩
    · rintro ⟨c, hc, hle⟩
      refine ⟨dotProduct query c, (dotProduct query c,j), ?_, if_pos hle⟩
      rw [List.mk_mem_zipIdx_iff_getElem?, List.getElem?_map, hc]
      rfl

section Cluster

variable (K : Kernel) (threshold : ℚ) (window : ℤ)

def anchored (bucket : List EventRow) (i : ℕ) : List (ℕ × ℕ) :=
  match bucket[i]? with
  | none => []
  | some rowI =>
    (K.batchDotProduct rowI.embedding (bucket.map EventRow.embedding) threshold).filterMap
      (fun scored =>
        match bucket[scored.1]? with
        | none => none
        | some rowJ =>
          if scored.1 ≤ i then none
          else if |rowI.referencedDate-rowJ.referencedDate| ≤ window then some (i,scored.1)
          else none)

def joined (bucket : List EventRow) : List (ℕ × ℕ) :=
  (List.range bucket.length).flatMap (anchored K threshold window bucket)

def bucketClusters (bucket : List EventRow) : List (List EventRow) :=
  if bucket.length < 2 then []
  else
    let parent := (Forest.singletons ℕ).hangs (joined K threshold window bucket)
    let groups := (firsts ((List.range bucket.length).map parent.root)).map (fun r =>
      ((List.range bucket.length).filter (fun i => parent.root i = r)).filterMap
        (fun i => bucket[i]?))
    groups.filter (fun members => 2 ≤ members.length)

def clusterEvents (rows : List EventRow) : List (List EventRow) :=
  (firsts (rows.map EventRow.subject)).flatMap
    (fun s => bucketClusters K threshold window (rows.filter (fun row => row.subject = s)))

end Cluster

abbrev Rank := ℚ ×ₗ ℤ ×ₗ ℤ

def rank (confidence : ℚ) (observationDate : ℤ) (eventId : ℕ) : Rank :=
  toLex (confidence,toLex (observationDate,-(eventId : ℤ)))

def EventRow.rank (r : EventRow) : Rank :=
  EventClustering.rank r.confidence r.observationDate r.eventId

/-- `max` keeps the first of the highest. -/
def canonical (head : EventRow) (rest : List EventRow) : EventRow :=
  rest.foldl (fun a b => if a.rank < b.rank then b else a) head

structure DreamOp where
  canonicalId : ℕ
  mergedEventIds : List ℕ
deriving DecidableEq

def buildOp : List EventRow → Option DreamOp
  | [] => none
  | head::rest => some ⟨(canonical head rest).eventId,
      sortOn id ((head::rest).map EventRow.eventId)⟩

structure ChronicleEvent where
  id : ℕ
  namespaceId : ℕ
  subject : String
  referencedDate : Option ℤ
  observationDate : ℤ
  confidence : ℚ
  embedding : Option (List ℚ)
  invalidatedAt : Option ℤ
  mergedIntoEventId : Option ℕ
deriving DecidableEq

def ChronicleEvent.rank (r : ChronicleEvent) : Rank :=
  EventClustering.rank r.confidence r.observationDate r.id

/-- An empty embedding is taken for none. -/
def coerceEmbedding (embedding : Option (List ℚ)) : Option (List ℚ) :=
  embedding.filter (fun coerced => !coerced.isEmpty)

def fetchEvents (rows : List ChronicleEvent) (namespaceId : ℕ) : List EventRow :=
  rows.filterMap (fun r =>
    match coerceEmbedding r.embedding, r.referencedDate with
    | some embedding, some referencedDate =>
      if r.namespaceId = namespaceId ∧ r.invalidatedAt = none then
        some ⟨r.id,r.subject,referencedDate,r.observationDate,r.confidence,embedding⟩
      else none
    | _, _ => none)

def plan (K : Kernel) (threshold : ℚ) (window : ℤ) (rows : List EventRow) : List DreamOp :=
  (clusterEvents K threshold window rows).filterMap buildOp

def softMergeTail (now : ℤ) (canonicalId tailId : ℕ) (r : ChronicleEvent) : ChronicleEvent :=
  if r.id = tailId ∧ r.invalidatedAt = none then
    { r with invalidatedAt := some now, mergedIntoEventId := some canonicalId }
  else r

def applyOp (now : ℤ) (op : DreamOp) (rows : List ChronicleEvent) : List ChronicleEvent :=
  (op.mergedEventIds.filter (fun eid => eid ≠ op.canonicalId)).foldl
    (fun rows tail => rows.map (softMergeTail now op.canonicalId tail)) rows

structure Store where
  rows : List ChronicleEvent
  ops : List DreamOp

inductive Step
  | insert (event : ChronicleEvent)
  | plan (namespaceId : ℕ) (threshold : ℚ) (window : ℤ) (listed : List EventRow)
  | apply (op : DreamOp) (now : ℤ)

def step (K : Kernel) (s : Store) : Step → Option Store
  | .insert event =>
    if event.id ∈ s.rows.map ChronicleEvent.id ∨ event.invalidatedAt ≠ none then none
    else some { s with rows := s.rows++[event] }
  | .plan namespaceId threshold window listed =>
    if listed.Perm (fetchEvents s.rows namespaceId) then
      some { s with ops := s.ops++plan K threshold window listed }
    else none
  | .apply op now =>
    if op ∈ s.ops then some { s with rows := applyOp now op s.rows } else none

section Components

variable {K : Kernel} {threshold : ℚ} {window : ℤ} {rows bucket : List EventRow}

def Near (threshold : ℚ) (window : ℤ) (rows : List EventRow) (a b : EventRow) : Prop :=
  a ∈ rows ∧ b ∈ rows ∧ a.subject = b.subject ∧ threshold ≤ dotProduct a.embedding b.embedding ∧
    |a.referencedDate-b.referencedDate| ≤ window

theorem dotProduct_comm (a b : List ℚ) : dotProduct a b = dotProduct b a := by
  unfold dotProduct
  rw [List.zipWith_comm_of_comm (fun x y => mul_comm x y)]

theorem Near.symm {a b : EventRow} (h : Near threshold window rows a b) :
    Near threshold window rows b a := by
  obtain ⟨ha, hb, hs, hd, hw⟩ := h
  exact ⟨hb, ha, hs.symm, dotProduct_comm a.embedding b.embedding ▸ hd, by rwa [abs_sub_comm]⟩

theorem mem_anchored {i : ℕ} {p : ℕ × ℕ} : p ∈ anchored K threshold window bucket i ↔
    ∃ a b, bucket[i]? = some a ∧ bucket[p.2]? = some b ∧ p.1 = i ∧ i < p.2 ∧
      threshold ≤ dotProduct a.embedding b.embedding ∧
        |a.referencedDate-b.referencedDate| ≤ window := by
  unfold anchored
  cases ha : bucket[i]? with
  | none => simp
  | some a =>
    simp only [List.mem_filterMap, Option.some.injEq]
    constructor
    · rintro ⟨⟨j, score⟩, hmem, hp⟩
      cases hb : bucket[j]? with
      | none => simp [hb] at hp
      | some b =>
        simp only [hb] at hp
        split_ifs at hp with hle hw
        obtain rfl := Option.some.inj hp
        obtain ⟨c, hc, hthreshold⟩ := (K.scored _ _ _ j).mp ⟨score, hmem⟩
        rw [List.getElem?_map, hb, Option.map_some] at hc
        rw [← Option.some.inj hc] at hthreshold
        exact ⟨a, b, rfl, hb, rfl, not_le.mp hle, hthreshold, hw⟩
    · rintro ⟨a', b, rfl, hb, h1, hlt, hthreshold, hw⟩
      obtain ⟨score, hmem⟩ := (K.scored a.embedding (bucket.map EventRow.embedding) threshold
        p.2).mpr ⟨b.embedding, by rw [List.getElem?_map, hb, Option.map_some], hthreshold⟩
      refine ⟨(p.2,score), hmem, ?_⟩
      simp only [hb, if_neg (not_le.mpr hlt), if_pos hw]
      rw [← h1]

theorem mem_joined {p : ℕ × ℕ} : p ∈ joined K threshold window bucket ↔
    ∃ a b, bucket[p.1]? = some a ∧ bucket[p.2]? = some b ∧ p.1 < p.2 ∧
      threshold ≤ dotProduct a.embedding b.embedding ∧
        |a.referencedDate-b.referencedDate| ≤ window := by
  simp only [joined, List.mem_flatMap, List.mem_range, mem_anchored]
  constructor
  · rintro ⟨i, -, a, b, ha, hb, rfl, hrest⟩
    exact ⟨a, b, ha, hb, hrest⟩
  · rintro ⟨a, b, ha, hb, hrest⟩
    exact ⟨p.1, (List.getElem?_eq_some_iff.mp ha).1, a, b, ha, hb, rfl, hrest⟩

/-- Events linked by near events share their subject and the rows. -/
theorem linked_same {a b : EventRow} (h : EqvGen (Near threshold window rows) a b) :
    a.subject = b.subject ∧ (a ∈ rows ↔ b ∈ rows) := by
  induction h with
  | rel a b h => exact ⟨h.2.2.1, iff_of_true h.1 h.2.1⟩
  | refl a => exact ⟨rfl, Iff.rfl⟩
  | symm a b _ ih => exact ⟨ih.1.symm, ih.2.symm⟩
  | trans a b c _ _ hab hbc => exact ⟨hab.1.trans hbc.1, hab.2.trans hbc.2⟩

theorem two_le_length {α : Type} {l : List α} {x y : α} (hx : x ∈ l) (hy : y ∈ l) (hne : x ≠ y) :
    2 ≤ l.length := by
  match l with
  | [] => cases hx
  | [a] => exact absurd ((List.mem_singleton.mp hx).trans (List.mem_singleton.mp hy).symm) hne
  | _::_::_ => simp

section Bucket

variable {s : String} (hbucket : bucket = rows.filter (fun row => row.subject = s))
variable (hrows : rows.Nodup)
include hbucket

theorem mem_bucket {e : EventRow} : (∃ i : ℕ, bucket[i]? = some e) ↔ e ∈ rows ∧ e.subject = s := by
  rw [← List.mem_iff_getElem?, hbucket, List.mem_filter, decide_eq_true_eq]

theorem linked_of_joined {i j : ℕ}
    (h : EqvGen (fun i j => (i,j) ∈ joined K threshold window bucket) i j) :
    i = j ∨ ∃ a b, bucket[i]? = some a ∧ bucket[j]? = some b ∧
      EqvGen (Near threshold window rows) a b := by
  induction h with
  | rel i j h =>
    obtain ⟨a, b, ha, hb, -, hd, hw⟩ := mem_joined.mp h
    obtain ⟨har, has⟩ := (mem_bucket hbucket).mp ⟨i, ha⟩
    obtain ⟨hbr, hbs⟩ := (mem_bucket hbucket).mp ⟨j, hb⟩
    exact .inr ⟨a, b, ha, hb, .rel _ _ ⟨har, hbr, has.trans hbs.symm, hd, hw⟩⟩
  | refl i => exact .inl rfl
  | symm i j _ ih =>
    rcases ih with rfl | ⟨a, b, ha, hb, hab⟩
    · exact .inl rfl
    · exact .inr ⟨b, a, hb, ha, hab.symm⟩
  | trans i j k _ _ hij hjk =>
    rcases hij with rfl | ⟨a, b, ha, hb, hab⟩
    · exact hjk
    · rcases hjk with rfl | ⟨b', c, hb', hc, hbc⟩
      · exact .inr ⟨a, b, ha, hb, hab⟩
      · rw [hb] at hb'
        obtain rfl := Option.some.inj hb'
        exact .inr ⟨a, c, ha, hc, hab.trans _ _ _ hbc⟩

include hrows

theorem bucket_index {i j : ℕ} {e : EventRow} (hi : bucket[i]? = some e)
    (hj : bucket[j]? = some e) : i = j := by
  have hnodup : bucket.Nodup := hbucket ▸ hrows.filter _
  exact (List.getElem?_inj (List.getElem?_eq_some_iff.mp hi).1 hnodup).mp (hi.trans hj.symm)

theorem joined_of_linked {a b : EventRow} (h : EqvGen (Near threshold window rows) a b) {i j : ℕ}
    (hi : bucket[i]? = some a) (hj : bucket[j]? = some b) :
    EqvGen (fun i j => (i,j) ∈ joined K threshold window bucket) i j := by
  induction h generalizing i j with
  | rel a b h =>
    rcases lt_trichotomy i j with hlt | rfl | hgt
    · exact .rel _ _ (mem_joined.mpr ⟨a, b, hi, hj, hlt, h.2.2.2⟩)
    · exact .refl _
    · exact .symm _ _ (.rel _ _ (mem_joined.mpr ⟨b, a, hj, hi, hgt, h.symm.2.2.2⟩))
  | refl a =>
    rw [bucket_index hbucket hrows hi hj]
    exact .refl _
  | symm a b _ ih => exact (ih hj hi).symm
  | trans a b c hab _ ihab ihbc =>
    obtain ⟨hsubject, hmem⟩ := linked_same hab
    obtain ⟨har, has⟩ := (mem_bucket hbucket).mp ⟨i, hi⟩
    obtain ⟨k, hk⟩ := (mem_bucket hbucket).mpr ⟨hmem.mp har, hsubject.symm.trans has⟩
    exact (ihab hi hk).trans _ _ _ (ihbc hk hj)

/-- The clusters of a bucket are the classes of two events or more. -/
theorem mem_bucketClusters {C : List EventRow} :
    C ∈ bucketClusters K threshold window bucket → C.Nodup ∧ 2 ≤ C.length ∧
      ∃ x ∈ rows, x.subject = s ∧ ∀ e, e ∈ C ↔ e ∈ rows ∧ EqvGen (Near threshold window rows) x e := by
  unfold bucketClusters
  split_ifs with hshort
  · intro h
    cases h
  · intro h
    obtain ⟨hgroup, hlen⟩ := List.mem_filter.mp h
    obtain ⟨r, hr, rfl⟩ := List.mem_map.mp hgroup
    obtain ⟨i, hi, rfl⟩ := List.mem_map.mp (mem_firsts.mp hr)
    obtain ⟨x, hx⟩ : ∃ x, bucket[i]? = some x :=
      ⟨_, List.getElem?_eq_getElem (List.mem_range.mp hi)⟩
    obtain ⟨hxr, hxs⟩ := (mem_bucket hbucket).mp ⟨i, hx⟩
    refine ⟨?_, of_decide_eq_true hlen, x, hxr, hxs, fun e => ?_⟩
    · refine List.pairwise_filterMap.mpr ((List.nodup_range.filter _).imp ?_)
      intro j k hjk a ha b hb hab
      subst hab
      exact hjk (bucket_index hbucket hrows ha hb)
    · simp only [List.mem_filterMap, List.mem_filter, List.mem_range, decide_eq_true_eq,
        Forest.hangs_same]
      constructor
      · rintro ⟨j, ⟨-, hji⟩, hj⟩
        obtain ⟨hr', hs'⟩ := (mem_bucket hbucket).mp ⟨j, hj⟩
        refine ⟨hr', ?_⟩
        rcases linked_of_joined hbucket hji with rfl | ⟨a, b, ha, hb, hab⟩
        · rw [hj] at hx
          rw [Option.some.inj hx]
          exact .refl _
        · rw [hj] at ha
          rw [hx] at hb
          rw [Option.some.inj ha, Option.some.inj hb]
          exact hab.symm
      · rintro ⟨he, hlinked⟩
        obtain ⟨j, hj⟩ := (mem_bucket hbucket).mpr ⟨he, (linked_same hlinked).1.symm.trans hxs⟩
        exact ⟨j, ⟨(List.getElem?_eq_some_iff.mp hj).1,
          joined_of_linked hbucket hrows hlinked.symm hj hx⟩, hj⟩

theorem bucketClusters_exist {x y : EventRow} (hx : x ∈ rows) (hxs : x.subject = s)
    (hne : y ≠ x) (hlinked : EqvGen (Near threshold window rows) x y) :
    ∃ C ∈ bucketClusters K threshold window bucket, x ∈ C := by
  obtain ⟨i, hi⟩ := (mem_bucket hbucket).mpr ⟨hx, hxs⟩
  obtain ⟨hsubject, hmem⟩ := linked_same hlinked
  obtain ⟨j, hj⟩ := (mem_bucket hbucket).mpr ⟨hmem.mp hx, hsubject.symm.trans hxs⟩
  have hil := (List.getElem?_eq_some_iff.mp hi).1
  have hjl := (List.getElem?_eq_some_iff.mp hj).1
  have hij : i ≠ j := by
    rintro rfl
    rw [hi] at hj
    exact hne (Option.some.inj hj).symm
  have hjoined := joined_of_linked (K := K) hbucket hrows hlinked hi hj
  unfold bucketClusters
  rw [if_neg (by omega)]
  refine ⟨_, List.mem_filter.mpr ⟨List.mem_map.mpr ⟨_, mem_firsts.mpr (List.mem_map.mpr
    ⟨i, List.mem_range.mpr hil, rfl⟩), rfl⟩, ?_⟩, ?_⟩
  · have hxm : x ∈ ((List.range bucket.length).filter (fun l =>
        ((Forest.singletons ℕ).hangs (joined K threshold window bucket)).root l =
          ((Forest.singletons ℕ).hangs (joined K threshold window bucket)).root i)).filterMap
            (fun l => bucket[l]?) :=
      List.mem_filterMap.mpr ⟨i, by simp [hil], hi⟩
    have hym : y ∈ ((List.range bucket.length).filter (fun l =>
        ((Forest.singletons ℕ).hangs (joined K threshold window bucket)).root l =
          ((Forest.singletons ℕ).hangs (joined K threshold window bucket)).root i)).filterMap
            (fun l => bucket[l]?) := by
      refine List.mem_filterMap.mpr ⟨j, ?_, hj⟩
      simp only [List.mem_filter, List.mem_range, decide_eq_true_eq, Forest.hangs_same]
      exact ⟨hjl, hjoined.symm⟩
    exact decide_eq_true (two_le_length hym hxm hne)
  · exact List.mem_filterMap.mpr ⟨i, by simp [hil], hi⟩

end Bucket

theorem cluster_spec (hrows : rows.Nodup) {C : List EventRow}
    (h : C ∈ clusterEvents K threshold window rows) : C.Nodup ∧ 2 ≤ C.length ∧
      ∃ x ∈ rows, ∀ e, e ∈ C ↔ e ∈ rows ∧ EqvGen (Near threshold window rows) x e := by
  obtain ⟨s, -, hC⟩ := List.mem_flatMap.mp h
  obtain ⟨hnodup, hlen, x, hx, -, hmem⟩ := mem_bucketClusters rfl hrows hC
  exact ⟨hnodup, hlen, x, hx, hmem⟩

theorem bucketClusters_disjoint (hbucket : bucket.Nodup) :
    (bucketClusters K threshold window bucket).Pairwise List.Disjoint := by
  unfold bucketClusters
  split_ifs
  · exact .nil
  · refine List.Pairwise.sublist List.filter_sublist (List.pairwise_map.mpr ?_)
    refine (firsts_nodup _).imp (fun {r r'} hne e he he' => hne ?_)
    obtain ⟨i, hi, hei⟩ := List.mem_filterMap.mp he
    obtain ⟨j, hj, hej⟩ := List.mem_filterMap.mp he'
    have hi := of_decide_eq_true (List.mem_filter.mp hi).2
    have hj := of_decide_eq_true (List.mem_filter.mp hj).2
    have hij : i = j := (List.getElem?_inj (List.getElem?_eq_some_iff.mp hei).1 hbucket).mp
      (hei.trans hej.symm)
    rw [← hi, ← hj, hij]

theorem clusterEvents_disjoint (hrows : rows.Nodup) :
    (clusterEvents K threshold window rows).Pairwise List.Disjoint := by
  rw [clusterEvents, List.pairwise_flatMap]
  refine ⟨fun s _ => bucketClusters_disjoint (hrows.filter _), ?_⟩
  refine (firsts_nodup _).imp (fun {s s'} hne C hC D hD e he he' => hne ?_)
  have hsame : ∀ {t : String} {E : List EventRow},
      E ∈ bucketClusters K threshold window (rows.filter (fun row => row.subject = t)) →
        e ∈ E → e.subject = t := by
    intro t E hE heE
    obtain ⟨-, -, x, -, rfl, hmem⟩ := mem_bucketClusters rfl hrows hE
    exact (linked_same ((hmem e).mp heE).2).1.symm
  exact (hsame hC he).symm.trans (hsame hD he')

/-- The clusters are the components of two events or more. -/
theorem mem_clusterEvents (hrows : rows.Nodup) (S : Set EventRow) :
    (∃ C ∈ clusterEvents K threshold window rows, ∀ e, e ∈ C ↔ e ∈ S) ↔
      ∃ x ∈ rows, (∀ e, e ∈ S ↔ EqvGen (Near threshold window rows) x e) ∧ ∃ y ∈ S, y ≠ x := by
  constructor
  · rintro ⟨C, hC, hS⟩
    obtain ⟨hnodup, hlen, x, hx, hmem⟩ := cluster_spec hrows hC
    refine ⟨x, hx, fun e => ?_, ?_⟩
    · rw [← hS, hmem]
      exact and_iff_right_of_imp (fun h => (linked_same h).2.mp hx)
    · obtain ⟨y, hy, hne⟩ : ∃ y ∈ C, y ≠ x := by
        by_contra hall
        push Not at hall
        have hsub : C ⊆ [x] := fun e he => List.mem_singleton.mpr (hall e he)
        have hle := (hnodup.subperm hsub).length_le
        rw [List.length_singleton] at hle
        omega
      exact ⟨y, (hS y).mp hy, hne⟩
  · rintro ⟨x, hx, hS, y, hy, hne⟩
    obtain ⟨C, hC, hxC⟩ := @bucketClusters_exist K threshold window rows _ _ rfl hrows x y hx rfl
      hne ((hS y).mp hy)
    obtain ⟨-, -, z, -, -, hmem⟩ := mem_bucketClusters rfl hrows hC
    have hzx := ((hmem x).mp hxC).2
    refine ⟨C, List.mem_flatMap.mpr ⟨x.subject, mem_firsts.mpr (List.mem_map_of_mem hx), hC⟩,
      fun e => ?_⟩
    rw [hmem, hS]
    constructor
    · rintro ⟨-, hze⟩
      exact hzx.symm.trans _ _ _ hze
    · intro hxe
      exact ⟨(linked_same hxe).2.mp hx, hzx.trans _ _ _ hxe⟩

end Components

section Canonical

theorem rank_id {c c' : ℚ} {o o' : ℤ} {i i' : ℕ} (h : rank c o i = rank c' o' i') : i = i' := by
  have hsecond := congrArg (fun r : Rank => (ofLex (ofLex r).2).2) h
  simpa [rank] using hsecond

theorem canonical_spec (head : EventRow) (rest : List EventRow) :
    canonical head rest ∈ head::rest ∧ ∀ e ∈ head::rest, e.rank ≤ (canonical head rest).rank := by
  induction rest generalizing head with
  | nil => simp [canonical]
  | cons x rest ih =>
    have hstep : canonical head (x::rest) =
        canonical (if head.rank < x.rank then x else head) rest := rfl
    obtain ⟨hmem, hmax⟩ := ih (if head.rank < x.rank then x else head)
    rw [hstep]
    have hfirst := hmax _ List.mem_cons_self
    split_ifs at hmem hmax hfirst ⊢ with hlt
    · refine ⟨List.mem_cons_of_mem _ hmem, fun e he => ?_⟩
      rcases List.mem_cons.mp he with rfl | he'
      · exact hlt.le.trans hfirst
      · exact hmax e he'
    · refine ⟨?_, fun e he => ?_⟩
      · rcases List.mem_cons.mp hmem with heq | hrest
        · rw [heq]
          exact List.mem_cons_self
        · exact List.mem_cons_of_mem _ (List.mem_cons_of_mem _ hrest)
      · rcases List.mem_cons.mp he with rfl | he'
        · exact hfirst
        · rcases List.mem_cons.mp he' with rfl | hrest
          · exact (not_lt.mp hlt).trans hfirst
          · exact hmax e (List.mem_cons_of_mem _ hrest)

variable {K : Kernel} {threshold : ℚ} {window : ℤ} {rows : List EventRow}

/-- The operation of the component of `x`. -/
structure MergeOf (threshold : ℚ) (window : ℤ) (rows : List EventRow) (x : EventRow)
    (op : DreamOp) : Prop where
  sorted : op.mergedEventIds.Pairwise (· < ·)
  members : ∀ i, i ∈ op.mergedEventIds ↔
    ∃ e, EqvGen (Near threshold window rows) x e ∧ e.eventId = i
  canonical : ∃ c, EqvGen (Near threshold window rows) x c ∧ c.eventId = op.canonicalId ∧
    ∀ e, EqvGen (Near threshold window rows) x e → e.rank ≤ c.rank

theorem MergeOf.unique {x : EventRow} {op op' : DreamOp} (h : MergeOf threshold window rows x op)
    (h' : MergeOf threshold window rows x op') : op = op' := by
  have hnodup : ∀ {l : List ℕ}, l.Pairwise (· < ·) → l.Nodup := fun hl => hl.imp (fun h => h.ne)
  have hperm : op.mergedEventIds.Perm op'.mergedEventIds :=
    (List.perm_ext_iff_of_nodup (hnodup h.sorted) (hnodup h'.sorted)).mpr
      (fun i => (h.members i).trans (h'.members i).symm)
  have hmerged := hperm.eq_of_pairwise (fun _ _ _ _ hab hba => absurd (hab.trans hba) (lt_irrefl _))
    h.sorted h'.sorted
  obtain ⟨c, hc, hid, hmax⟩ := h.canonical
  obtain ⟨c', hc', hid', hmax'⟩ := h'.canonical
  have hcanonical := rank_id (le_antisymm (hmax' c hc) (hmax c' hc'))
  cases op
  cases op'
  simp only [DreamOp.mk.injEq]
  exact ⟨hid.symm.trans (hcanonical.trans hid'), hmerged⟩

theorem buildOp_merge (hids : (rows.map EventRow.eventId).Nodup) {C : List EventRow}
    (hC : C.Nodup) {x : EventRow} (hx : x ∈ rows)
    (hmem : ∀ e, e ∈ C ↔ e ∈ rows ∧ EqvGen (Near threshold window rows) x e) :
    ∃ op, buildOp C = some op ∧ MergeOf threshold window rows x op := by
  have hlinked : ∀ e, e ∈ C ↔ EqvGen (Near threshold window rows) x e :=
    fun e => (hmem e).trans (and_iff_right_of_imp (fun h => (linked_same h).2.mp hx))
  match C with
  | [] => exact absurd ((hlinked x).mpr (.refl x)) List.not_mem_nil
  | head::rest =>
    obtain ⟨hcanonical, hmax⟩ := canonical_spec head rest
    have hsorted := sortOn_perm (id : ℕ → ℕ) ((head::rest).map EventRow.eventId)
    refine ⟨_, rfl, ?_, fun i => ?_, _, (hlinked _).mp hcanonical, rfl,
      fun e he => hmax e ((hlinked e).mpr he)⟩
    · have hnodup : ((head::rest).map EventRow.eventId).Nodup :=
        hC.map_on (fun a ha b hb => List.inj_on_of_nodup_map hids ((hmem a).mp ha).1
          ((hmem b).mp hb).1)
      exact ((sortOn_pairwise id _).and (hsorted.nodup_iff.mpr hnodup)).imp
        (fun h => lt_of_le_of_ne h.1 h.2)
    · rw [hsorted.mem_iff, List.mem_map]
      exact exists_congr (fun e => and_congr_left (fun _ => hlinked e))

/-- The operations are those of the components of two events or more. -/
theorem mem_plan (hids : (rows.map EventRow.eventId).Nodup) (op : DreamOp) :
    op ∈ plan K threshold window rows ↔ ∃ x ∈ rows,
      (∃ y, y ≠ x ∧ EqvGen (Near threshold window rows) x y) ∧
        MergeOf threshold window rows x op := by
  have hrows : rows.Nodup := hids.of_map
  constructor
  · intro h
    obtain ⟨C, hC, hop⟩ := List.mem_filterMap.mp h
    obtain ⟨x, hx, hlinked, y, hy, hne⟩ :=
      (mem_clusterEvents hrows {e | e ∈ C}).mp ⟨C, hC, fun _ => Iff.rfl⟩
    have hmem : ∀ e, e ∈ C ↔ e ∈ rows ∧ EqvGen (Near threshold window rows) x e :=
      fun e => (hlinked e).trans (and_iff_right_of_imp (fun h => (linked_same h).2.mp hx)).symm
    obtain ⟨op', hop', hmerge⟩ := buildOp_merge hids (cluster_spec hrows hC).1 hx hmem
    rw [hop] at hop'
    obtain rfl := Option.some.inj hop'
    exact ⟨x, hx, ⟨y, hne, (hlinked y).mp hy⟩, hmerge⟩
  · rintro ⟨x, hx, ⟨y, hne, hy⟩, hmerge⟩
    obtain ⟨C, hC, hlinked⟩ := (mem_clusterEvents (K := K) hrows
      {e | EqvGen (Near threshold window rows) x e}).mpr ⟨x, hx, fun _ => Iff.rfl, y, hy, hne⟩
    have hmem : ∀ e, e ∈ C ↔ e ∈ rows ∧ EqvGen (Near threshold window rows) x e :=
      fun e => (hlinked e).trans (and_iff_right_of_imp (fun h => (linked_same h).2.mp hx)).symm
    obtain ⟨op', hop', hmerge'⟩ := buildOp_merge hids (cluster_spec hrows hC).1 hx hmem
    exact List.mem_filterMap.mpr ⟨C, hC, hmerge.unique hmerge' ▸ hop'⟩

theorem plan_nodup (hids : (rows.map EventRow.eventId).Nodup) :
    (plan K threshold window rows).Nodup := by
  have hrows : rows.Nodup := hids.of_map
  refine List.pairwise_filterMap.mpr ((clusterEvents_disjoint hrows).imp_of_mem ?_)
  intro C D hC hD hdisjoint op hop op' hop' heq
  subst heq
  obtain ⟨hCn, -, x, hx, hmem⟩ := cluster_spec hrows hC
  obtain ⟨hDn, -, y, hy, hmem'⟩ := cluster_spec hrows hD
  obtain ⟨opC, hopC, hmergeC⟩ := buildOp_merge hids hCn hx hmem
  obtain ⟨opD, hopD, hmergeD⟩ := buildOp_merge hids hDn hy hmem'
  rw [hop] at hopC
  rw [hop'] at hopD
  obtain rfl := Option.some.inj hopC
  obtain rfl := Option.some.inj hopD
  obtain ⟨e, he, hid⟩ := (hmergeD.members x.eventId).mp ((hmergeC.members _).mpr ⟨x, .refl x, rfl⟩)
  have her := (linked_same he).2.mp hy
  obtain rfl := List.inj_on_of_nodup_map hids her hx hid
  exact hdisjoint ((hmem e).mpr ⟨hx, .refl e⟩) ((hmem' e).mpr ⟨her, he⟩)

/-- The plan is one for all orders of the rows, up to its own order. -/
theorem plan_perm (hids : (rows.map EventRow.eventId).Nodup) {rows' : List EventRow}
    (hperm : rows.Perm rows') :
    (plan K threshold window rows).Perm (plan K threshold window rows') := by
  have hids' := (hperm.map EventRow.eventId).nodup_iff.mp hids
  have hnear : Near threshold window rows = Near threshold window rows' := by
    funext a b
    simp only [Near, hperm.mem_iff]
  refine (List.perm_ext_iff_of_nodup (plan_nodup hids) (plan_nodup hids')).mpr (fun op => ?_)
  rw [mem_plan hids, mem_plan hids']
  refine exists_congr (fun x => and_congr hperm.mem_iff (and_congr (by rw [hnear]) ?_))
  exact ⟨fun h => ⟨h.sorted, hnear ▸ h.members, hnear ▸ h.canonical⟩,
    fun h => ⟨h.sorted, hnear ▸ h.members, hnear ▸ h.canonical⟩⟩

end Canonical

def MergesInto (rows : List ChronicleEvent) (a b : ChronicleEvent) : Prop :=
  a ∈ rows ∧ b ∈ rows ∧ a.invalidatedAt ≠ none ∧ a.mergedIntoEventId = some b.id

structure MergeForest (rows : List ChronicleEvent) : Prop where
  unique : ∀ a b c, MergesInto rows a b → MergesInto rows a c → b = c
  acyclic : ∀ a, ¬ TransGen (MergesInto rows) a a
  ends : ∀ a ∈ rows, ∃ b ∈ rows, b.invalidatedAt = none ∧ ReflTransGen (MergesInto rows) a b

/-- An operation merges events into one of a higher rank. -/
def Upward (rows : List ChronicleEvent) (op : DreamOp) : Prop :=
  ∃ c ∈ rows, c.id = op.canonicalId ∧ ∀ t ∈ op.mergedEventIds, ∃ r ∈ rows, r.id = t ∧
    (t ≠ op.canonicalId → r.rank < c.rank)

structure Sound (s : Store) : Prop where
  ids : (s.rows.map ChronicleEvent.id).Nodup
  merged : ∀ r ∈ s.rows, r.invalidatedAt ≠ none → ∃ c ∈ s.rows,
    r.mergedIntoEventId = some c.id ∧ r.rank < c.rank
  upward : ∀ op ∈ s.ops, Upward s.rows op

theorem merges_up {s : Store} (h : Sound s) {a b : ChronicleEvent} (hab : MergesInto s.rows a b) :
    a.rank < b.rank := by
  obtain ⟨ha, hb, hinvalid, hmerged⟩ := hab
  obtain ⟨c, hc, hmerged', hlt⟩ := h.merged a ha hinvalid
  rw [hmerged] at hmerged'
  rwa [List.inj_on_of_nodup_map h.ids hb hc (Option.some.inj hmerged')]

theorem Sound.forest {s : Store} (h : Sound s) : MergeForest s.rows := by
  refine ⟨fun a b c hab hac => ?_, fun a ha => ?_, fun a ha => ?_⟩
  · have heq := hab.2.2.2.symm.trans hac.2.2.2
    exact List.inj_on_of_nodup_map h.ids hab.2.1 hac.2.1 (Option.some.inj heq)
  · have hup : ∀ b, TransGen (MergesInto s.rows) a b → a.rank < b.rank := by
      intro b hb
      induction hb with
      | single hab => exact merges_up h hab
      | tail _ hbc ih => exact ih.trans (merges_up h hbc)
    exact lt_irrefl _ (hup a ha)
  · -- the rows of a higher rank become fewer on the way
    induction hn : (s.rows.filter (fun r => a.rank < r.rank)).length using Nat.strongRecOn
      generalizing a with
    | ind n ih =>
      by_cases hlive : a.invalidatedAt = none
      · exact ⟨a, ha, hlive, .refl⟩
      · obtain ⟨c, hc, hmerged, hlt⟩ := h.merged a ha hlive
        have hfewer : (s.rows.filter (fun r => c.rank < r.rank)).length < n := by
          have hsplit : s.rows.filter (fun r => c.rank < r.rank) =
              (s.rows.filter (fun r => a.rank < r.rank)).filter (fun r => c.rank < r.rank) := by
            rw [List.filter_filter]
            refine List.filter_congr (fun r _ => ?_)
            by_cases hcr : c.rank < r.rank
            · simp [hcr, hlt.trans hcr]
            · simp [hcr]
          rw [← hn, hsplit, List.length_filter_lt_length_iff_exists]
          exact ⟨c, List.mem_filter.mpr ⟨hc, decide_eq_true hlt⟩, by simp⟩
        obtain ⟨b, hb, hend, hpath⟩ := ih _ hfewer c hc rfl
        exact ⟨b, hb, hend, .head ⟨ha, hc, hlive, hmerged⟩ hpath⟩

section Steps

variable {K : Kernel}

def merged (now : ℤ) (op : DreamOp) (r : ChronicleEvent) : ChronicleEvent :=
  if r.id ∈ op.mergedEventIds ∧ r.id ≠ op.canonicalId ∧ r.invalidatedAt = none then
    { r with invalidatedAt := some now, mergedIntoEventId := some op.canonicalId }
  else r

theorem soft_merge_tails (now : ℤ) (canonicalId : ℕ) (tails : List ℕ) :
    ∀ rows : List ChronicleEvent,
      tails.foldl (fun rows tail => rows.map (softMergeTail now canonicalId tail)) rows =
        rows.map (fun r => if r.id ∈ tails ∧ r.invalidatedAt = none then
          { r with invalidatedAt := some now, mergedIntoEventId := some canonicalId } else r) := by
  induction tails with
  | nil => exact fun rows => by simp
  | cons t tails ih =>
    intro rows
    rw [List.foldl_cons, ih, List.map_map]
    refine List.map_congr_left (fun r _ => ?_)
    by_cases hlive : r.invalidatedAt = none
    · by_cases ht : r.id = t
      · simp [softMergeTail, ht, hlive]
      · simp [softMergeTail, ht, hlive]
    · simp [softMergeTail, hlive]

theorem applyOp_eq (now : ℤ) (op : DreamOp) (rows : List ChronicleEvent) :
    applyOp now op rows = rows.map (merged now op) := by
  rw [applyOp, soft_merge_tails]
  refine List.map_congr_left (fun r _ => ?_)
  simp only [merged, List.mem_filter, decide_eq_true_eq, and_assoc]

theorem applyOp_again (now now' : ℤ) (op : DreamOp) (rows : List ChronicleEvent) :
    applyOp now' op (applyOp now op rows) = applyOp now op rows := by
  rw [applyOp_eq, applyOp_eq, List.map_map]
  refine List.map_congr_left (fun r _ => ?_)
  by_cases h : r.id ∈ op.mergedEventIds ∧ r.id ≠ op.canonicalId ∧ r.invalidatedAt = none
  · simp [merged, h]
  · rw [Function.comp_apply, merged, merged, if_neg h, if_neg h]

def MergedOr (op : DreamOp) (r r' : ChronicleEvent) : Prop :=
  r'.id = r.id ∧ r'.rank = r.rank ∧
    (r' = r ∨ (r.id ∈ op.mergedEventIds ∧ r.id ≠ op.canonicalId ∧
      r'.mergedIntoEventId = some op.canonicalId))

theorem merged_or (now : ℤ) (op : DreamOp) (r : ChronicleEvent) : MergedOr op r (merged now op r) := by
  unfold merged
  split_ifs with h
  · exact ⟨rfl, rfl, .inr ⟨h.1, h.2.1, rfl⟩⟩
  · exact ⟨rfl, rfl, .inl rfl⟩

/-- An operation stays upward while rows come and keep their ids and ranks. -/
theorem Upward.mono {rows rows' : List ChronicleEvent} {op : DreamOp} (h : Upward rows op)
    (hkeep : ∀ r ∈ rows, ∃ r' ∈ rows', r'.id = r.id ∧ r'.rank = r.rank) : Upward rows' op := by
  obtain ⟨c, hc, hid, htails⟩ := h
  obtain ⟨c', hc', hcid, hcrank⟩ := hkeep c hc
  refine ⟨c', hc', hcid.trans hid, fun t ht => ?_⟩
  obtain ⟨r, hr, hrid, hlt⟩ := htails t ht
  obtain ⟨r', hr', hrid', hrank⟩ := hkeep r hr
  exact ⟨r', hr', hrid'.trans hrid, fun hne => by rw [hrank, hcrank]; exact hlt hne⟩

theorem mem_fetchEvents {rows : List ChronicleEvent} {namespaceId : ℕ} {e : EventRow}
    (h : e ∈ fetchEvents rows namespaceId) : ∃ r ∈ rows, r.id = e.eventId ∧ r.rank = e.rank := by
  obtain ⟨r, hr, he⟩ := List.mem_filterMap.mp h
  refine ⟨r, hr, ?_⟩
  cases hembedding : coerceEmbedding r.embedding with
  | none => simp [hembedding] at he
  | some embedding =>
    cases hdate : r.referencedDate with
    | none => simp [hembedding, hdate] at he
    | some referencedDate =>
      simp only [hembedding, hdate] at he
      split_ifs at he
      rw [← Option.some.inj he]
      exact ⟨rfl, rfl⟩

theorem fetchEvents_ids {rows : List ChronicleEvent} (h : (rows.map ChronicleEvent.id).Nodup)
    (namespaceId : ℕ) : ((fetchEvents rows namespaceId).map EventRow.eventId).Nodup := by
  refine List.pairwise_map.mpr (List.pairwise_filterMap.mpr ((List.pairwise_map.mp h).imp ?_))
  intro r r' hne e he e' he' heq
  obtain ⟨q, hq, hid, -⟩ := @mem_fetchEvents [r] namespaceId e
    (List.mem_filterMap.mpr ⟨r, List.mem_cons_self, he⟩)
  obtain ⟨q', hq', hid', -⟩ := @mem_fetchEvents [r'] namespaceId e'
    (List.mem_filterMap.mpr ⟨r', List.mem_cons_self, he'⟩)
  rw [List.mem_singleton.mp hq] at hid
  rw [List.mem_singleton.mp hq'] at hid'
  exact hne (hid.trans (heq.trans hid'.symm))

theorem plan_upward {rows : List ChronicleEvent} (hids : (rows.map ChronicleEvent.id).Nodup)
    {namespaceId : ℕ} {threshold : ℚ} {window : ℤ} {listed : List EventRow}
    (hlisted : listed.Perm (fetchEvents rows namespaceId)) {op : DreamOp}
    (h : op ∈ plan K threshold window listed) : Upward rows op := by
  obtain ⟨C, hC, hop⟩ := List.mem_filterMap.mp h
  have hnodup : listed.Nodup := hlisted.nodup_iff.mpr (fetchEvents_ids hids namespaceId).of_map
  obtain ⟨-, -, x, -, hmem⟩ := cluster_spec hnodup hC
  have hrow : ∀ e ∈ C, ∃ r ∈ rows, r.id = e.eventId ∧ r.rank = e.rank :=
    fun e he => mem_fetchEvents (hlisted.subset ((hmem e).mp he).1)
  match C with
  | [] => cases hop
  | head::rest =>
    obtain rfl := Option.some.inj hop
    obtain ⟨hcmem, hmax⟩ := canonical_spec head rest
    obtain ⟨c, hc, hcid, hcrank⟩ := hrow _ hcmem
    refine ⟨c, hc, hcid, fun t ht => ?_⟩
    obtain ⟨e, he, rfl⟩ := List.mem_map.mp ((sortOn_perm id _).mem_iff.mp ht)
    obtain ⟨r, hr, hrid, hrrank⟩ := hrow e he
    refine ⟨r, hr, hrid, fun hne => ?_⟩
    rw [hrrank, hcrank]
    exact lt_of_le_of_ne (hmax e he) (fun heq => hne (rank_id heq))

theorem insert_sound {s : Store} (h : Sound s) {event : ChronicleEvent}
    (hfresh : event.id ∉ s.rows.map ChronicleEvent.id) (hlive : event.invalidatedAt = none) :
    Sound { s with rows := s.rows++[event] } := by
  have hkeep : ∀ r ∈ s.rows, r ∈ s.rows++[event] := fun r hr => List.mem_append_left _ hr
  refine ⟨?_, fun r hr hinvalid => ?_, fun op hop => ?_⟩
  · simp only [List.map_append, List.map_cons, List.map_nil]
    exact h.ids.append (List.nodup_singleton _)
      (fun i hi hi' => hfresh (List.mem_singleton.mp hi' ▸ hi))
  · rcases List.mem_append.mp hr with hr' | hr'
    · obtain ⟨c, hc, hmerged⟩ := h.merged r hr' hinvalid
      exact ⟨c, hkeep c hc, hmerged⟩
    · rw [List.mem_singleton.mp hr'] at hinvalid
      exact absurd hlive hinvalid
  · exact (h.upward op hop).mono (fun r hr => ⟨r, hkeep r hr, rfl, rfl⟩)

theorem apply_sound {s : Store} (h : Sound s) {op : DreamOp} (hop : op ∈ s.ops) (now : ℤ) :
    Sound { s with rows := applyOp now op s.rows } := by
  obtain ⟨f, hf, heach⟩ : ∃ f, applyOp now op s.rows = s.rows.map f ∧ ∀ r, MergedOr op r (f r) :=
    ⟨_, applyOp_eq now op s.rows, merged_or now op⟩
  have hkeep : ∀ r ∈ s.rows, ∃ r' ∈ s.rows.map f, r'.id = r.id ∧ r'.rank = r.rank :=
    fun r hr => ⟨f r, List.mem_map_of_mem hr, (heach r).1, (heach r).2.1⟩
  rw [hf]
  refine ⟨?_, fun r' hr' hinvalid => ?_, fun o ho => (h.upward o ho).mono hkeep⟩
  · have hids : (s.rows.map f).map ChronicleEvent.id = s.rows.map ChronicleEvent.id := by
      rw [List.map_map]
      exact List.map_congr_left (fun r _ => (heach r).1)
    rw [hids]
    exact h.ids
  · obtain ⟨r, hr, rfl⟩ := List.mem_map.mp hr'
    obtain ⟨-, hrank, hcase⟩ := heach r
    obtain ⟨c, hc, hmerged, hlt⟩ : ∃ c ∈ s.rows,
        (f r).mergedIntoEventId = some c.id ∧ r.rank < c.rank := by
      rcases hcase with heq | ⟨hmem, hne, hmerged⟩
      · rw [heq] at hinvalid ⊢
        exact h.merged r hr hinvalid
      · obtain ⟨c, hc, hcid, htails⟩ := h.upward op hop
        obtain ⟨q, hq, hqid, hlt⟩ := htails _ hmem
        obtain rfl := List.inj_on_of_nodup_map h.ids hq hr hqid
        exact ⟨c, hc, hcid ▸ hmerged, hlt hne⟩
    refine ⟨f c, List.mem_map_of_mem hc, ?_, ?_⟩
    · rw [(heach c).1, hmerged]
    · rw [hrank, (heach c).2.1]
      exact hlt

theorem step_sound {s t : Store} {e : Step} (h : Sound s) (ht : step K s e = some t) :
    Sound t := by
  cases e with
  | insert event =>
    simp only [step] at ht
    split_ifs at ht with hbad
    push Not at hbad
    obtain rfl := Option.some.inj ht
    exact insert_sound h hbad.1 hbad.2
  | plan namespaceId threshold window listed =>
    simp only [step] at ht
    split_ifs at ht with hlisted
    obtain rfl := Option.some.inj ht
    refine ⟨h.ids, h.merged, fun op hop => ?_⟩
    rcases List.mem_append.mp hop with hold | hnew
    · exact h.upward op hold
    · exact plan_upward h.ids hlisted hnew
  | apply op now =>
    simp only [step] at ht
    split_ifs at ht with hop
    obtain rfl := Option.some.inj ht
    exact apply_sound h hop now

theorem empty_sound : Sound ⟨[],[]⟩ :=
  ⟨List.nodup_nil, fun _ hr => (nomatch hr), fun _ hop => (nomatch hop)⟩

end Steps

/-- The clusters are the components, each is planned to be merged into its best
event whatever the order of the rows, applying an operation merges the live
events it names and applying it again changes nothing, and merged events form a
forest whatever was planned and applied. -/
theorem event_clustering (K : Kernel) :
    (∀ (threshold : ℚ) (window : ℤ) (rows : List EventRow),
      (rows.map EventRow.eventId).Nodup →
      (∀ S : Set EventRow,
        (∃ C ∈ clusterEvents K threshold window rows, ∀ e, e ∈ C ↔ e ∈ S) ↔
          ∃ x ∈ rows, (∀ e, e ∈ S ↔ EqvGen (Near threshold window rows) x e) ∧ ∃ y ∈ S, y ≠ x) ∧
      (∀ op, op ∈ plan K threshold window rows ↔ ∃ x ∈ rows,
        (∃ y, y ≠ x ∧ EqvGen (Near threshold window rows) x y) ∧
          MergeOf threshold window rows x op) ∧
      ∀ rows', rows.Perm rows' →
        (plan K threshold window rows).Perm (plan K threshold window rows')) ∧
    (∀ now now' op rows, applyOp now op rows = rows.map (merged now op) ∧
      applyOp now' op (applyOp now op rows) = applyOp now op rows) ∧
    ∀ steps : List Step, Machine.Always (step K) (fun s => MergeForest s.rows ∧
      ∀ namespaceId, ((fetchEvents s.rows namespaceId).map EventRow.eventId).Nodup)
        ⟨[],[]⟩ steps := by
  refine ⟨fun threshold window rows hids => ⟨fun S => mem_clusterEvents hids.of_map S,
    mem_plan hids, fun rows' hperm => plan_perm hids hperm⟩,
    fun now now' op rows => ⟨applyOp_eq now op rows, applyOp_again now now' op rows⟩,
    fun steps => ?_⟩
  have hstep : ∀ (s : Store) (e : Step) (t : Store), Sound s → True → step K s e = some t → Sound t :=
    fun s e t hs _ ht => step_sound hs ht
  exact Machine.always_of_invariant hstep (fun s hs => ⟨hs.forest, fetchEvents_ids hs.ids⟩) steps _
    empty_sound (Machine.meets_trivial steps _)

namespace Reports

def event (id : ℕ) (day : ℤ) (confidence : ℚ) (embedding : List ℚ) : ChronicleEvent where
  id := id
  namespaceId := 0
  subject := "Ada"
  referencedDate := some day
  observationDate := day
  confidence := confidence
  embedding := some embedding
  invalidatedAt := none
  mergedIntoEventId := none

def events : List ChronicleEvent := [event 1 10 0 [1,0],event 2 12 1 [1,0],event 3 12 1 [0,1]]

def listed : List EventRow := fetchEvents events 0

def op : DreamOp := ⟨2,[1,2]⟩

def steps : List Step := events.map Step.insert++
  [.plan 0 1 7 listed.reverse,.apply op 20,.apply op 21]

/-- Only the first two are near one another. -/
theorem linked_reports {a b : EventRow} (h : EqvGen (Near 1 7 listed.reverse) a b) :
    a ∈ listed.take 2 ↔ b ∈ listed.take 2 := by
  induction h with
  | rel a b h =>
    have hpairs : ∀ a ∈ listed, ∀ b ∈ listed, 1 ≤ dotProduct a.embedding b.embedding →
        (a ∈ listed.take 2 ↔ b ∈ listed.take 2) := by decide +kernel
    exact hpairs a (List.mem_reverse.mp h.1) b (List.mem_reverse.mp h.2.1) h.2.2.2.1
  | refl a => rfl
  | symm a b _ ih => exact ih.symm
  | trans a b c _ _ hab hbc => exact hab.trans hbc

theorem reports_merged : op ∈ plan batched 1 7 listed.reverse ∧
    ∃ s, Machine.run (step batched) ⟨[],[]⟩ steps = some s ∧ MergeForest s.rows ∧
      s.rows.map ChronicleEvent.mergedIntoEventId = [some 2,none,none] := by
  obtain ⟨hplan, happly, hruns⟩ := event_clustering batched
  have hop : op ∈ plan batched 1 7 listed.reverse := by
    have hnear : ∀ e ∈ listed.take 2, EqvGen (Near 1 7 listed.reverse) (listed.headD default) e := by
      intro e he
      refine .rel _ _ ?_
      revert e
      unfold Near
      decide +kernel
    refine ((hplan 1 7 listed.reverse (by decide)).2.1 op).mpr
      ⟨listed.headD default, by decide, ⟨listed.getD 1 default, by decide, hnear _ (by decide)⟩, ?_⟩
    have hlinked : ∀ e, EqvGen (Near 1 7 listed.reverse) (listed.headD default) e ↔
        e ∈ listed.take 2 := fun e => ⟨fun h => (linked_reports h).mp (by decide), hnear e⟩
    refine ⟨by decide, fun i => ?_, listed.getD 1 default, hnear _ (by decide), by decide,
      fun e he => ?_⟩
    · simp only [hlinked]
      exact List.mem_map (f := EventRow.eventId) (l := listed.take 2)
    · have hbest : ∀ e ∈ listed.take 2, e.rank ≤ (listed.getD 1 default).rank := by decide
      exact hbest e ((hlinked e).mp he)
  have hinserts : Machine.run (step batched) ⟨[],[]⟩ (events.map Step.insert) = some ⟨events,[]⟩ := by
    rfl
  have hlisted : listed.reverse.Perm (fetchEvents events 0) := List.reverse_perm _
  have hrun : Machine.run (step batched) ⟨[],[]⟩ steps =
      some ⟨applyOp 21 op (applyOp 20 op events),plan batched 1 7 listed.reverse⟩ := by
    rw [steps, Machine.run_append, hinserts]
    simp only [Option.bind_some, Machine.run, step, if_pos hlisted, List.nil_append, if_pos hop]
  refine ⟨hop, _, hrun, (Machine.always_last steps _ (hruns steps) hrun).1, ?_⟩
  rw [(happly 20 21 op events).2, (happly 20 20 op events).1]
  decide

end Reports

end Uru.Dream.EventClustering
