import Uru.Dream.DedupePlan
import Uru.Dream.DedupeRow

/-!
# When reversing a consolidation gives the rows back

The rows come back exactly when the two cases that the records cannot tell
apart do not occur: an edge between two absorbed members, whose last snapshot
is not its first state, and a member that was tombstoned before, whose
tombstone the record does not hold.
-/

set_option autoImplicit false

namespace Uru.Dream

open Uru.Storage Uru.Lib Uru.Lib.Table

section Inverse

def SameEntity (e f : Entity) : Prop := { f with updatedAt := e.updatedAt } = e

def SameContent (c d : Content) : Prop :=
  List.Forall₂ SameEntity c.entities d.entities ∧
    List.Forall₂ SameRow c.relationships d.relationships

variable (cfg : DreamConfig) (judge : CandidatePair → Decision)

/-- Applying and reversing gives the rows back, and reversing once more
changes nothing. -/
def UndoIsInverse (op : DedupeOp) (now back again : Time) (c : Content) : Prop :=
  let done := applyVectorcypherDedupeEntities cfg judge now op c
  let undone := (reverseVectorcypherDedupeEntities back done.2 done.1).1
  SameContent c undone ∧ (reverseVectorcypherDedupeEntities again done.2 undone).1 = undone

def absorbed (op : DedupeOp) : List UUID := applied cfg judge op.merges

variable {cfg judge} {op : DedupeOp} {now back again : Time}

theorem content_eq {c d : Content} (he : c.entities = d.entities)
    (hr : c.relationships = d.relationships) : c = d := by
  cases c
  cases d
  simp_all

theorem forall₂_map {α : Type} {R : α → α → Prop} {f : α → α} {xs : List α} :
    List.Forall₂ R xs (xs.map f) ↔ ∀ x ∈ xs, R x (f x) := by
  rw [List.forall₂_map_right_iff, List.forall₂_same]

theorem canonical_not_absorbed (op : DedupeOp) : op.canonicalId ∉ absorbed cfg judge op := by
  intro h
  obtain ⟨m, hm, hid⟩ := List.mem_map.mp h
  exact op.canonical_kept (List.mem_map.mpr ⟨m, (List.mem_filter.mp hm).1, hid⟩)

/-- The relationships of a content that was reached by `f` from `c`, after a
reversal. -/
theorem undone_relationships (cfg : DreamConfig) (judge : CandidatePair → Decision) (op : DedupeOp)
    (now back : Time) (c d : Content) (f : Relationship → Relationship)
    (hd : d.relationships = c.relationships.map f) (hf : ∀ r, (f r).id = r.id) :
    (reverseVectorcypherDedupeEntities back
      (applyVectorcypherDedupeEntities cfg judge now op c).2 d).1.relationships =
      c.relationships.map (fun r => unmergedRow now op.opId op.canonicalId back
        (absorbed cfg judge op) r (f r)) := by
  rw [reverseVectorcypherDedupeEntities, reverse_relationships, hd, List.map_map]
  refine List.map_congr_left (fun r hr => ?_)
  exact edgeUpdates_on op.one_canonical hr (hf r) back

theorem undone_entities (cfg : DreamConfig) (judge : CandidatePair → Decision) (op : DedupeOp)
    (now back : Time) (c d : Content) :
    (reverseVectorcypherDedupeEntities back
      (applyVectorcypherDedupeEntities cfg judge now op c).2 d).1.entities =
      d.entities.map (fun e =>
        if e.id ∈ absorbed cfg judge op then { e with validUntil := none } else e) := by
  rw [reverseVectorcypherDedupeEntities, reverse_entities]
  refine List.map_congr_left (fun e _ => ?_)
  change onRow (entityUpdates (applyMerges cfg judge now op.opId op.merges c).2) e = _
  rw [entityUpdates_eq, revived_entity]
  rfl

theorem mergedRow_id (as : List UUID) (canonical opId : UUID) (r : Relationship) :
    (mergedRow now opId canonical as r).id = r.id := by
  induction as generalizing r with
  | nil => rfl
  | cons a as ih => exact (ih _).trans mergeRow_id

theorem unmergedRow_id (as : List UUID) (canonical opId : UUID) (r x : Relationship) :
    (unmergedRow now opId canonical back as r x).id = x.id := by
  induction as generalizing r x with
  | nil => rfl
  | cons a as ih => exact (ih _ _).trans unmergeRow_id

theorem entity_restored_iff (as : List UUID) (e : Entity) :
    SameEntity e
        (if (as.foldl (fun e a => retired now a e) e).id ∈ as then
          { as.foldl (fun e a => retired now a e) e with validUntil := none }
        else as.foldl (fun e a => retired now a e) e) ↔
      (e.id ∈ as → e.validUntil = none) := by
  rw [retired_entity]
  by_cases ha : e.id ∈ as
  · cases hv : e.validUntil with
    | none =>
      refine iff_of_true ?_ (fun _ => rfl)
      cases e
      simp_all [SameEntity]
    | some t =>
      refine iff_of_false (fun h => ?_) (by simp [ha])
      have := congrArg Entity.validUntil h
      simp [ha, hv] at this
  · simp [ha, SameEntity]

/-- The first half: the rows that reversing gives back. -/
theorem restored_iff (c : Rows) :
    SameContent c.toContent (reverseVectorcypherDedupeEntities back
      (applyVectorcypherDedupeEntities cfg judge now op c.toContent).2
      (applyVectorcypherDedupeEntities cfg judge now op c.toContent).1).1 ↔
      (∀ r ∈ c.relationships, r.invalidatedAt = none → ¬ Joins (absorbed cfg judge op) r) ∧
      (∀ e ∈ c.entities, e.id ∈ absorbed cfg judge op → e.validUntil = none) := by
  have hdone : (applyVectorcypherDedupeEntities cfg judge now op c.toContent).1.relationships =
      c.relationships.map (mergedRow now op.opId op.canonicalId (absorbed cfg judge op)) :=
    apply_relationships op.one_canonical c.toContent
  have hentities : (applyVectorcypherDedupeEntities cfg judge now op c.toContent).1.entities =
      c.entities.map (fun e => (absorbed cfg judge op).foldl (fun e a => retired now a e) e) :=
    apply_entities c.toContent
  rw [SameContent, undone_relationships _ _ _ _ _ _ _ _ hdone (mergedRow_id _ _ _), undone_entities,
    hentities, List.map_map, forall₂_map, forall₂_map, and_comm]
  refine and_congr (forall₂_congr fun r hr => ?_) (forall₂_congr fun e _ => ?_)
  · rw [row_restored_iff (canonical_not_absorbed op) (c.invalidation r hr), not_and]
  · exact entity_restored_iff _ e

theorem putBack_twice (opId src tgt : UUID) (loop : Bool) (x : Relationship) :
    putBack opId again src tgt loop (putBack opId back src tgt loop x) =
      putBack opId back src tgt loop x ↔ again = back := by
  constructor
  · intro h
    have ht := congrArg Relationship.updatedAt h
    unfold putBack repoint at ht
    grind
  · rintro rfl
    unfold putBack repoint
    grind

theorem unmergedRow_twice {as : List UUID} {canonical opId : UUID} {r x : Relationship}
    (hx : x.id = r.id) :
    unmergedRow now opId canonical again as r (unmergedRow now opId canonical back as r x) =
      unmergedRow now opId canonical back as r x ↔ again = back ∨ ¬ Recorded as r := by
  by_cases hr : Recorded as r
  · obtain ⟨src, tgt, loop, hput⟩ := unmergedRow_of_recorded now opId canonical hr
    rw [hput again _ ((unmergedRow_id _ _ _ _ _).trans hx), hput back x hx, putBack_twice]
    simp [hr]
  · rw [unmergedRow_of_not_recorded hr]
    simp [hr]

/-- The second half: what a second reversal leaves unchanged. -/
theorem second_reversal_iff (c : Content) :
    (reverseVectorcypherDedupeEntities again
      (applyVectorcypherDedupeEntities cfg judge now op c).2
      (reverseVectorcypherDedupeEntities back
        (applyVectorcypherDedupeEntities cfg judge now op c).2
        (applyVectorcypherDedupeEntities cfg judge now op c).1).1).1 =
      (reverseVectorcypherDedupeEntities back
        (applyVectorcypherDedupeEntities cfg judge now op c).2
        (applyVectorcypherDedupeEntities cfg judge now op c).1).1 ↔
      again = back ∨ ∀ r ∈ c.relationships, r.invalidatedAt = none →
        ∀ a ∈ absorbed cfg judge op, ¬ r.touches a := by
  have hdone : (applyVectorcypherDedupeEntities cfg judge now op c).1.relationships =
      c.relationships.map (mergedRow now op.opId op.canonicalId (absorbed cfg judge op)) :=
    apply_relationships op.one_canonical c
  have honce := undone_relationships cfg judge op now back c _ _ hdone (mergedRow_id _ _ _)
  have htwice := undone_relationships cfg judge op now again c _ _ honce
    (fun r => (unmergedRow_id _ _ _ _ _).trans (mergedRow_id _ _ _ r))
  have hrows : ∀ r, (¬ Recorded (absorbed cfg judge op) r ↔
      (r.invalidatedAt = none → ∀ a ∈ absorbed cfg judge op, ¬ r.touches a)) := by
    intro r
    simp [Recorded]
  constructor
  · intro h
    have hr := congrArg Content.relationships h
    rw [htwice, honce] at hr
    by_contra hcon
    obtain ⟨hne, hex⟩ := not_or.mp hcon
    refine hex (fun r hmem => (hrows r).mp ?_)
    exact ((unmergedRow_twice (mergedRow_id _ _ _ r)).mp
      (List.map_inj_left.mp hr r hmem)).resolve_left hne
  · intro h
    refine content_eq ?_ ?_
    · rw [undone_entities, undone_entities, List.map_map]
      refine List.map_congr_left (fun e _ => ?_)
      simp only [Function.comp_apply]
      split <;> simp_all
    · rw [htwice, honce]
      refine List.map_congr_left (fun r hmem => ?_)
      rw [unmergedRow_twice (mergedRow_id _ _ _ r)]
      exact h.imp_right (fun h => (hrows r).mpr (h r hmem))

/-- Reversing is the inverse of applying exactly when no absorbed member is
tombstoned before and no live edge joins two of them; it is idempotent exactly
when nothing was recorded or the clock stands still. -/
theorem undo_is_inverse_iff (cfg : DreamConfig) (judge : CandidatePair → Decision) (op : DedupeOp)
    (now back again : Time) (c : Rows) :
    UndoIsInverse cfg judge op now back again c.toContent ↔
      ((∀ r ∈ c.relationships, r.invalidatedAt = none → ¬ Joins (absorbed cfg judge op) r) ∧
        (∀ e ∈ c.entities, e.id ∈ absorbed cfg judge op → e.validUntil = none)) ∧
      (again = back ∨ ∀ r ∈ c.relationships, r.invalidatedAt = none →
        ∀ a ∈ absorbed cfg judge op, ¬ r.touches a) :=
  and_congr (restored_iff c) (second_reversal_iff c.toContent)

end Inverse

section Joined

def person (id : UUID) (mentionCount : ℤ) : Entity :=
  { id := id, name := "Ann", sourceDocumentIds := [], sourceChunkIds := [],
    mentionCount := mentionCount, confidence := 1, validUntil := none, createdAt := 0,
    updatedAt := 0, columns := [] }

def acquaintance (id source target : UUID) : Relationship :=
  { id := id, sourceEntityId := source, targetEntityId := target,
    relationshipType := "KNOWS", sourceDocumentIds := [], sourceChunkIds := [],
    confidence := 1, weight := 1, validUntil := none, validTo := none, invalidatedAt := none,
    invalidatedBy := none, createdAt := 0, updatedAt := 0, columns := [] }

def joined : Rows where
  entities := [person 1 5, person 2 1, person 3 1]
  relationships := [acquaintance 10 2 3]
  entity_keys := by decide
  relationship_keys := by decide
  ends := by decide
  invalidation := by decide

def proposed (e : Entity) : DedupePlan.Candidate :=
  { e with entityType := "PERSON", embedding := some [1] }

def three : DedupePlan.DreamOp :=
  DedupePlan.buildComponentOp "PERSON" (9/10) (proposed (person 1 5))
    [proposed (person 2 1), proposed (person 3 1)] [0, 1, 2]
    [((0, 1), 1), ((0, 2), 1), ((1, 2), 1)]
    [proposed (person 1 5), proposed (person 2 1), proposed (person 3 1)]

def defaults : DreamConfig where
  dedupeVerifierBandLow := 78/100
  dedupeVerifierBandHigh := 95/100
  band := by norm_num

/-- The planner's own operation, applied and reversed: the edge between the two
absorbed members comes back with an end at the survivor. -/
theorem joined_members_not_restored :
    ∃ op, three.handed 77 = some op ∧
      ¬ UndoIsInverse defaults (fun _ => .merge) op 5 6 7 joined.toContent := by
  refine ⟨_, rfl, fun h => ?_⟩
  refine ((restored_iff joined).mp h.1).1 (acquaintance 10 2 3) (by decide) rfl ?_
  unfold Joins
  decide +kernel

end Joined

end Uru.Dream
