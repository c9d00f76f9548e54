import Uru.Dream.Dedupe

/-!
# What a consolidation and its reversal do to one row

Apply and reverse both act on each row alone. A relationship meets at most two
absorbed members: the first rewrites its end, the second turns it into a loop.
Reversing takes the snapshots in the order in which they were made, so the
second one, made between the two members, is the one that stays.
-/

set_option autoImplicit false

namespace Uru.Dream

open Uru.Storage Uru.Lib Uru.Lib.Table

section Row

variable (now : Time) (opId canonical : UUID)

def mergeRow (absorbed : UUID) (r : Relationship) : Relationship :=
  if selected absorbed r then (rewrite now opId canonical absorbed r).set r else r

/-- The row after the members `as` have been absorbed, in this order. -/
def mergedRow (as : List UUID) (r : Relationship) : Relationship :=
  as.foldl (fun r a => mergeRow now opId canonical a r) r

/-- What reversing one merge does to the row `x`, when `r` is that row as the
merge found it. -/
def unmergeRow (back : Time) (absorbed : UUID) (r x : Relationship) : Relationship :=
  if selected absorbed r then
    let y := (restore back (snapshot r)).on x
    if collapses canonical absorbed r then (clear opId r.id).on y else y
  else x

def unmergedRow (back : Time) : List UUID → Relationship → Relationship → Relationship
  | [], _, x => x
  | a::as, r, x =>
    unmergedRow back as (mergeRow now opId canonical a r) (unmergeRow opId canonical back a r x)

def Recorded (as : List UUID) (r : Relationship) : Prop :=
  r.invalidatedAt = none ∧ ∃ a ∈ as, r.touches a

def Joins (as : List UUID) (r : Relationship) : Prop :=
  r.sourceEntityId ∈ as ∧ r.targetEntityId ∈ as ∧ r.sourceEntityId ≠ r.targetEntityId

def SameRow (r s : Relationship) : Prop := { s with updatedAt := r.updatedAt } = r

variable {now opId canonical} {as : List UUID} {a : UUID} {r x : Relationship} {back : Time}

theorem mergeRow_of_not_selected (h : ¬ selected a r) :
    mergeRow now opId canonical a r = r :=
  if_neg h

theorem unmergeRow_of_not_selected (h : ¬ selected a r) :
    unmergeRow opId canonical back a r x = x :=
  if_neg h

theorem mergeRow_id : (mergeRow now opId canonical a r).id = r.id := by
  unfold mergeRow
  split
  · exact (rewrite now opId canonical a r).keeps r
  · rfl

theorem unmergeRow_id : (unmergeRow opId canonical back a r x).id = x.id := by
  unfold unmergeRow
  split
  · dsimp only
    split
    · exact (Update.on_key _ _).trans (Update.on_key _ _)
    · exact Update.on_key _ _
  · rfl

theorem recorded_cons : Recorded (a::as) r ↔ selected a r ∨ Recorded as r := by
  simp only [Recorded, selected, decide_eq_true_eq, List.mem_cons, exists_eq_or_imp]
  tauto

theorem mergedRow_of_not_recorded (h : ¬ Recorded as r) :
    mergedRow now opId canonical as r = r := by
  induction as with
  | nil => rfl
  | cons a as ih =>
    rw [recorded_cons, not_or] at h
    rw [mergedRow, List.foldl_cons, mergeRow_of_not_selected h.1]
    exact ih h.2

theorem unmergedRow_of_not_recorded (h : ¬ Recorded as r) :
    unmergedRow now opId canonical back as r x = x := by
  induction as generalizing x with
  | nil => rfl
  | cons a as ih =>
    rw [recorded_cons, not_or] at h
    rw [unmergedRow, mergeRow_of_not_selected h.1, unmergeRow_of_not_selected h.1]
    exact ih h.2

theorem mergeRow_collapsed (h : selected a r) (hc : collapses canonical a r) :
    mergeRow now opId canonical a r = invalidate now opId r := by
  simp [mergeRow, h, rewrite, hc]

theorem mergeRow_repointed (h : selected a r) (hc : ¬ collapses canonical a r) :
    mergeRow now opId canonical a r =
      repoint now (newSrc canonical a r) (newTgt canonical a r) r := by
  simp [mergeRow, h, rewrite, hc]

theorem not_recorded_invalidate : ¬ Recorded as (invalidate now opId r) :=
  fun h => nomatch h.1

/-- What a recorded row is left with: the ends of one snapshot, and no
invalidation of this operation if one of its merges had written one. -/
def putBack (opId : UUID) (back : Time) (src tgt : UUID) (loop : Bool) (x : Relationship) :
    Relationship :=
  if loop ∧ x.invalidatedBy = some opId then
    { repoint back src tgt x with invalidatedAt := none, invalidatedBy := none }
  else repoint back src tgt x

theorem unmergeRow_of_selected (hx : x.id = r.id) (h : selected a r) :
    unmergeRow opId canonical back a r x =
      putBack opId back r.sourceEntityId r.targetEntityId (collapses canonical a r) x := by
  have hy : (restore back (snapshot r)).on x =
      repoint back r.sourceEntityId r.targetEntityId x := by
    simp [Update.on, Update.hits, restore, snapshot, hx]
  rw [unmergeRow, if_pos h, hy]
  cases collapses canonical a r
  · simp [putBack]
  · simp [putBack, clear, Update.on, Update.hits, repoint, hx]

theorem unmergedRow_of_recorded (now : Time) (opId canonical : UUID) (h : Recorded as r) :
    ∃ src tgt loop, ∀ (back : Time) (x : Relationship), x.id = r.id →
      unmergedRow now opId canonical back as r x = putBack opId back src tgt loop x := by
  induction as generalizing r with
  | nil => exact absurd h.2 (by simp)
  | cons a as ih =>
    by_cases hs : selected a r
    · by_cases hr : Recorded as (mergeRow now opId canonical a r)
      · have hc : ¬ collapses canonical a r := by
          intro hc
          rw [mergeRow_collapsed hs hc] at hr
          exact not_recorded_invalidate hr
        obtain ⟨src, tgt, loop, hrest⟩ := ih hr
        refine ⟨src, tgt, loop, fun back x hx => ?_⟩
        rw [unmergedRow, hrest _ _ (unmergeRow_id.trans (hx.trans mergeRow_id.symm)),
          unmergeRow_of_selected hx hs]
        simp [putBack, repoint, hc]
      · refine ⟨r.sourceEntityId, r.targetEntityId, collapses canonical a r,
          fun back x hx => ?_⟩
        rw [unmergedRow, unmergedRow_of_not_recorded hr, unmergeRow_of_selected hx hs]
    · have hr : Recorded as r := (recorded_cons.mp h).resolve_left hs
      obtain ⟨src, tgt, loop, hrest⟩ := ih hr
      refine ⟨src, tgt, loop, fun back x hx => ?_⟩
      rw [unmergedRow, mergeRow_of_not_selected hs, unmergeRow_of_not_selected hs]
      exact hrest back x hx

theorem selected_iff : selected a r ↔ r.touches a ∧ r.invalidatedAt = none := by
  simp [selected]

theorem collapses_iff : collapses canonical a r ↔
    redirect canonical a r.sourceEntityId = redirect canonical a r.targetEntityId :=
  decide_eq_true_iff

/-- An edge at the survivor collapses at the first member it meets. -/
theorem collapses_of_touches (ht : r.touches canonical) (ha : r.touches a) (hne : a ≠ canonical) :
    collapses canonical a r := by
  rw [collapses_iff]
  unfold redirect
  unfold Relationship.touches at ht ha
  grind

theorem edge_at_survivor (now : Time) (opId : UUID) (hc : canonical ∉ as) (ht : r.touches canonical) (h : Recorded as r) :
    mergedRow now opId canonical as r = invalidate now opId r ∧
      ∀ (back : Time) (x : Relationship), x.id = r.id →
        unmergedRow now opId canonical back as r x =
          putBack opId back r.sourceEntityId r.targetEntityId true x := by
  induction as with
  | nil => exact absurd h.2 (by simp)
  | cons a as ih =>
    rw [List.mem_cons, not_or] at hc
    by_cases hs : selected a r
    · have hcol := collapses_of_touches ht (selected_iff.mp hs).1 (Ne.symm hc.1)
      have hr : ¬ Recorded as (invalidate now opId r) := not_recorded_invalidate
      refine ⟨?_, fun back x hx => ?_⟩
      · rw [mergedRow, List.foldl_cons, mergeRow_collapsed hs hcol]
        exact mergedRow_of_not_recorded hr
      · rw [unmergedRow, mergeRow_collapsed hs hcol, unmergedRow_of_not_recorded hr,
          unmergeRow_of_selected hx hs, hcol]
    · obtain ⟨hm, hu⟩ := ih hc.2 ((recorded_cons.mp h).resolve_left hs)
      refine ⟨?_, fun back x hx => ?_⟩
      · rw [mergedRow, List.foldl_cons, mergeRow_of_not_selected hs]
        exact hm
      · rw [unmergedRow, mergeRow_of_not_selected hs, unmergeRow_of_not_selected hs]
        exact hu back x hx

/-- A repointed edge is at the survivor, and its other end is not the member. -/
theorem repointed (hs : selected a r) (hc : ¬ collapses canonical a r) :
    (r.sourceEntityId = a ∧ r.targetEntityId ≠ a ∧ r.targetEntityId ≠ canonical ∧
      newSrc canonical a r = canonical ∧ newTgt canonical a r = r.targetEntityId) ∨
    (r.targetEntityId = a ∧ r.sourceEntityId ≠ a ∧ r.sourceEntityId ≠ canonical ∧
      newSrc canonical a r = r.sourceEntityId ∧ newTgt canonical a r = canonical) := by
  have ht := (selected_iff.mp hs).1
  rw [collapses_iff] at hc
  unfold newSrc newTgt
  unfold redirect at hc ⊢
  unfold Relationship.touches at ht
  grind

theorem collapsed_row_restored (hs : selected a r) (hcol : collapses canonical a r)
    (hb : r.invalidatedBy = none) :
    SameRow r (unmergeRow opId canonical back a r (invalidate now opId r)) := by
  have hn := (selected_iff.mp hs).2
  have hx : (invalidate now opId r).id = r.id := rfl
  rw [unmergeRow_of_selected hx hs, hcol]
  cases r
  simp_all [SameRow, putBack, invalidate, repoint]

theorem not_joins_of_collapses (hc : canonical ∉ a::as) (hs : selected a r)
    (hcol : collapses canonical a r) : ¬ Joins (a::as) r := by
  have ht := (selected_iff.mp hs).1
  rw [collapses_iff] at hcol
  unfold redirect at hcol
  unfold Joins
  unfold Relationship.touches at ht
  grind

theorem repointed_row_restored (hs : selected a r) (hcol : ¬ collapses canonical a r)
    (src tgt : UUID) :
    SameRow r (unmergeRow opId canonical back a r (repoint now src tgt r)) := by
  have hx : (repoint now src tgt r).id = r.id := rfl
  rw [unmergeRow_of_selected hx hs]
  simp [SameRow, putBack, repoint, hcol]

theorem not_restored_of_moved {src tgt : UUID} {loop : Bool}
    (h : src ≠ r.sourceEntityId ∨ tgt ≠ r.targetEntityId) :
    ¬ SameRow r (putBack opId back src tgt loop x) := by
  intro hsame
  have hs := congrArg Relationship.sourceEntityId hsame
  have ht := congrArg Relationship.targetEntityId hsame
  unfold putBack repoint at hs ht
  split at hs <;> simp_all

/-- After the first member the edge is at the survivor, so that it is met again
exactly when its other end is absorbed too. -/
theorem recorded_after_repoint (now : Time) (hc : canonical ∉ as) (hs : selected a r)
    (hcol : ¬ collapses canonical a r) :
    Recorded as (repoint now (newSrc canonical a r) (newTgt canonical a r) r) ↔
      Joins (a::as) r := by
  have hn := (selected_iff.mp hs).2
  simp only [Recorded, Joins, repoint, Relationship.touches, hn, true_and, List.mem_cons]
  rcases repointed hs hcol with ⟨hsa, hta, htc, hns, hnt⟩ | ⟨hta, hsa, hsc, hns, hnt⟩
  · rw [hns, hnt, hsa]
    grind
  · rw [hns, hnt, hta]
    grind

theorem repointed_touches (hs : selected a r) (hcol : ¬ collapses canonical a r) :
    (repoint now (newSrc canonical a r) (newTgt canonical a r) r).touches canonical := by
  rcases repointed hs hcol with h | h
  · exact Or.inl h.2.2.2.1
  · exact Or.inr h.2.2.2.2

theorem repointed_moves (hc : canonical ≠ a) (hs : selected a r)
    (hcol : ¬ collapses canonical a r) :
    newSrc canonical a r ≠ r.sourceEntityId ∨ newTgt canonical a r ≠ r.targetEntityId := by
  rcases repointed hs hcol with h | h
  · exact Or.inl (by rw [h.2.2.2.1, h.1]; exact hc)
  · exact Or.inr (by rw [h.2.2.2.2, h.1]; exact hc)

theorem joins_cons (hs : ¬ selected a r) :
    r.invalidatedAt = none ∧ Joins (a::as) r ↔ r.invalidatedAt = none ∧ Joins as r := by
  rw [selected_iff] at hs
  unfold Relationship.touches at hs
  unfold Joins
  grind

/-- A reversed row is the original one, except when it joined two members. -/
theorem row_restored_iff (hc : canonical ∉ as)
    (hi : r.invalidatedAt = none → r.invalidatedBy = none) :
    SameRow r (unmergedRow now opId canonical back as r (mergedRow now opId canonical as r)) ↔
      ¬ (r.invalidatedAt = none ∧ Joins as r) := by
  induction as with
  | nil => simp [unmergedRow, mergedRow, SameRow, Joins]
  | cons a as ih =>
    have hc' : canonical ∉ as := fun h => hc (by simp [h])
    rw [mergedRow, List.foldl_cons, unmergedRow]
    change SameRow r (unmergedRow now opId canonical back as _ (unmergeRow opId canonical back
      a r (mergedRow now opId canonical as _))) ↔ _
    by_cases hs : selected a r
    · have hn := (selected_iff.mp hs).2
      by_cases hcol : collapses canonical a r
      · rw [mergeRow_collapsed hs hcol, mergedRow_of_not_recorded not_recorded_invalidate,
          unmergedRow_of_not_recorded not_recorded_invalidate]
        exact iff_of_true (collapsed_row_restored hs hcol (hi hn))
          (fun h => not_joins_of_collapses hc hs hcol h.2)
      · rw [mergeRow_repointed hs hcol]
        by_cases hr : Recorded as (repoint now (newSrc canonical a r) (newTgt canonical a r) r)
        · refine iff_of_false ?_ (fun h => h ⟨hn, (recorded_after_repoint now hc' hs hcol).mp hr⟩)
          obtain ⟨hm, hu⟩ := edge_at_survivor now opId hc' (repointed_touches hs hcol) hr
          rw [hm, hu _ _ (by exact unmergeRow_id)]
          exact not_restored_of_moved (repointed_moves (fun h => hc (by simp [h])) hs hcol)
        · rw [mergedRow_of_not_recorded hr, unmergedRow_of_not_recorded hr]
          exact iff_of_true (repointed_row_restored hs hcol _ _)
            (fun h => hr ((recorded_after_repoint now hc' hs hcol).mpr h.2))
    · rw [mergeRow_of_not_selected hs, unmergeRow_of_not_selected hs, ih hc', joins_cons hs]

end Row

section Table

variable (cfg : DreamConfig) (judge : CandidatePair → Decision) (now : Time) (opId : UUID)

def applied (entries : List MergeEntry) : List UUID :=
  (entries.filter (fun m => authorised (maybeRunVerifier cfg judge m))).map MergeEntry.absorbedId

def retired (absorbed : UUID) (e : Entity) : Entity := (retire now absorbed).on e

variable {cfg judge now opId} {canonical : UUID}

theorem applyMerge_relationships {entry : MergeEntry} (c : Content)
    (ha : authorised (maybeRunVerifier cfg judge entry)) :
    (applyMerge cfg judge now opId entry c).1.relationships =
      c.relationships.map (mergeRow now opId entry.canonicalId entry.absorbedId) := by
  simp only [applyMerge, ha, if_true, updateEntities, updateRelationships]
  rw [run_eq_map]
  refine List.map_congr_left (fun r hr => ?_)
  rw [selectRelationshipsTouching,
    onRow_selected c.relationship_keys _ _ (fun _ => rfl) hr rfl, mergeRow]
  refine if_congr Iff.rfl ?_ rfl
  simp [Update.on, Update.hits, rewrite]

theorem applyMerge_entities {entry : MergeEntry} (c : Content)
    (ha : authorised (maybeRunVerifier cfg judge entry)) :
    (applyMerge cfg judge now opId entry c).1.entities =
      c.entities.map (retired now entry.absorbedId) := by
  simp only [applyMerge, ha, if_true, updateEntities, updateRelationships]
  rw [run_eq_map]
  rfl

theorem applyMerge_refused {entry : MergeEntry} (c : Content)
    (ha : ¬ authorised (maybeRunVerifier cfg judge entry)) :
    (applyMerge cfg judge now opId entry c).1 = c := by
  simp [applyMerge, ha]

theorem applied_cons (m : MergeEntry) (ms : List MergeEntry) :
    applied cfg judge (m::ms) =
      if authorised (maybeRunVerifier cfg judge m) then m.absorbedId::applied cfg judge ms
      else applied cfg judge ms := by
  unfold applied
  rw [List.filter_cons]
  split <;> rfl

theorem apply_relationships {entries : List MergeEntry}
    (hc : ∀ m ∈ entries, m.canonicalId = canonical) (c : Content) :
    (applyMerges cfg judge now opId entries c).1.relationships =
      c.relationships.map (mergedRow now opId canonical (applied cfg judge entries)) := by
  induction entries generalizing c with
  | nil => exact (List.map_id _).symm
  | cons m ms ih =>
    have hm := hc m (by simp)
    rw [applyMerges, applied_cons]
    change (applyMerges cfg judge now opId ms _).1.relationships = _
    rw [ih (fun m h => hc m (by simp [h]))]
    by_cases ha : authorised (maybeRunVerifier cfg judge m)
    · rw [if_pos ha, applyMerge_relationships c ha, List.map_map, hm]
      rfl
    · rw [if_neg ha, applyMerge_refused c ha]

theorem apply_entities {entries : List MergeEntry} (c : Content) :
    (applyMerges cfg judge now opId entries c).1.entities =
      c.entities.map (fun e => (applied cfg judge entries).foldl (fun e a => retired now a e) e) := by
  induction entries generalizing c with
  | nil => exact (List.map_id _).symm
  | cons m ms ih =>
    rw [applyMerges, applied_cons]
    change (applyMerges cfg judge now opId ms _).1.entities = _
    rw [ih]
    by_cases ha : authorised (maybeRunVerifier cfg judge m)
    · rw [if_pos ha, applyMerge_entities c ha, List.map_map]
      rfl
    · rw [if_neg ha, applyMerge_refused c ha]

/-- What the record of one merge asks of a row is what `unmergeRow` does. -/
theorem reverseEdges_on {entry : MergeEntry} {c : Content}
    (ha : authorised (maybeRunVerifier cfg judge entry)) {r x : Relationship}
    (hr : r ∈ c.relationships) (hx : x.id = r.id) (back : Time) :
    onRow (reverseEdges back opId (applyMerge cfg judge now opId entry c).2) x =
      unmergeRow opId entry.canonicalId back entry.absorbedId r x := by
  simp only [reverseEdges, applyMerge, ha, if_true, List.map_map]
  rw [onRow_append, selectRelationshipsTouching]
  rw [onRow_selected c.relationship_keys (selected entry.absorbedId) (restore back ∘ snapshot)
    (fun _ => rfl) hr hx, unmergeRow, List.filter_filter]
  by_cases hs : selected entry.absorbedId r
  · rw [if_pos hs, if_pos hs, onRow_selected c.relationship_keys _ (clear opId ∘ Relationship.id)
      (fun _ => rfl) hr ((Update.on_key _ _).trans hx)]
    simp [hs]
  · rw [if_neg hs, if_neg hs, onRow_selected c.relationship_keys _ (clear opId ∘ Relationship.id)
      (fun _ => rfl) hr hx]
    simp [hs]

def edgeUpdates (back : Time) (opId : UUID) (ms : List MergeRecord) :
    List (Update Relationship.id) :=
  (ms.filter MergeRecord.applied).flatMap (reverseEdges back opId)

def entityUpdates (ms : List MergeRecord) : List (Update Entity.id) :=
  (ms.filter MergeRecord.applied).flatMap reverseEntity

theorem edgeUpdates_cons (back : Time) (m : MergeRecord) (ms : List MergeRecord) :
    edgeUpdates back opId (m::ms) =
      if m.applied then reverseEdges back opId m++edgeUpdates back opId ms
      else edgeUpdates back opId ms := by
  unfold edgeUpdates
  rw [List.filter_cons]
  split <;> rfl

theorem entityUpdates_cons (m : MergeRecord) (ms : List MergeRecord) :
    entityUpdates (m::ms) =
      if m.applied then reverseEntity m++entityUpdates ms else entityUpdates ms := by
  unfold entityUpdates
  rw [List.filter_cons]
  split <;> rfl

theorem reverse_relationships (back : Time) (ms : List MergeRecord) (d : Content) :
    (reverseMerges back opId ms d).1.relationships =
      d.relationships.map (onRow (edgeUpdates back opId ms)) := by
  induction ms generalizing d with
  | nil => exact (List.map_id _).symm
  | cons m ms ih =>
    rw [reverseMerges, edgeUpdates_cons]
    split
    · simp only [ih, updateRelationships, updateEntities, run_eq_map, List.map_map]
      exact List.map_congr_left (fun x _ => (onRow_append _ _ x).symm)
    · exact ih d

theorem reverse_entities (back : Time) (ms : List MergeRecord) (d : Content) :
    (reverseMerges back opId ms d).1.entities =
      d.entities.map (onRow (entityUpdates ms)) := by
  induction ms generalizing d with
  | nil => exact (List.map_id _).symm
  | cons m ms ih =>
    rw [reverseMerges, entityUpdates_cons]
    split
    · simp only [ih, updateRelationships, updateEntities, run_eq_map, List.map_map]
      exact List.map_congr_left (fun x _ => (onRow_append _ _ x).symm)
    · exact ih d

theorem record_applied (m : MergeEntry) (c : Content) :
    (applyMerge cfg judge now opId m c).2.applied = authorised (maybeRunVerifier cfg judge m) := by
  unfold applyMerge
  by_cases ha : authorised (maybeRunVerifier cfg judge m) <;> simp [ha]

theorem edgeUpdates_on {entries : List MergeEntry}
    (hc : ∀ m ∈ entries, m.canonicalId = canonical) {c : Content} {r x : Relationship}
    (hr : r ∈ c.relationships) (hx : x.id = r.id) (back : Time) :
    onRow (edgeUpdates back opId (applyMerges cfg judge now opId entries c).2) x =
      unmergedRow now opId canonical back (applied cfg judge entries) r x := by
  induction entries generalizing c r x with
  | nil => rfl
  | cons m ms ih =>
    have hms : ∀ n ∈ ms, n.canonicalId = canonical := fun n h => hc n (by simp [h])
    rw [applyMerges, applied_cons]
    dsimp only
    rw [edgeUpdates_cons, record_applied]
    by_cases ha : authorised (maybeRunVerifier cfg judge m)
    · rw [if_pos ha, if_pos ha, onRow_append, reverseEdges_on ha hr hx, unmergedRow,
        hc m (by simp)]
      refine ih hms ?_ (unmergeRow_id.trans (hx.trans mergeRow_id.symm))
      rw [applyMerge_relationships c ha, hc m (by simp)]
      exact List.mem_map_of_mem hr
    · rw [if_neg ha, if_neg ha]
      exact ih hms (by rwa [applyMerge_refused c ha]) hx

theorem entityUpdates_eq {entries : List MergeEntry} (c : Content) :
    entityUpdates (applyMerges cfg judge now opId entries c).2 =
      (applied cfg judge entries).map revive := by
  induction entries generalizing c with
  | nil => rfl
  | cons m ms ih =>
    rw [applyMerges, applied_cons]
    dsimp only
    rw [entityUpdates_cons, record_applied, ih]
    by_cases ha : authorised (maybeRunVerifier cfg judge m)
    · rw [if_pos ha, if_pos ha, List.map_cons]
      simp [reverseEntity, applyMerge, ha]
    · rw [if_neg ha, if_neg ha]

theorem retired_entity (as : List UUID) (e : Entity) :
    as.foldl (fun e a => retired now a e) e =
      if e.id ∈ as ∧ e.validUntil = none then
        { e with validUntil := some now, updatedAt := now } else e := by
  induction as generalizing e with
  | nil => simp
  | cons a as ih =>
    rw [List.foldl_cons, ih]
    by_cases ha : e.id = a <;> cases hv : e.validUntil <;>
      simp [retired, retire, Update.on, Update.hits, ha, hv]

theorem revived_entity (as : List UUID) (e : Entity) :
    onRow (as.map revive) e = if e.id ∈ as then { e with validUntil := none } else e := by
  induction as generalizing e with
  | nil => simp
  | cons a as ih =>
    rw [List.map_cons, onRow_cons, ih]
    by_cases ha : e.id = a <;> cases hv : e.validUntil <;> cases e <;>
      simp_all [revive, Update.on, Update.hits]

end Table

end Uru.Dream
