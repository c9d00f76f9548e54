import Uru.Dream.DedupeRow
import Uru.Dream.GraphMirror

/-!
# What the mirror asks for one edge

Under the map that sends every absorbed member to the survivor the ends of an
edge stay what they are, whichever merge took the snapshot. So all requests for
one edge agree: it is closed when the map sends both ends to one node, and
otherwise moved to the images of its ends.
-/

set_option autoImplicit false

namespace Uru.Dream

open Uru.Storage Uru.Lib Uru.Lib.Table

section Row

def resolve (canonical : UUID) (as : List UUID) (x : UUID) : UUID :=
  if x ∈ as then canonical else x

def Folds (canonical : UUID) (as : List UUID) (r : Relationship) : Prop :=
  resolve canonical as r.sourceEntityId = resolve canonical as r.targetEntityId

variable {canonical a opId : UUID} {as : List UUID} {now back : Time} {r : Relationship}

theorem resolve_redirect (ha : a ∈ as) (hc : canonical ∉ as) (x : UUID) :
    resolve canonical as (redirect canonical a x) = resolve canonical as x := by
  unfold redirect
  split
  · next h => simp [resolve, hc, h, ha]
  · rfl

theorem folds_of_collapses (ha : a ∈ as) (hc : canonical ∉ as) (h : collapses canonical a r) :
    Folds canonical as r := by
  have := congrArg (resolve canonical as) (collapses_iff.mp h)
  rwa [resolve_redirect ha hc, resolve_redirect ha hc] at this

/-- A merge does not change where the ends go. -/
theorem resolve_mergeRow (now : Time) (opId : UUID) (r : Relationship) (ha : a ∈ as) (hc : canonical ∉ as) :
    resolve canonical as (mergeRow now opId canonical a r).sourceEntityId =
        resolve canonical as r.sourceEntityId ∧
      resolve canonical as (mergeRow now opId canonical a r).targetEntityId =
        resolve canonical as r.targetEntityId := by
  by_cases hs : selected a r
  · by_cases hcol : collapses canonical a r
    · rw [mergeRow_collapsed hs hcol]
      exact ⟨rfl, rfl⟩
    · rw [mergeRow_repointed hs hcol]
      exact ⟨resolve_redirect ha hc _, resolve_redirect ha hc _⟩
  · rw [mergeRow_of_not_selected hs]
    exact ⟨rfl, rfl⟩

theorem mergeRow_type : (mergeRow now opId canonical a r).relationshipType =
    r.relationshipType := by
  unfold mergeRow rewrite
  split
  · dsimp only
    split <;> rfl
  · rfl

theorem folds_of_joins (h : Joins as r) : Folds canonical as r := by
  simp [Folds, resolve, h.1, h.2.1]

theorem joins_of_folds (hs : selected a r) (hcol : ¬ collapses canonical a r) (h : Folds canonical (a::as) r) : Joins (a::as) r := by
  unfold Folds resolve at h
  unfold Joins
  rcases repointed hs hcol with ⟨hsa, hta, htc, -, -⟩ | ⟨hta, hsa, hsc, -, -⟩ <;> grind

theorem folds_cons_of_not_selected (canonical : UUID) (as : List UUID)
    (hn : r.invalidatedAt = none) (hs : ¬ selected a r) :
    resolve canonical (a::as) r.sourceEntityId = resolve canonical as r.sourceEntityId ∧
      resolve canonical (a::as) r.targetEntityId = resolve canonical as r.targetEntityId := by
  rw [selected_iff] at hs
  unfold Relationship.touches at hs
  unfold resolve
  grind

/-- An edge whose ends go to one node is invalidated. -/
theorem mergedRow_folds (hc : canonical ∉ as) (h : Recorded as r) (hf : Folds canonical as r) :
    (mergedRow now opId canonical as r).invalidatedAt = some now := by
  induction as with
  | nil => exact absurd h.2 (by simp)
  | cons a as ih =>
    have hc' : canonical ∉ as := fun h => hc (by simp [h])
    rw [mergedRow, List.foldl_cons]
    change (mergedRow now opId canonical as _).invalidatedAt = _
    by_cases hs : selected a r
    · by_cases hcol : collapses canonical a r
      · rw [mergeRow_collapsed hs hcol, mergedRow_of_not_recorded not_recorded_invalidate]
        rfl
      · have hr := (recorded_after_repoint now hc' hs hcol).mpr
          (joins_of_folds hs hcol hf)
        rw [mergeRow_repointed hs hcol,
          (edge_at_survivor now opId hc' (repointed_touches hs hcol) hr).1]
        rfl
    · obtain ⟨hsrc, htgt⟩ := folds_cons_of_not_selected canonical as h.1 hs
      rw [mergeRow_of_not_selected hs]
      refine ih hc' ((recorded_cons.mp h).resolve_left hs) ?_
      rwa [Folds, hsrc, htgt] at hf

/-- Any other edge at a member ends where its ends go. -/
theorem mergedRow_moves (hc : canonical ∉ as) (h : Recorded as r) (hf : ¬ Folds canonical as r) :
    mergedRow now opId canonical as r = repoint now (resolve canonical as r.sourceEntityId)
      (resolve canonical as r.targetEntityId) r := by
  induction as with
  | nil => exact absurd h.2 (by simp)
  | cons a as ih =>
    have hc' : canonical ∉ as := fun h => hc (by simp [h])
    rw [mergedRow, List.foldl_cons]
    change mergedRow now opId canonical as _ = _
    by_cases hs : selected a r
    · have hcol : ¬ collapses canonical a r :=
        fun hcol => hf (folds_of_collapses (by simp) hc hcol)
      have hj : ¬ Joins (a::as) r := fun hj => hf (folds_of_joins hj)
      have hr := mt (recorded_after_repoint now hc' hs hcol).mp hj
      rw [mergeRow_repointed hs hcol, mergedRow_of_not_recorded hr]
      unfold Joins at hj
      unfold resolve
      rcases repointed hs hcol with ⟨hsa, hta, htc, hns, hnt⟩ | ⟨hta, hsa, hsc, hns, hnt⟩
      · rw [hns, hnt, if_pos (by simp [hsa]), if_neg (by grind)]
      · rw [hns, hnt, if_neg (by grind), if_pos (by simp [hta])]
    · obtain ⟨hsrc, htgt⟩ := folds_cons_of_not_selected canonical as h.1 hs
      rw [mergeRow_of_not_selected hs, hsrc, htgt]
      refine ih hc' ((recorded_cons.mp h).resolve_left hs) ?_
      rwa [Folds, hsrc, htgt] at hf

/-- An edge between two members comes back with other ends. -/
theorem joined_row_moved (now back : Time) (opId : UUID) (hc : canonical ∉ as) (hn : r.invalidatedAt = none) (hj : Joins as r) :
    (unmergedRow now opId canonical back as r
        (mergedRow now opId canonical as r)).sourceEntityId ≠ r.sourceEntityId ∨
      (unmergedRow now opId canonical back as r
        (mergedRow now opId canonical as r)).targetEntityId ≠ r.targetEntityId := by
  induction as with
  | nil => exact absurd hj.1 (by simp)
  | cons a as ih =>
    have hc' : canonical ∉ as := fun h => hc (by simp [h])
    rw [mergedRow, List.foldl_cons, unmergedRow]
    change (unmergedRow now opId canonical back as _ (unmergeRow opId canonical back
      a r (mergedRow now opId canonical as _))).sourceEntityId ≠ _ ∨
      (unmergedRow now opId canonical back as _ (unmergeRow opId canonical back
      a r (mergedRow now opId canonical as _))).targetEntityId ≠ _
    by_cases hs : selected a r
    · have hcol : ¬ collapses canonical a r := fun h => not_joins_of_collapses hc hs h hj
      rw [mergeRow_repointed hs hcol]
      have hr := (recorded_after_repoint now hc' hs hcol).mpr hj
      obtain ⟨hm, hu⟩ := edge_at_survivor now opId hc' (repointed_touches hs hcol) hr
      rw [hm, hu _ _ (by exact unmergeRow_id)]
      have := repointed_moves (fun h => hc (by simp [h])) hs hcol
      unfold putBack
      split <;> exact this
    · rw [mergeRow_of_not_selected hs, unmergeRow_of_not_selected hs]
      exact ih hc' ((joins_cons hs).mp ⟨hn, hj⟩).2

end Row

section Record

variable {cfg : DreamConfig} {judge : CandidatePair → Decision} {now : Time}
variable {opId canonical : UUID} {as : List UUID} {entry : MergeEntry} {c : Content}
variable {r : Relationship}

theorem mem_previous (ha : authorised (maybeRunVerifier cfg judge entry))
    (hr : r ∈ c.relationships) {prev : PreviousRelationship} (hp : prev.id = r.id) :
    prev ∈ (applyMerge cfg judge now opId entry c).2.previousRelationships ↔
      selected entry.absorbedId r ∧ prev = snapshot r := by
  simp only [applyMerge, ha, if_true, selectRelationshipsTouching]
  constructor
  · intro h
    obtain ⟨s, hs, rfl⟩ := List.mem_map.mp h
    obtain ⟨hmem, hsel⟩ := List.mem_filter.mp hs
    rw [← c.relationship_ext hmem hr hp]
    exact ⟨hsel, rfl⟩
  · rintro ⟨hsel, rfl⟩
    exact List.mem_map_of_mem (List.mem_filter.mpr ⟨hr, hsel⟩)

theorem mem_self_loops (ha : authorised (maybeRunVerifier cfg judge entry))
    (hr : r ∈ c.relationships) :
    r.id ∈ (applyMerge cfg judge now opId entry c).2.selfLoopsInvalidated ↔
      selected entry.absorbedId r ∧ collapses entry.canonicalId entry.absorbedId r := by
  simp only [applyMerge, ha, if_true, selectRelationshipsTouching]
  constructor
  · intro h
    obtain ⟨s, hs, hid⟩ := List.mem_map.mp h
    obtain ⟨hsel, hcol⟩ := List.mem_filter.mp hs
    obtain ⟨hmem, hsel⟩ := List.mem_filter.mp hsel
    rw [← c.relationship_ext hmem hr hid]
    exact ⟨hsel, hcol⟩
  · rintro ⟨hsel, hcol⟩
    exact List.mem_map_of_mem (List.mem_filter.mpr ⟨List.mem_filter.mpr ⟨hr, hsel⟩, hcol⟩)

theorem mem_mergeInvalidates (ha : authorised (maybeRunVerifier cfg judge entry))
    (hr : r ∈ c.relationships) (hmem : entry.absorbedId ∈ as) (hc : entry.canonicalId ∉ as) :
    r.id ∈ mergeInvalidates (resolve entry.canonicalId as)
        (applyMerge cfg judge now opId entry c).2 ↔
      selected entry.absorbedId r ∧ Folds entry.canonicalId as r := by
  rw [mergeInvalidates, List.mem_append, mem_self_loops ha hr]
  constructor
  · rintro (⟨hsel, hcol⟩ | h)
    · exact ⟨hsel, folds_of_collapses hmem hc hcol⟩
    · obtain ⟨prev, hp, hid⟩ := List.mem_map.mp h
      obtain ⟨hp, hloop⟩ := List.mem_filter.mp hp
      obtain ⟨hsel, rfl⟩ := (mem_previous ha hr hid).mp hp
      simp only [becomesLoop, Bool.and_eq_true, decide_eq_true_eq] at hloop
      exact ⟨hsel, hloop.2⟩
  · rintro ⟨hsel, hf⟩
    by_cases hcol : collapses entry.canonicalId entry.absorbedId r
    · exact Or.inl ⟨hsel, hcol⟩
    · refine Or.inr (List.mem_map.mpr ⟨snapshot r, List.mem_filter.mpr
        ⟨(mem_previous ha hr rfl).mpr ⟨hsel, rfl⟩, ?_⟩, rfl⟩)
      have hself : (snapshot r).id ∉
          (applyMerge cfg judge now opId entry c).2.selfLoopsInvalidated :=
        fun h => hcol ((mem_self_loops ha hr).mp h).2
      simp only [becomesLoop, Bool.and_eq_true, decide_eq_true_eq]
      exact ⟨hself, hf⟩

theorem mem_mergeRewrites (ha : authorised (maybeRunVerifier cfg judge entry))
    (hr : r ∈ c.relationships) (hmem : entry.absorbedId ∈ as) (hc : entry.canonicalId ∉ as)
    {rw : Rewrite} (hid : rw.relationshipId = r.id) :
    rw ∈ mergeRewrites (resolve entry.canonicalId as)
        (applyMerge cfg judge now opId entry c).2 ↔
      selected entry.absorbedId r ∧ ¬ Folds entry.canonicalId as r ∧
        rw = rewriteOf (resolve entry.canonicalId as) (snapshot r) := by
  constructor
  · intro h
    obtain ⟨prev, hp, rfl⟩ := List.mem_map.mp h
    obtain ⟨hp, hmoves⟩ := List.mem_filter.mp hp
    obtain ⟨hsel, rfl⟩ := (mem_previous ha hr hid).mp hp
    simp only [moves, Bool.and_eq_true, decide_eq_true_eq] at hmoves
    exact ⟨hsel, hmoves.1.2, rfl⟩
  · rintro ⟨hsel, hf, rfl⟩
    refine List.mem_map_of_mem (List.mem_filter.mpr
      ⟨(mem_previous ha hr rfl).mpr ⟨hsel, rfl⟩, ?_⟩)
    have hself : (snapshot r).id ∉
        (applyMerge cfg judge now opId entry c).2.selfLoopsInvalidated :=
      fun h => hf (folds_of_collapses hmem hc ((mem_self_loops ha hr).mp h).2)
    have hmoved : ¬ (resolve entry.canonicalId as r.sourceEntityId = r.sourceEntityId ∧
        resolve entry.canonicalId as r.targetEntityId = r.targetEntityId) := by
      have := (selected_iff.mp hsel).1
      unfold Relationship.touches at this
      unfold resolve
      grind
    simp only [moves, Bool.and_eq_true, decide_eq_true_eq, Bool.not_eq_true', Bool.and_eq_false_iff,
      decide_eq_false_iff_not]
    exact ⟨⟨hself, hf⟩, not_and_or.mp hmoved⟩

end Record

section Records

variable (cfg : DreamConfig) (judge : CandidatePair → Decision) (now : Time) (opId : UUID)

def records (entries : List MergeEntry) (c : Content) : List MergeRecord :=
  (applyMerges cfg judge now opId entries c).2.filter MergeRecord.applied

variable {cfg judge now opId} {canonical : UUID} {as : List UUID} {entries : List MergeEntry}
variable {c : Content} {r : Relationship}

theorem records_cons (m : MergeEntry) (ms : List MergeEntry) :
    records cfg judge now opId (m::ms) c =
      if authorised (maybeRunVerifier cfg judge m) then
        (applyMerge cfg judge now opId m c).2::
          records cfg judge now opId ms (applyMerge cfg judge now opId m c).1
      else records cfg judge now opId ms c := by
  rw [records, applyMerges]
  dsimp only
  rw [List.filter_cons, record_applied]
  split
  · rfl
  · next h => rw [applyMerge_refused c h]; rfl

theorem records_absorbed (cfg : DreamConfig) (judge : CandidatePair → Decision) (now : Time)
    (opId : UUID) (entries : List MergeEntry) (c : Content) :
    (records cfg judge now opId entries c).map MergeRecord.absorbedId =
      applied cfg judge entries := by
  induction entries generalizing c with
  | nil => rfl
  | cons m ms ih =>
    rw [records_cons, applied_cons]
    split
    · next h => rw [List.map_cons, ih]; simp [applyMerge, h]
    · exact ih c

theorem records_canonical (hcan : ∀ m ∈ entries, m.canonicalId = canonical) (c : Content) :
    ∀ m ∈ records cfg judge now opId entries c, m.canonicalId = canonical := by
  induction entries generalizing c with
  | nil => exact fun _ h => nomatch h
  | cons m ms ih =>
    have hms : ∀ n ∈ ms, n.canonicalId = canonical := fun n h => hcan n (by simp [h])
    rw [records_cons]
    split
    · next h =>
      intro n hn
      rcases List.mem_cons.mp hn with rfl | hn
      · simp [applyMerge, h, hcan m (by simp)]
      · exact ih hms _ n hn
    · exact ih hms c

theorem absorbedToCanonical_records (cfg : DreamConfig) (judge : CandidatePair → Decision)
    (now : Time) (opId : UUID) (hcan : ∀ m ∈ entries, m.canonicalId = canonical)
    (c : Content) : absorbedToCanonical (records cfg judge now opId entries c) =
      resolve canonical (applied cfg judge entries) := by
  funext x
  rw [← records_absorbed cfg judge now opId entries c, absorbedToCanonical, resolve]
  cases hx : (records cfg judge now opId entries c).reverse.find? (fun m => m.absorbedId = x) with
  | none =>
    rw [if_neg]
    intro h
    obtain ⟨m, hm, hid⟩ := List.mem_map.mp h
    have := List.find?_eq_none.mp hx m (List.mem_reverse.mpr hm)
    simp [hid] at this
  | some m =>
    have hm := List.mem_reverse.mp (List.mem_of_find?_eq_some hx)
    have hid : m.absorbedId = x := by simpa using List.find?_some hx
    rw [if_pos (hid ▸ List.mem_map_of_mem hm)]
    exact records_canonical hcan c m hm

/-- What every merge writes into its record for a row it selects, and `Inv` says
of that row all along, is in the records exactly when the row is recorded. -/
theorem mem_records {β : Type} (g : MergeRecord → List β) (b : β) (Q : Prop) (as : List UUID)
    (Inv : Relationship → Prop)
    (hone : ∀ m : MergeEntry, authorised (maybeRunVerifier cfg judge m) →
      m.canonicalId = canonical → m.absorbedId ∈ as → ∀ (c : Content) (r : Relationship),
        r ∈ c.relationships → Inv r →
          (b ∈ g (applyMerge cfg judge now opId m c).2 ↔ selected m.absorbedId r ∧ Q))
    (hstep : ∀ a ∈ as, ∀ r, Inv r → Inv (mergeRow now opId canonical a r))
    (hcan : ∀ m ∈ entries, m.canonicalId = canonical)
    (hsub : ∀ a ∈ applied cfg judge entries, a ∈ as) (hr : r ∈ c.relationships) (hi : Inv r) :
    b ∈ (records cfg judge now opId entries c).flatMap g ↔
      Recorded (applied cfg judge entries) r ∧ Q := by
  induction entries generalizing c r with
  | nil => simp [records, applyMerges, applied, Recorded]
  | cons m ms ih =>
    have hms : ∀ n ∈ ms, n.canonicalId = canonical := fun n h => hcan n (by simp [h])
    have hm := hcan m (by simp)
    rw [applied_cons] at hsub ⊢
    rw [records_cons]
    by_cases ha : authorised (maybeRunVerifier cfg judge m)
    · rw [if_pos ha] at hsub ⊢
      rw [if_pos ha, List.flatMap_cons, List.mem_append, recorded_cons]
      have hmem := hsub _ List.mem_cons_self
      have hr' : mergeRow now opId canonical m.absorbedId r ∈
          (applyMerge cfg judge now opId m c).1.relationships := by
        rw [applyMerge_relationships c ha, hm]
        exact List.mem_map_of_mem hr
      rw [hone m ha hm hmem c r hr hi,
        ih hms (fun a h => hsub a (by simp [h])) hr' (hstep _ hmem r hi)]
      by_cases hs : selected m.absorbedId r
      · simp only [hs, true_and, true_or]
        exact ⟨fun h => h.elim id And.right, Or.inl⟩
      · rw [mergeRow_of_not_selected hs]
        simp [hs]
    · rw [if_neg ha] at hsub ⊢
      rw [if_neg ha]
      exact ih hms hsub hr hi

theorem mem_invalidates (hcan : ∀ m ∈ entries, m.canonicalId = canonical)
    (hc : canonical ∉ applied cfg judge entries) (hr : r ∈ c.relationships) :
    r.id ∈ (records cfg judge now opId entries c).flatMap
        (mergeInvalidates (resolve canonical (applied cfg judge entries))) ↔
      Recorded (applied cfg judge entries) r ∧ Folds canonical (applied cfg judge entries) r := by
  refine mem_records _ _ _ (applied cfg judge entries) (fun s => s.id = r.id ∧
    (Folds canonical (applied cfg judge entries) s ↔
      Folds canonical (applied cfg judge entries) r)) ?_ ?_ hcan (fun _ h => h) hr ⟨rfl, Iff.rfl⟩
  · rintro m ha rfl hmem d s hs ⟨hid, hf⟩
    rw [← hid, mem_mergeInvalidates ha hs hmem hc, hf]
  · rintro a ha s ⟨hid, hf⟩
    refine ⟨mergeRow_id.trans hid, ?_⟩
    rw [← hf, Folds, (resolve_mergeRow _ _ _ ha hc).1, (resolve_mergeRow _ _ _ ha hc).2]
    rfl

theorem mem_rewrites (hcan : ∀ m ∈ entries, m.canonicalId = canonical)
    (hc : canonical ∉ applied cfg judge entries) (hr : r ∈ c.relationships) {rw : Rewrite}
    (hid : rw.relationshipId = r.id) :
    rw ∈ (records cfg judge now opId entries c).flatMap
        (mergeRewrites (resolve canonical (applied cfg judge entries))) ↔
      Recorded (applied cfg judge entries) r ∧ ¬ Folds canonical (applied cfg judge entries) r ∧
        rw = rewriteOf (resolve canonical (applied cfg judge entries)) (snapshot r) := by
  refine mem_records _ _ _ (applied cfg judge entries) (fun s => s.id = r.id ∧
    (Folds canonical (applied cfg judge entries) s ↔
      Folds canonical (applied cfg judge entries) r) ∧
    rewriteOf (resolve canonical (applied cfg judge entries)) (snapshot s) =
      rewriteOf (resolve canonical (applied cfg judge entries)) (snapshot r)) ?_ ?_ hcan
    (fun _ h => h) hr ⟨rfl, Iff.rfl, rfl⟩
  · rintro m ha rfl hmem d s hs ⟨hid', hf, hrw⟩
    rw [mem_mergeRewrites ha hs hmem hc (hid.trans hid'.symm), hf, hrw]
  · rintro a ha s ⟨hid', hf, hrw⟩
    obtain ⟨hsrc, htgt⟩ := resolve_mergeRow now opId s ha hc
    refine ⟨mergeRow_id.trans hid', ?_, ?_⟩
    · rw [← hf, Folds, hsrc, htgt]
      rfl
    · rw [← hrw]
      simp only [rewriteOf, snapshot]
      rw [hsrc, htgt, mergeRow_id, mergeRow_type]

theorem mem_snapshots (cfg : DreamConfig) (judge : CandidatePair → Decision) (now : Time)
    (opId : UUID) (hcan : ∀ m ∈ entries, m.canonicalId = canonical)
    (hr : r ∈ c.relationships) :
    (∃ prev ∈ (records cfg judge now opId entries c).flatMap MergeRecord.previousRelationships,
      prev.id = r.id) ↔ Recorded (applied cfg judge entries) r := by
  have h : r.id ∈ (records cfg judge now opId entries c).flatMap
      (fun m => m.previousRelationships.map PreviousRelationship.id) ↔
      Recorded (applied cfg judge entries) r ∧ True := by
    refine mem_records _ _ _ (applied cfg judge entries) (fun s => s.id = r.id) ?_ ?_ hcan
      (fun _ h => h) hr rfl
    · rintro m ha - - d s hs hid
      rw [← hid, and_true, List.mem_map]
      constructor
      · rintro ⟨prev, hp, hpid⟩
        exact ((mem_previous ha hs hpid).mp hp).1
      · exact fun hsel => ⟨snapshot s, (mem_previous ha hs rfl).mpr ⟨hsel, rfl⟩, rfl⟩
    · exact fun a _ s hid => mergeRow_id.trans hid
  rw [and_true] at h
  rw [← h]
  simp only [List.mem_flatMap, List.mem_map]
  grind

/-- An edge that is moved has one snapshot, the one of its first state. -/
theorem snapshotOf_moved (hcan : ∀ m ∈ entries, m.canonicalId = canonical)
    (hc : canonical ∉ applied cfg judge entries) (hr : r ∈ c.relationships)
    (hf : ¬ Folds canonical (applied cfg judge entries) r) {prev : PreviousRelationship}
    (hp : prev ∈ (records cfg judge now opId entries c).flatMap
      MergeRecord.previousRelationships) (hid : prev.id = r.id) : prev = snapshot r := by
  induction entries generalizing c with
  | nil => simp [records, applyMerges] at hp
  | cons m ms ih =>
    have hms : ∀ n ∈ ms, n.canonicalId = canonical := fun n h => hcan n (by simp [h])
    have hm := hcan m (by simp)
    rw [applied_cons] at hc hf
    rw [records_cons] at hp
    by_cases ha : authorised (maybeRunVerifier cfg judge m)
    · rw [if_pos ha] at hc hf hp
      have hc' : canonical ∉ applied cfg judge ms := fun h => hc (by simp [h])
      rw [List.flatMap_cons, List.mem_append] at hp
      have hr' : mergeRow now opId canonical m.absorbedId r ∈
          (applyMerge cfg judge now opId m c).1.relationships := by
        rw [applyMerge_relationships c ha, hm]
        exact List.mem_map_of_mem hr
      by_cases hs : selected m.absorbedId r
      · rcases hp with hp | hp
        · exact ((mem_previous ha hr hid).mp hp).2
        · have hrec := (mem_snapshots _ _ _ _ hms hr').mp ⟨prev, hp, hid.trans mergeRow_id.symm⟩
          have hcol : ¬ collapses canonical m.absorbedId r :=
            fun hcol => hf (folds_of_collapses (by simp) hc hcol)
          rw [mergeRow_repointed hs hcol] at hrec
          exact absurd (folds_of_joins ((recorded_after_repoint now hc' hs hcol).mp hrec)) hf
      · rw [mergeRow_of_not_selected hs] at hr'
        rcases hp with hp | hp
        · exact ((mem_previous ha hr hid).mp hp).2
        · have hrec := (mem_snapshots _ _ _ _ hms hr').mp ⟨prev, hp, hid⟩
          have hends := folds_cons_of_not_selected canonical (applied cfg judge ms)
            hrec.1 hs
          refine ih hms hc' hr' ?_ hp
          rwa [Folds, hends.1, hends.2] at hf
    · rw [if_neg ha] at hc hf hp
      exact ih hms hc hr hf hp

end Records

end Uru.Dream
