import Uru.Dream.DedupePlan

/-!
# Components and classes

The components of a bucket are the classes of the indices that its scored pairs
join, and the operation of a component names each member once. Across the
buckets no entity is named twice, since each bucket holds the entities of one
type.
-/

set_option autoImplicit false

namespace Uru.Dream.DedupePlan

open Uru.Storage Uru.Lib Relation

section Components

variable {pairs : List Pair}

def Joined (pairs : List Pair) : ℕ → ℕ → Prop := EqvGen (fun i j => (i,j) ∈ edges pairs)

theorem mem_touched {i : ℕ} :
    i ∈ touched pairs ↔ ∃ p ∈ edges pairs, i = p.1 ∨ i = p.2 := by
  simp [touched, mem_sortOn, List.mem_flatMap]

theorem touched_nodup (pairs : List Pair) : (touched pairs).Nodup :=
  (sortOn_perm id _).nodup_iff.mpr (List.nodup_dedup _)

theorem joined_touched {i j : ℕ} (h : Joined pairs i j) :
    i ∈ touched pairs ↔ j ∈ touched pairs := by
  induction h with
  | rel i j hij =>
    exact iff_of_true (mem_touched.mpr ⟨_, hij, .inl rfl⟩) (mem_touched.mpr ⟨_, hij, .inr rfl⟩)
  | refl i => exact Iff.rfl
  | symm i j _ ih => exact ih.symm
  | trans i j k _ _ hij hjk => exact hij.trans hjk

theorem mem_components {c : List ℕ} : c ∈ connectedComponents pairs ↔
    ∃ i ∈ touched pairs, c = (touched pairs).filter
      (fun j => ((Forest.singletons ℕ).unions (edges pairs)).root j =
        ((Forest.singletons ℕ).unions (edges pairs)).root i) := by
  simp [connectedComponents, mem_sortOn, eq_comm]

theorem component_joined {c : List ℕ} (hc : c ∈ connectedComponents pairs) {i j : ℕ}
    (hi : i ∈ c) : j ∈ c ↔ Joined pairs i j := by
  obtain ⟨k, _, rfl⟩ := mem_components.mp hc
  rw [List.mem_filter, decide_eq_true_eq, Forest.unions_same] at hi ⊢
  constructor
  · rintro ⟨_, hjk⟩
    exact hi.2.trans _ _ _ hjk.symm
  · intro hij
    exact ⟨(joined_touched hij).mp hi.1, hij.symm.trans _ _ _ hi.2⟩

theorem component_exists {i : ℕ} (hi : i ∈ touched pairs) :
    ∃ c ∈ connectedComponents pairs, i ∈ c :=
  ⟨_, mem_components.mpr ⟨i, hi, rfl⟩, List.mem_filter.mpr ⟨hi, decide_eq_true rfl⟩⟩

theorem component_touched {c : List ℕ} (hc : c ∈ connectedComponents pairs) {i : ℕ}
    (hi : i ∈ c) : i ∈ touched pairs := by
  obtain ⟨k, _, rfl⟩ := mem_components.mp hc
  exact (List.mem_filter.mp hi).1

theorem component_nonempty {c : List ℕ} (hc : c ∈ connectedComponents pairs) : c ≠ [] := by
  obtain ⟨k, hk, rfl⟩ := mem_components.mp hc
  exact List.ne_nil_of_mem (List.mem_filter.mpr ⟨hk, decide_eq_true rfl⟩)

theorem components_nodup (pairs : List Pair) : (connectedComponents pairs).flatten.Nodup := by
  have hroots := List.nodup_dedup ((touched pairs).map
    ((Forest.singletons ℕ).unions (edges pairs)).root)
  unfold connectedComponents
  rw [(sortOn_perm _ _).flatten.nodup_iff, List.nodup_flatten]
  constructor
  · intro c hc
    obtain ⟨r, _, rfl⟩ := List.mem_map.mp hc
    exact (touched_nodup pairs).filter _
  · refine List.pairwise_map.mpr (hroots.imp (fun {r s} hrs i hi hj => hrs ?_))
    rw [List.mem_filter, decide_eq_true_eq] at hi hj
    exact hi.2.symm.trans hj.2

end Components

section Members

theorem pickCanonical_mem (head : Candidate) (rest : List Candidate) :
    pickCanonical head rest ∈ head::rest := by
  induction rest generalizing head with
  | nil => exact List.mem_singleton.mpr rfl
  | cons e rest ih =>
    have hcases : pickCanonical head (e::rest) = pickCanonical head rest ∨
        pickCanonical head (e::rest) = pickCanonical e rest := by
      simp only [pickCanonical, List.foldl_cons]
      split
      · exact .inr rfl
      · exact .inl rfl
    have hhead := ih head
    have he := ih e
    grind

/-- The survivor and the absorbed entities are the members, each once. -/
theorem componentOp_members (entityType : String) (threshold : ℚ) (head : Candidate)
    (rest : List Candidate) (memberIndices : List ℕ) (bestScore : List ((ℕ × ℕ) × ℚ))
    (byNameType : List Candidate) (hids : ((head::rest).map (fun e => e.id)).Nodup) :
    (buildComponentOp entityType threshold head rest memberIndices bestScore
      byNameType).memberIds.Perm ((head::rest).map (fun e => e.id)) := by
  have hmem : (pickCanonical head rest).id ∈ (head::rest).map (fun e => e.id) :=
    List.mem_map_of_mem (pickCanonical_mem head rest)
  have hdrop : ((head::rest).filter (fun m => m.id ≠ (pickCanonical head rest).id)).map
      (fun m => m.id) = ((head::rest).map (fun e => e.id)).erase (pickCanonical head rest).id := by
    rw [hids.erase_eq_filter, List.filter_map]
    exact congrArg _ (List.filter_congr (fun m _ => by simp [bne, beq_eq_decide]))
  change ((pickCanonical head rest).id::((head::rest).filter
    (fun m => m.id ≠ (pickCanonical head rest).id)).map (fun m => m.id)).Perm _
  rw [hdrop]
  exact (List.perm_cons_erase hmem).symm

theorem pickCanonical_le (head : Candidate) (rest : List Candidate) {e : Candidate}
    (he : e ∈ head::rest) : rank (pickCanonical head rest).toEntity ≤ rank e.toEntity := by
  induction rest generalizing head e with
  | nil => rw [List.mem_singleton.mp he, pickCanonical, List.foldl_nil]
  | cons b rest ih =>
    rw [pickCanonical, List.foldl_cons]
    split
    · next hlt =>
      have hb := ih b List.mem_cons_self
      rcases List.mem_cons.mp he with rfl | he
      · exact hb.trans hlt.le
      · exact ih b he
    · next hge =>
      have hhead := ih head List.mem_cons_self
      rcases List.mem_cons.mp he with rfl | he
      · exact hhead
      · rcases List.mem_cons.mp he with rfl | he
        · exact hhead.trans (not_lt.mp hge)
        · exact ih head (List.mem_cons_of_mem _ he)

theorem mem_unionIds (ids : Candidate → List UUID) (members : List Candidate) (x : UUID) :
    x ∈ unionIds ids members ↔ ∃ e ∈ members, x ∈ ids e := by
  have hfold : ∀ l out : List UUID,
      x ∈ l.foldl (fun out id => if id ∈ out then out else out++[id]) out ↔ x ∈ out ∨ x ∈ l := by
    intro l
    induction l with
    | nil => simp
    | cons id l ih =>
      intro out
      rw [List.foldl_cons, ih]
      split
      · next hid =>
        constructor
        · exact Or.imp_right (List.mem_cons_of_mem id)
        · rintro (h | h)
          · exact .inl h
          · rcases List.mem_cons.mp h with rfl | h
            · exact .inl hid
            · exact .inr h
      · simp only [List.mem_append, List.mem_cons, List.not_mem_nil, or_false, or_assoc]
  rw [unionIds, hfold, List.mem_flatMap]
  simp

structure Absorbs (M : Candidate → Prop) (op : DreamOp) (m : MergeEntry) : Prop where
  canonicalId : m.canonicalId = op.keepId
  canonicalName : m.canonicalName = op.survivingName
  entityType : m.entityType = op.entityType
  absorbed : ∃ e, M e ∧ e.id = m.absorbedId ∧ e.name = m.absorbedName
  documents : ∀ x, x ∈ m.mergedSourceDocumentIds ↔ ∃ e, M e ∧ x ∈ e.sourceDocumentIds
  chunks : ∀ x, x ∈ m.mergedSourceChunkIds ↔ ∃ e, M e ∧ x ∈ e.sourceChunkIds

/-- The first member by rank survives. The operation is for review just when an
entity outside `M` has the name and type of the survivor, and otherwise absorbs
the dropped members, one entry each. -/
structure Consolidates (entities : List Candidate) (M : Candidate → Prop) (op : DreamOp) :
    Prop where
  survivor : ∃ k, M k ∧ k.id = op.keepId ∧ k.name = op.survivingName ∧
    k.entityType = op.entityType ∧ ∀ e, M e → rank k.toEntity ≤ rank e.toEntity
  reviewed : (∃ id name, op.decision = .skipUniqueCollision id name) ↔
    ∃ e ∈ entities, e.name = op.survivingName ∧ e.entityType = op.entityType ∧ ¬ M e
  absorbs : ∀ s merges, op.decision = .planned s merges →
    merges.map MergeEntry.absorbedId = op.dropIds ∧ ∀ m ∈ merges, Absorbs M op m

theorem componentOp_consolidates (entityType : String) (threshold : ℚ) (head : Candidate)
    (rest : List Candidate) (memberIndices : List ℕ) (bestScore : List ((ℕ × ℕ) × ℚ))
    {byNameType : List Candidate} (hids : (byNameType.map (fun e => e.id)).Nodup)
    (hmem : ∀ e ∈ head::rest, e ∈ byNameType ∧ e.entityType = entityType) :
    Consolidates byNameType (· ∈ head::rest) (buildComponentOp entityType threshold head rest
      memberIndices bestScore byNameType) := by
  have hcanonical := pickCanonical_mem head rest
  have hout : ∀ e ∈ byNameType, e.id ∉ (head::rest).map (fun m => m.id) ↔ e ∉ head::rest := by
    intro e he
    refine not_congr ⟨fun hid => ?_, fun hm => List.mem_map_of_mem hm⟩
    obtain ⟨m, hm, heq⟩ := List.mem_map.mp hid
    exact List.inj_on_of_nodup_map hids (hmem m hm).1 he heq ▸ hm
  constructor
  case survivor =>
    exact ⟨_, hcanonical, rfl, rfl, (hmem _ hcanonical).2, fun e he => pickCanonical_le head rest he⟩
  case reviewed =>
    dsimp only [buildComponentOp]
    split
    · next e he =>
      refine iff_of_true ⟨_, _, rfl⟩ ⟨e, ?_⟩
      obtain ⟨hb, hname⟩ := List.mem_filter.mp (List.mem_of_find?_eq_some he)
      have hname := of_decide_eq_true hname
      exact ⟨hb, hname.1, hname.2, (hout e hb).mp (by simpa using List.find?_some he)⟩
    · next hnone =>
      refine iff_of_false (by simp) ?_
      rintro ⟨e, hb, hname, htype, hm⟩
      have hfound := List.find?_eq_none.mp hnone e
        (List.mem_filter.mpr ⟨hb, decide_eq_true ⟨hname, htype⟩⟩)
      exact hfound (by simpa using (hout e hb).mpr hm)
  case absorbs =>
    dsimp only [buildComponentOp]
    split
    · exact fun s merges h => by cases h
    · intro s merges h
      obtain ⟨-, rfl⟩ := Outcome.planned.inj h
      refine ⟨by simp [List.map_map, Function.comp_def], fun m hm => ?_⟩
      obtain ⟨e, he, rfl⟩ := List.mem_map.mp hm
      exact ⟨rfl, rfl, rfl, ⟨e, (List.mem_filter.mp he).1, rfl, rfl⟩,
        mem_unionIds _ _, mem_unionIds _ _⟩

end Members

end Uru.Dream.DedupePlan
