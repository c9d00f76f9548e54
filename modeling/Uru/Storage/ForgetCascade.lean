import Uru.Storage.ForgetStore

/-!
# The forget cascade

The rows that list the forgotten document are split into orphans, which list
nothing else, and survivors. The split is read off the authoritative store
and carried out in it and in its mirror: orphans are deleted, entities with
the edges at them, and survivors are stripped of the document.
-/

set_option autoImplicit false

namespace Uru.Storage

/-- The authoritative store and the store it is mirrored to, if there is one
with the primitives. -/
structure Stores where
  primary : Content
  mirror : Option Content

def Stores.both (P M : Adapter) (f : Adapter → Content → Content) (s : Stores) : Stores :=
  { primary := f P s.primary, mirror := s.mirror.map (f M) }

def scanLimit : ℕ := 100000

def isOrphan (d : UUID) (sources : List UUID) : Bool := d ∈ sources ∧ sources.length = 1

def isSurvivor (d : UUID) (sources : List UUID) : Bool := d ∈ sources ∧ 1 < sources.length

variable (P M : Adapter)

def scannedEntities (now : Time) (s : Stores) : List Entity :=
  listEntities P now scanLimit s.primary

/-- The relationships are read off the mirror when the authoritative store
lists none. -/
def readsMirror (now : Time) (s : Stores) : Bool :=
  (listRelationships now scanLimit s.primary).isEmpty && s.mirror.isSome

def Stores.held (mirror : Bool) (s : Stores) : Content :=
  if mirror then s.mirror.getD s.primary else s.primary

def scannedRelationships (now : Time) (s : Stores) : List Relationship :=
  listRelationships now scanLimit (s.held (readsMirror now s))

def orphanEntityIds (now : Time) (d : UUID) (s : Stores) : List UUID :=
  ((scannedEntities P now s).filter (fun e => isOrphan d e.sourceDocumentIds)).map Entity.id

def surviveEntityIds (now : Time) (d : UUID) (s : Stores) : List UUID :=
  ((scannedEntities P now s).filter (fun e => isSurvivor d e.sourceDocumentIds)).map Entity.id

def orphanRelationshipIds (now : Time) (d : UUID) (s : Stores) : List UUID :=
  ((scannedRelationships now s).filter (fun r => isOrphan d r.sourceDocumentIds)).map
    Relationship.id

def surviveRelationshipIds (now : Time) (d : UUID) (s : Stores) : List UUID :=
  ((scannedRelationships now s).filter (fun r => isSurvivor d r.sourceDocumentIds)).map
    Relationship.id

def cascadeForgetExtraction (now : Time) (d : UUID) (s : Stores) : Stores :=
  let orphanEnts := orphanEntityIds P now d s
  let surviveEnts := surviveEntityIds P now d s
  let orphanRels := orphanRelationshipIds now d s
  let surviveRels := surviveRelationshipIds now d s
  ((((s.both P M (fun _ => Content.deleteEntitiesBatch orphanEnts)).both P M
    (fun _ => Content.deleteRelationshipsBatch orphanRels)).both P M
    (fun A => stripDocumentFromEntities A now surviveEnts d)).both P M
    (fun A => stripDocumentFromRelationships A now surviveRels d))

section primitives

variable (A : Adapter) (now : Time) (d : UUID)

theorem not_mem_strip (sources : List UUID) : d ∉ strip d sources := by
  simp [strip]

/-- Rewrite a row that has one of the ids and still lists the document. -/
def rewriteListed {ρ : Type} (key : ρ → UUID) (sources : ρ → List UUID) (f : ρ → ρ)
    (ids : List UUID) (r : ρ) : ρ :=
  if key r ∈ ids ∧ d ∈ sources r then f r else r

theorem rewriteListed_nil {ρ : Type} (key : ρ → UUID) (sources : ρ → List UUID) (f : ρ → ρ) :
    rewriteListed d key sources f [] = id :=
  funext (fun _ => if_neg (fun h => List.not_mem_nil h.1))

theorem rewriteListed_cons {ρ : Type} {key : ρ → UUID} {sources : ρ → List UUID} {f : ρ → ρ}
    (hf : ∀ r, d ∉ sources (f r)) (i : UUID) (ids : List UUID) (r : ρ) :
    rewriteListed d key sources f ids (rewriteListed d key sources f [i] r) =
      rewriteListed d key sources f (i::ids) r := by
  by_cases hd : d ∈ sources r
  · by_cases hi : key r = i
    · have h1 : rewriteListed d key sources f [i] r = f r := if_pos ⟨by simp [hi], hd⟩
      have h2 : rewriteListed d key sources f (i::ids) r = f r := if_pos ⟨by simp [hi], hd⟩
      rw [h1, h2]
      exact if_neg (fun h => hf r h.2)
    · simp [rewriteListed, hi]
  · simp [rewriteListed, hd]

def stripEntityRow (ids : List UUID) : Entity → Entity :=
  rewriteListed d Entity.id Entity.sourceDocumentIds (strippedEntity A now d) ids

def stripRelationshipRow (ids : List UUID) : Relationship → Relationship :=
  rewriteListed d Relationship.id Relationship.sourceDocumentIds
    (strippedRelationship A now d) ids

theorem strippedEntity_sources (e : Entity) :
    (strippedEntity A now d e).sourceDocumentIds = strip d e.sourceDocumentIds :=
  (A.entity_kept _ _).sourceDocumentIds

theorem strippedRelationship_sources (r : Relationship) :
    (strippedRelationship A now d r).sourceDocumentIds = strip d r.sourceDocumentIds :=
  (A.relationship_kept _ _).sourceDocumentIds

theorem strip_entities_entities (ids : List UUID) (c : Content) :
    (stripDocumentFromEntities A now ids d c).entities =
      c.entities.map (stripEntityRow A now d ids) := by
  induction ids generalizing c with
  | nil => simp [stripDocumentFromEntities, stripEntityRow, rewriteListed_nil]
  | cons i ids ih =>
    rw [stripDocumentFromEntities, List.foldl_cons, ← stripDocumentFromEntities, ih,
      stripOneEntity, List.map_map]
    refine List.map_congr_left (fun e _ => ?_)
    have hf : ∀ e, d ∉ (strippedEntity A now d e).sourceDocumentIds := fun e =>
      strippedEntity_sources A now d e ▸ not_mem_strip d _
    rw [Function.comp_apply, stripEntityRow, stripEntityRow, ← rewriteListed_cons d hf i ids e]
    simp only [rewriteListed, List.mem_singleton]

theorem strip_entities_relationships (ids : List UUID) (c : Content) :
    (stripDocumentFromEntities A now ids d c).relationships = c.relationships := by
  induction ids generalizing c with
  | nil => rfl
  | cons i ids ih => exact ih _

theorem stripOneRelationship_entities (c : Content) (id : UUID) :
    (stripOneRelationship A now d c id).entities = c.entities := by
  unfold stripOneRelationship
  split
  · rfl
  · split <;> rfl

theorem strip_relationships_entities (ids : List UUID) (c : Content) :
    (stripDocumentFromRelationships A now ids d c).entities = c.entities := by
  induction ids generalizing c with
  | nil => rfl
  | cons i ids ih => exact (ih _).trans (stripOneRelationship_entities A now d c i)

theorem mem_stripOneRelationship (c : Content) (id : UUID) (r' : Relationship) :
    r' ∈ (stripOneRelationship A now d c id).relationships ↔
      ∃ r ∈ c.relationships, r' = stripRelationshipRow A now d [id] r := by
  have hrow : ∀ r, r.id = id → d ∈ r.sourceDocumentIds →
      stripRelationshipRow A now d [id] r = strippedRelationship A now d r :=
    fun r hi hd => if_pos ⟨by simp [hi], hd⟩
  have hsame : ∀ r, ¬ (r.id = id ∧ d ∈ r.sourceDocumentIds) →
      stripRelationshipRow A now d [id] r = r := fun r h => if_neg (by simpa using h)
  have hnone : (∀ r ∈ c.relationships, ¬ (r.id = id ∧ d ∈ r.sourceDocumentIds)) →
      (r' ∈ c.relationships ↔
        ∃ r ∈ c.relationships, r' = stripRelationshipRow A now d [id] r) := by
    intro hno
    constructor
    · exact fun hr => ⟨r', hr, (hsame r' (hno r' hr)).symm⟩
    · rintro ⟨r, hr, h⟩
      rw [hsame r (hno r hr)] at h
      exact h ▸ hr
  unfold stripOneRelationship
  split
  next hf =>
    refine hnone (fun r hr h => ?_)
    simpa using List.find?_eq_none.mp hf r hr (by simpa using h.1)
  next r₀ hf =>
    obtain ⟨hr₀, hid⟩ := find?_id hf
    by_cases hd : d ∈ r₀.sourceDocumentIds
    · rw [if_pos hd, List.mem_append, List.mem_singleton]
      constructor
      · rintro (h | h)
        · obtain ⟨hr, hne⟩ := List.mem_filter.mp h
          have hne : r'.id ≠ id := by simpa using hne
          exact ⟨r', hr, (hsame r' (fun h => hne h.1)).symm⟩
        · exact ⟨r₀, hr₀, h.trans (hrow r₀ hid hd).symm⟩
      · rintro ⟨r, hr, h⟩
        by_cases hi : r.id = id
        · have hrr : r = r₀ := c.relationship_ext hr hr₀ (hi.trans hid.symm)
          rw [hrr, hrow r₀ hid hd] at h
          exact .inr h
        · rw [hsame r (fun h => hi h.1)] at h
          exact .inl (h ▸ List.mem_filter.mpr ⟨hr, by simpa using hi⟩)
    · rw [if_neg hd]
      refine hnone (fun r hr h => hd ?_)
      have hrr : r = r₀ := c.relationship_ext hr hr₀ (h.1.trans hid.symm)
      exact hrr ▸ h.2

theorem mem_strip_relationships (ids : List UUID) (c : Content) (r' : Relationship) :
    r' ∈ (stripDocumentFromRelationships A now ids d c).relationships ↔
      ∃ r ∈ c.relationships, r' = stripRelationshipRow A now d ids r := by
  induction ids generalizing c with
  | nil => simp [stripDocumentFromRelationships, stripRelationshipRow, rewriteListed_nil]
  | cons i ids ih =>
    have hf : ∀ r, d ∉ (strippedRelationship A now d r).sourceDocumentIds := fun r =>
      strippedRelationship_sources A now d r ▸ not_mem_strip d _
    rw [stripDocumentFromRelationships, List.foldl_cons, ← stripDocumentFromRelationships, ih]
    constructor
    · rintro ⟨s, hs, h⟩
      obtain ⟨r, hr, rfl⟩ := (mem_stripOneRelationship A now d c i s).mp hs
      exact ⟨r, hr, h.trans (rewriteListed_cons d hf i ids r)⟩
    · rintro ⟨r, hr, h⟩
      exact ⟨_, (mem_stripOneRelationship A now d c i _).mpr ⟨r, hr, rfl⟩,
        h.trans (rewriteListed_cons d hf i ids r).symm⟩

end primitives

section cascade

variable (now : Time) (d : UUID) (s : Stores)

def Stores.clean (A : Adapter) (c : Content) : Content :=
  stripDocumentFromRelationships A now (surviveRelationshipIds now d s) d
    (stripDocumentFromEntities A now (surviveEntityIds P now d s) d
      ((c.deleteEntitiesBatch (orphanEntityIds P now d s)).deleteRelationshipsBatch
        (orphanRelationshipIds now d s)))

theorem cascade_primary :
    (cascadeForgetExtraction P M now d s).primary = s.clean P now d P s.primary := rfl

theorem cascade_held (b : Bool) :
    (cascadeForgetExtraction P M now d s).held b =
      s.clean P now d (if b ∧ s.mirror.isSome then M else P) (s.held b) := by
  cases b with
  | false => rfl
  | true =>
    cases hm : s.mirror with
    | none => simp [Stores.held, cascadeForgetExtraction, Stores.both, Stores.clean, hm]
    | some m => simp [Stores.held, cascadeForgetExtraction, Stores.both, Stores.clean, hm]

theorem mem_clean_entities (A : Adapter) (c : Content) (e' : Entity) :
    e' ∈ (s.clean P now d A c).entities ↔
      ∃ e ∈ c.entities, e.id ∉ orphanEntityIds P now d s ∧
        e' = stripEntityRow A now d (surviveEntityIds P now d s) e := by
  rw [Stores.clean, strip_relationships_entities, strip_entities_entities, List.mem_map]
  simp only [Content.deleteRelationshipsBatch, Content.deleteEntitiesBatch, List.mem_filter,
    decide_eq_true_eq]
  exact ⟨fun ⟨e, he, h⟩ => ⟨e, he.1, he.2, h.symm⟩, fun ⟨e, he, hn, h⟩ => ⟨e, ⟨he, hn⟩, h.symm⟩⟩

theorem mem_clean_relationships (A : Adapter) (c : Content) (r' : Relationship) :
    r' ∈ (s.clean P now d A c).relationships ↔
      ∃ r ∈ c.relationships, r.id ∉ orphanRelationshipIds now d s ∧
        (∀ id ∈ orphanEntityIds P now d s, ¬ r.touches id) ∧
        r' = stripRelationshipRow A now d (surviveRelationshipIds now d s) r := by
  rw [Stores.clean, mem_strip_relationships, strip_entities_relationships]
  simp only [Content.deleteRelationshipsBatch, Content.deleteEntitiesBatch, List.mem_filter,
    decide_eq_true_eq]
  have htouch : ∀ r : Relationship, (∀ id ∈ orphanEntityIds P now d s, ¬ r.touches id) ↔
      r.sourceEntityId ∉ orphanEntityIds P now d s ∧
      r.targetEntityId ∉ orphanEntityIds P now d s := by
    intro r
    constructor
    · exact fun h => ⟨fun hm => h _ hm (.inl rfl), fun hm => h _ hm (.inr rfl)⟩
    · rintro ⟨hs, ht⟩ id hid (h | h)
      · exact hs (h ▸ hid)
      · exact ht (h ▸ hid)
  simp only [htouch]
  constructor
  · rintro ⟨r, ⟨⟨hr, hends⟩, hn⟩, h⟩
    exact ⟨r, hr, hn, hends, h⟩
  · rintro ⟨r, hr, hn, hends, h⟩
    exact ⟨r, ⟨⟨hr, hends⟩, hn⟩, h⟩

/-- The document is listed and nothing else is. -/
def OnlySource (sources : List UUID) : Prop := d ∈ sources ∧ ∀ x ∈ sources, x = d

theorem orphan_iff {sources : List UUID} (hc : sources.count d ≤ 1) :
    isOrphan d sources = true ↔ OnlySource d sources := by
  simp only [isOrphan, decide_eq_true_eq, OnlySource]
  refine and_congr_right (fun hd => ?_)
  have hall : (∀ x ∈ sources, x = d) ↔ sources.count d = sources.length := by
    rw [List.count_eq_length]
    simp only [eq_comm]
  have hp := List.count_pos_iff.mpr hd
  rw [hall]
  omega

theorem survivor_iff {sources : List UUID} (hc : sources.count d ≤ 1) (hd : d ∈ sources) :
    isSurvivor d sources = true ↔ ¬ OnlySource d sources := by
  rw [← orphan_iff d hc]
  simp only [isSurvivor, isOrphan, decide_eq_true_eq, hd, true_and]
  have hl := List.length_pos_of_mem hd
  omega

theorem mem_ids {ρ : Type} {key : ρ → UUID} {rows listed : List ρ}
    (hk : ∀ a ∈ rows, ∀ b ∈ rows, key a = key b → a = b) (hl : ∀ a ∈ listed, a ∈ rows)
    (p : ρ → Bool) {a : ρ} (ha : a ∈ rows) :
    key a ∈ (listed.filter p).map key ↔ a ∈ listed ∧ p a = true := by
  constructor
  · intro h
    obtain ⟨b, hb, hab⟩ := List.mem_map.mp h
    obtain ⟨hb, hp⟩ := List.mem_filter.mp hb
    rw [← hk b (hl b hb) a ha hab]
    exact ⟨hb, hp⟩
  · rintro ⟨hal, hp⟩
    exact List.mem_map_of_mem (List.mem_filter.mpr ⟨hal, hp⟩)

theorem scannedEntities_subset {e : Entity} (he : e ∈ scannedEntities P now s) :
    e ∈ s.primary.entities :=
  List.mem_of_mem_filter (List.mem_insertionSort _ |>.mp (List.mem_of_mem_take he))

theorem scannedRelationships_subset {r : Relationship} (hr : r ∈ scannedRelationships now s) :
    r ∈ (s.held (readsMirror now s)).relationships :=
  List.mem_of_mem_filter (List.mem_insertionSort _ |>.mp (List.mem_of_mem_take hr))

/-- What the strip makes of a row that is no orphan. -/
theorem strip_row_eq {ρ : Type} {key : ρ → UUID} {sources : ρ → List UUID} {f : ρ → ρ}
    {rows listed : List ρ} (hk : ∀ a ∈ rows, ∀ b ∈ rows, key a = key b → a = b)
    (hl : ∀ a ∈ listed, a ∈ rows) (hc : ∀ a ∈ listed, (sources a).count d ≤ 1) {a : ρ}
    (ha : a ∈ rows) [Decidable (a ∈ listed ∧ d ∈ sources a)]
    (hn : ¬ (a ∈ listed ∧ OnlySource d (sources a))) :
    rewriteListed d key sources f
        ((listed.filter (fun a => isSurvivor d (sources a))).map key) a =
      if a ∈ listed ∧ d ∈ sources a then f a else a := by
  rw [rewriteListed]
  refine if_congr ((and_congr_left' (mem_ids hk hl _ ha)).trans ?_) rfl rfl
  constructor
  · exact fun h => ⟨h.1.1, h.2⟩
  · rintro ⟨hal, hd⟩
    exact ⟨⟨hal, (survivor_iff d (hc a hal) hd).mpr (fun ho => hn ⟨hal, ho⟩)⟩, hd⟩

theorem orphan_ids_iff {ρ : Type} {key : ρ → UUID} {sources : ρ → List UUID}
    {rows listed : List ρ} (hk : ∀ a ∈ rows, ∀ b ∈ rows, key a = key b → a = b)
    (hl : ∀ a ∈ listed, a ∈ rows) (hc : ∀ a ∈ listed, (sources a).count d ≤ 1) {a : ρ}
    (ha : a ∈ rows) :
    key a ∈ (listed.filter (fun a => isOrphan d (sources a))).map key ↔
      a ∈ listed ∧ OnlySource d (sources a) := by
  rw [mem_ids hk hl _ ha]
  exact and_congr_right (fun hal => orphan_iff d (hc a hal))

def Forgotten (e : Entity) : Prop :=
  e ∈ scannedEntities P now s ∧ OnlySource d e.sourceDocumentIds

def ForgottenEdge (r : Relationship) : Prop :=
  (r ∈ scannedRelationships now s ∧ OnlySource d r.sourceDocumentIds) ∨
    ∃ e, Forgotten P now d s e ∧ r.touches e.id

def entityAfter (e : Entity) : Entity :=
  if e ∈ scannedEntities P now s ∧ d ∈ e.sourceDocumentIds then strippedEntity P now d e else e

def relationshipAfter (r : Relationship) : Relationship :=
  if r ∈ scannedRelationships now s ∧ d ∈ r.sourceDocumentIds
  then strippedRelationship (if readsMirror now s then M else P) now d r else r

theorem entities_after (he : ∀ e ∈ scannedEntities P now s, e.sourceDocumentIds.count d ≤ 1)
    (e' : Entity) :
    e' ∈ (cascadeForgetExtraction P M now d s).primary.entities ↔
      ∃ e ∈ s.primary.entities, ¬ Forgotten P now d s e ∧ e' = entityAfter P now d s e := by
  have hk := fun a ha b hb => s.primary.entity_ext (e := a) (f := b) ha hb
  rw [cascade_primary, mem_clean_entities]
  refine exists_congr (fun e => and_congr_right (fun hem => ?_))
  rw [orphanEntityIds, orphan_ids_iff d hk (fun a => scannedEntities_subset P now s) he hem]
  refine and_congr_right (fun hn => ?_)
  rw [stripEntityRow, surviveEntityIds,
    strip_row_eq d hk (fun a => scannedEntities_subset P now s) he hem hn, entityAfter]

theorem orphan_ends_iff
    (he : ∀ e ∈ scannedEntities P now s, e.sourceDocumentIds.count d ≤ 1) (r : Relationship) :
    (∀ id ∈ orphanEntityIds P now d s, ¬ r.touches id) ↔
      ¬ ∃ e, Forgotten P now d s e ∧ r.touches e.id := by
  have hk := fun a ha b hb => s.primary.entity_ext (e := a) (f := b) ha hb
  constructor
  · rintro h ⟨e, ⟨hes, ho⟩, ht⟩
    exact h e.id ((orphan_ids_iff d hk (fun a => scannedEntities_subset P now s) he
      (scannedEntities_subset P now s hes)).mpr ⟨hes, ho⟩) ht
  · intro h id hid ht
    obtain ⟨e, hes, rfl⟩ := List.mem_map.mp hid
    obtain ⟨hes, ho⟩ := List.mem_filter.mp hes
    exact h ⟨e, ⟨hes, (orphan_iff d (he e hes)).mp ho⟩, ht⟩

theorem readsMirror_isSome (h : readsMirror now s = true) : s.mirror.isSome = true := by
  rw [readsMirror, Bool.and_eq_true] at h
  exact h.2

theorem relationships_after
    (he : ∀ e ∈ scannedEntities P now s, e.sourceDocumentIds.count d ≤ 1)
    (hr : ∀ r ∈ scannedRelationships now s, r.sourceDocumentIds.count d ≤ 1)
    (r' : Relationship) :
    r' ∈ ((cascadeForgetExtraction P M now d s).held (readsMirror now s)).relationships ↔
      ∃ r ∈ (s.held (readsMirror now s)).relationships, ¬ ForgottenEdge P now d s r ∧
        r' = relationshipAfter P M now d s r := by
  have hk := fun a ha b hb => (s.held (readsMirror now s)).relationship_ext (r := a) (s := b) ha hb
  have hadapter : (if readsMirror now s = true ∧ s.mirror.isSome = true then M else P) =
      if readsMirror now s then M else P :=
    if_congr (and_iff_left_of_imp (readsMirror_isSome now s)) rfl rfl
  rw [cascade_held, hadapter, mem_clean_relationships]
  refine exists_congr (fun r => and_congr_right (fun hrm => ?_))
  rw [orphan_ends_iff P now d s he, orphanRelationshipIds,
    orphan_ids_iff d hk (fun a => scannedRelationships_subset now s) hr hrm, ForgottenEdge,
    not_or, and_assoc]
  refine and_congr_right (fun hn => and_congr_right (fun _ => ?_))
  rw [stripRelationshipRow, surviveRelationshipIds,
    strip_row_eq d hk (fun a => scannedRelationships_subset now s) hr hrm hn, relationshipAfter]

theorem relationshipAfter_touches (r : Relationship) (id : UUID) :
    (relationshipAfter P M now d s r).touches id ↔ r.touches id := by
  unfold relationshipAfter
  split
  · have hkept := (if readsMirror now s then M else P).relationship_kept now
      { r with sourceDocumentIds := strip d r.sourceDocumentIds }
    rw [Relationship.touches, strippedRelationship, hkept.sourceEntityId,
      hkept.targetEntityId, Relationship.touches]
  · rfl

/-- The id of a scanned row that lists the document alone, or next to others. -/
def OrphanId {ρ : Type} (key : ρ → UUID) (sources : ρ → List UUID) (listed : List ρ) (id : UUID) :
    Prop :=
  ∃ a ∈ listed, key a = id ∧ OnlySource d (sources a)

def SurvivorId {ρ : Type} (key : ρ → UUID) (sources : ρ → List UUID) (listed : List ρ) (id : UUID) :
    Prop :=
  ∃ a ∈ listed, key a = id ∧ d ∈ sources a ∧ ¬ OnlySource d (sources a)

theorem orphanId_iff {ρ : Type} {key : ρ → UUID} {sources : ρ → List UUID} {listed : List ρ}
    (hc : ∀ a ∈ listed, (sources a).count d ≤ 1) (id : UUID) :
    id ∈ (listed.filter (fun a => isOrphan d (sources a))).map key ↔
      OrphanId d key sources listed id := by
  rw [List.mem_map]
  constructor
  · rintro ⟨a, ha, rfl⟩
    obtain ⟨hal, ho⟩ := List.mem_filter.mp ha
    exact ⟨a, hal, rfl, (orphan_iff d (hc a hal)).mp ho⟩
  · rintro ⟨a, hal, rfl, ho⟩
    exact ⟨a, List.mem_filter.mpr ⟨hal, (orphan_iff d (hc a hal)).mpr ho⟩, rfl⟩

theorem survivorId_iff {ρ : Type} {key : ρ → UUID} {sources : ρ → List UUID} {listed : List ρ}
    (hc : ∀ a ∈ listed, (sources a).count d ≤ 1) (id : UUID) :
    id ∈ (listed.filter (fun a => isSurvivor d (sources a))).map key ↔
      SurvivorId d key sources listed id := by
  rw [List.mem_map]
  constructor
  · rintro ⟨a, ha, rfl⟩
    obtain ⟨hal, hs⟩ := List.mem_filter.mp ha
    have hd : d ∈ sources a := by
      simp only [isSurvivor, decide_eq_true_eq] at hs
      exact hs.1
    exact ⟨a, hal, rfl, hd, (survivor_iff d (hc a hal) hd).mp hs⟩
  · rintro ⟨a, hal, rfl, hd, hs⟩
    exact ⟨a, List.mem_filter.mpr ⟨hal, (survivor_iff d (hc a hal) hd).mpr hs⟩, rfl⟩

/-- What the cascade leaves in a store: the rows with the ids of the orphans
are gone, and with the entities the edges at them; the rows with the ids of the
survivors that list the document are stripped of it; the others are as they
were. -/
structure Cleaned (A : Adapter) (c c' : Content) : Prop where
  entities : ∀ e', e' ∈ c'.entities ↔ ∃ e ∈ c.entities,
    ¬ OrphanId d Entity.id Entity.sourceDocumentIds (scannedEntities P now s) e.id ∧
    (SurvivorId d Entity.id Entity.sourceDocumentIds (scannedEntities P now s) e.id ∧
        d ∈ e.sourceDocumentIds ∧ e' = strippedEntity A now d e ∨
      ¬ (SurvivorId d Entity.id Entity.sourceDocumentIds (scannedEntities P now s) e.id ∧
        d ∈ e.sourceDocumentIds) ∧ e' = e)
  relationships : ∀ r', r' ∈ c'.relationships ↔ ∃ r ∈ c.relationships,
    ¬ OrphanId d Relationship.id Relationship.sourceDocumentIds (scannedRelationships now s) r.id ∧
    (∀ id, OrphanId d Entity.id Entity.sourceDocumentIds (scannedEntities P now s) id →
      ¬ r.touches id) ∧
    (SurvivorId d Relationship.id Relationship.sourceDocumentIds (scannedRelationships now s) r.id ∧
        d ∈ r.sourceDocumentIds ∧ r' = strippedRelationship A now d r ∨
      ¬ (SurvivorId d Relationship.id Relationship.sourceDocumentIds
        (scannedRelationships now s) r.id ∧ d ∈ r.sourceDocumentIds) ∧ r' = r)

theorem rewriteListed_iff {ρ : Type} {key : ρ → UUID} {sources : ρ → List UUID} {f : ρ → ρ}
    {ids : List UUID} {Q : UUID → Prop} (hq : ∀ id, id ∈ ids ↔ Q id) (a a' : ρ) :
    a' = rewriteListed d key sources f ids a ↔
      Q (key a) ∧ d ∈ sources a ∧ a' = f a ∨ ¬ (Q (key a) ∧ d ∈ sources a) ∧ a' = a := by
  rw [rewriteListed]
  by_cases h : key a ∈ ids ∧ d ∈ sources a
  · rw [if_pos h]
    have hs : Q (key a) ∧ d ∈ sources a := ⟨(hq _).mp h.1, h.2⟩
    simp [hs]
  · rw [if_neg h]
    have hs : ¬ (Q (key a) ∧ d ∈ sources a) := fun hs => h ⟨(hq _).mpr hs.1, hs.2⟩
    constructor
    · exact fun ha => .inr ⟨hs, ha⟩
    · rintro (⟨hk, hd, -⟩ | ⟨-, ha⟩)
      · exact absurd ⟨hk, hd⟩ hs
      · exact ha

theorem cleaned_clean (he : ∀ e ∈ scannedEntities P now s, e.sourceDocumentIds.count d ≤ 1)
    (hr : ∀ r ∈ scannedRelationships now s, r.sourceDocumentIds.count d ≤ 1) (A : Adapter)
    (c : Content) : Cleaned P now d s A c (s.clean P now d A c) := by
  constructor
  · intro e'
    rw [mem_clean_entities]
    refine exists_congr (fun e => and_congr_right (fun _ => ?_))
    rw [orphanEntityIds, orphanId_iff d he, stripEntityRow, surviveEntityIds,
      rewriteListed_iff d (fun id => survivorId_iff d he id)]
  · intro r'
    rw [mem_clean_relationships]
    refine exists_congr (fun r => and_congr_right (fun _ => ?_))
    simp only [orphanEntityIds, orphanRelationshipIds, orphanId_iff d he, orphanId_iff d hr]
    rw [stripRelationshipRow, surviveRelationshipIds,
      rewriteListed_iff d (fun id => survivorId_iff d hr id)]

/-- Below the limit the scan returns all live rows. -/
theorem mem_scannedEntities
    (hl : (s.primary.entities.filter (fun e => e.live now)).length ≤ scanLimit) (e : Entity) :
    e ∈ scannedEntities P now s ↔ e ∈ s.primary.entities ∧ e.live now = true := by
  rw [scannedEntities, listEntities, List.take_of_length_le (by rwa [List.length_insertionSort]),
    List.mem_insertionSort, List.mem_filter]

theorem mem_scannedRelationships
    (hl : ((s.held (readsMirror now s)).relationships.filter (fun r => r.live now)).length ≤
      scanLimit) (r : Relationship) :
    r ∈ scannedRelationships now s ↔
      r ∈ (s.held (readsMirror now s)).relationships ∧ r.live now = true := by
  rw [scannedRelationships, listRelationships,
    List.take_of_length_le (by rwa [List.length_insertionSort]), List.mem_insertionSort,
    List.mem_filter]

end cascade

/-- What remains is what had another source, without the document and without
the document's chunks, and nothing else is changed. -/
structure ForgetsContribution (d : UUID) (chunks : List UUID) (before after : Content) : Prop where
  entities : ∀ e', e' ∈ after.entities ↔
    ∃ e ∈ before.entities, (∃ x ∈ e.sourceDocumentIds, x ≠ d) ∧ e' =
      { e with
        sourceDocumentIds := strip d e.sourceDocumentIds
        sourceChunkIds := e.sourceChunkIds.filter (fun k => k ∉ chunks) }
  relationships : ∀ r', r' ∈ after.relationships ↔
    ∃ r ∈ before.relationships, (∃ x ∈ r.sourceDocumentIds, x ≠ d) ∧ r' =
      { r with
        sourceDocumentIds := strip d r.sourceDocumentIds
        sourceChunkIds := r.sourceChunkIds.filter (fun k => k ∉ chunks) }
  ends : ∀ r ∈ after.relationships, ∀ e ∈ before.entities, e.id ∉ after.entities.map Entity.id →
    ¬ r.touches e.id

def sharedEntity : Entity where
  id := 1
  name := "shared"
  sourceDocumentIds := [1, 2]
  sourceChunkIds := [10, 20]
  mentionCount := 2
  confidence := 1
  validUntil := none
  createdAt := 0
  updatedAt := 0
  columns := []

def sharedContent : Content where
  entities := [sharedEntity]
  relationships := []
  entity_keys := List.nodup_singleton _
  relationship_keys := List.nodup_nil

def ownEntity : Entity := { sharedEntity with id := 2, name := "own", sourceDocumentIds := [1] }

def farEntity : Entity := { sharedEntity with id := 3, name := "far", sourceDocumentIds := [2] }

def edge (id source target : UUID) (sources : List UUID) : Relationship where
  id := id
  sourceEntityId := source
  targetEntityId := target
  relationshipType := "KNOWS"
  sourceDocumentIds := sources
  sourceChunkIds := [10]
  confidence := 1
  weight := 1
  validUntil := none
  validTo := none
  invalidatedAt := none
  invalidatedBy := none
  createdAt := 0
  updatedAt := 0
  columns := []

def graphContent : Content where
  entities := [sharedEntity, ownEntity, farEntity]
  relationships := [edge 10 1 3 [1, 2], edge 11 2 3 [2], edge 12 1 3 [1]]
  entity_keys := by decide
  relationship_keys := by decide

end Uru.Storage
