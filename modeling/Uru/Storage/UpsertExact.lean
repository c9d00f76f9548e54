import Uru.Storage.KeyedFold

/-!
# The rows a batch upsert leaves

The inserted objects are those of the keys without a row, so the inserts fail
exactly where an id is taken. An update addresses the row of its key, and two
updates of one row write the same object.
-/

set_option autoImplicit false

namespace Uru.Storage.EntityUpsert

variable {J : Type}

namespace Table

theorem insertAll_done (t : Table J) (es : List (Entity J)) :
    (t.insertAll es).2 = true ↔
      ((t.rows++es).map Entity.id).Nodup ∧ ((t.rows++es).map Entity.place).Nodup := by
  induction es generalizing t with
  | nil => simp [insertAll, t.ids, t.places]
  | cons e es ih =>
    rw [insertAll, insert]
    by_cases h : e.id ∉ t.rows.map Entity.id ∧ e.place ∉ t.rows.map Entity.place
    · rw [dif_pos h]
      dsimp only
      rw [ih, List.append_assoc, List.singleton_append]
    · rw [dif_neg h]
      refine iff_of_false Bool.false_ne_true (fun hnodup => h ?_)
      rw [List.map_append, List.map_append, List.nodup_append, List.nodup_append] at hnodup
      have hid := hnodup.1.2.2
      have hplace := hnodup.2.2.2
      exact ⟨fun he => hid _ he _ (List.mem_map_of_mem List.mem_cons_self) rfl,
        fun he => hplace _ he _ (List.mem_map_of_mem List.mem_cons_self) rfl⟩

theorem insertAll_rows (t : Table J) (es : List (Entity J)) :
    ∃ written, written <+: es ∧ (t.insertAll es).1.rows = t.rows++written ∧
      ((t.insertAll es).2 = true → written = es) := by
  induction es generalizing t with
  | nil => exact ⟨[], List.prefix_rfl, by simp [insertAll], fun _ => rfl⟩
  | cons e es ih =>
    rw [insertAll, insert]
    by_cases h : e.id ∉ t.rows.map Entity.id ∧ e.place ∉ t.rows.map Entity.place
    · rw [dif_pos h]
      dsimp only
      obtain ⟨written, hpre, hrows, hall⟩ := ih ⟨t.rows++[e],_,_⟩
      refine ⟨e::written, List.cons_prefix_cons.mpr ⟨rfl, hpre⟩, ?_, fun hdone => ?_⟩
      · rw [hrows, List.append_assoc, List.singleton_append]
      · rw [hall hdone]
    · rw [dif_neg h]
      exact ⟨[], List.nil_prefix, by simp, fun hdone => by simp at hdone⟩

/-- An object addresses a row of its own place. -/
def Addressed (rows : List (Entity J)) (u : Entity J) : Prop :=
  ∃ r ∈ rows, r.id = u.id ∧ r.place = u.place

theorem same_row {rows : List (Entity J)} (hids : (rows.map Entity.id).Nodup) {r r' : Entity J}
    (hr : r ∈ rows) (hr' : r' ∈ rows) (h : r.id = r'.id) : r = r' :=
  List.inj_on_of_nodup_map hids hr hr' h

theorem updated_place {rows : List (Entity J)} (hids : (rows.map Entity.id).Nodup) {u r : Entity J}
    (hu : Addressed rows u) (hr : r ∈ rows) : (updated u r).place = r.place := by
  unfold updated
  split
  · next h =>
    obtain ⟨r', hr', hid, hplace⟩ := hu
    rw [same_row hids hr hr' (h.1.trans hid.symm)]
    exact hplace.symm
  · rfl

theorem updateAll_rows (t : Table J) (us : List (Entity J)) (h : ∀ u ∈ us, Addressed t.rows u) :
    (t.updateAll us).2 = true ∧
      (t.updateAll us).1.rows = t.rows.map (fun r => us.foldl (fun r u => updated u r) r) := by
  induction us generalizing t with
  | nil => simp [updateAll]
  | cons u us ih =>
    have hplace : (t.rows.map (updated u)).map Entity.place = t.rows.map Entity.place := by
      rw [List.map_map]
      exact List.map_congr_left (fun r hr =>
        updated_place t.ids (h u List.mem_cons_self) hr)
    rw [updateAll, update, dif_pos (hplace ▸ t.places)]
    dsimp only
    obtain ⟨hdone, hrows⟩ := ih ⟨t.rows.map (updated u),_,_⟩ (fun v hv => by
      obtain ⟨r, hr, hid, hrp⟩ := h v (List.mem_cons_of_mem _ hv)
      refine ⟨updated u r, List.mem_map_of_mem hr, (updated_id u r).trans hid, ?_⟩
      exact (updated_place t.ids (h u List.mem_cons_self) hr).trans hrp)
    refine ⟨hdone, ?_⟩
    rw [hrows, List.map_map]
    rfl

theorem updates_miss {us : List (Entity J)} {r : Entity J} (h : ∀ u ∈ us, r.id ≠ u.id) :
    us.foldl (fun r u => updated u r) r = r := by
  induction us with
  | nil => rfl
  | cons u us ih =>
    rw [List.foldl_cons, updated, if_neg (fun hu => h u List.mem_cons_self hu.1)]
    exact ih (fun v hv => h v (List.mem_cons_of_mem _ hv))

/-- Updates that all carry one object leave that object. -/
theorem updates_hit {us : List (Entity J)} {r x : Entity J} (hid : r.id = x.id)
    (hplace : r.place = x.place) (h : ∀ u ∈ us, r.id = u.id → u = x) (hx : x ∈ us) :
    us.foldl (fun r u => updated u r) r = { x with createdAt := r.createdAt } := by
  induction us generalizing r with
  | nil => simp at hx
  | cons u us ih =>
    rw [List.foldl_cons]
    have hns : r.namespaceId = x.namespaceId := congrArg Prod.fst hplace
    by_cases hu : r.id = u.id
    · obtain rfl := h u List.mem_cons_self hu
      rw [updated, if_pos ⟨hu, hns⟩]
      by_cases hmem : u ∈ us
      · exact ih rfl rfl (fun v hv hvid => h v (List.mem_cons_of_mem _ hv) (hid.trans hvid)) hmem
      · refine updates_miss (fun v hv hvid => hmem ?_)
        obtain rfl := h v (List.mem_cons_of_mem _ hv) (hid.trans hvid)
        exact hv
    · rw [updated, if_neg (fun hc => hu hc.1)]
      refine ih hid hplace (fun v hv => h v (List.mem_cons_of_mem _ hv)) ?_
      rcases List.mem_cons.mp hx with rfl | hx
      · exact absurd hid hu
      · exact hx

theorem updates_cases {rows us : List (Entity J)} (hids : (rows.map Entity.id).Nodup)
    (haddr : ∀ u ∈ us, Addressed rows u) (hone : ∀ u ∈ us, ∀ v ∈ us, u.place = v.place → u = v)
    {r : Entity J} (hr : r ∈ rows) :
    (∀ u ∈ us, r.id ≠ u.id) ∧ us.foldl (fun r u => updated u r) r = r ∨
      ∃ x ∈ us, r.place = x.place ∧
        us.foldl (fun r u => updated u r) r = { x with createdAt := r.createdAt } := by
  have hplace : ∀ u ∈ us, r.id = u.id → r.place = u.place := by
    intro u hu hid
    obtain ⟨r', hr', hid', hplace'⟩ := haddr u hu
    rw [same_row hids hr hr' (hid.trans hid'.symm)]
    exact hplace'
  by_cases hx : ∃ x ∈ us, r.id = x.id
  · obtain ⟨x, hx, hid⟩ := hx
    refine .inr ⟨x, hx, hplace x hx hid, updates_hit hid (hplace x hx hid) ?_ hx⟩
    intro u hu hu'
    exact hone u hu x hx ((hplace u hu hu').symm.trans (hplace x hx hid))
  · have hmiss : ∀ u ∈ us, r.id ≠ u.id := fun u hu hid => hx ⟨u, hu, hid⟩
    exact .inl ⟨hmiss, updates_miss hmiss⟩

theorem find_unique {rows : List (Entity J)} (hplaces : (rows.map Entity.place).Nodup)
    {r : Entity J} {q : UUID × Key} (hr : r ∈ rows) (hq : r.place = q) :
    rows.find? (fun r => r.place = q) = some r := by
  obtain ⟨r', hr'⟩ : ∃ r', rows.find? (fun r => r.place = q) = some r' :=
    Option.isSome_iff_exists.mp (List.find?_isSome.mpr ⟨r, hr, by simp [hq]⟩)
  have hplace : r'.place = q := by simpa using List.find?_some hr'
  rw [hr', List.inj_on_of_nodup_map hplaces (List.mem_of_find?_eq_some hr') hr
    (hplace.trans hq.symm)]

/-- Lookup under a map that keeps places. -/
theorem find_map {rows : List (Entity J)} {f : Entity J → Entity J} {q : UUID × Key}
    (hf : ∀ r ∈ rows, (f r).place = r.place) :
    (rows.map f).find? (fun r => r.place = q) = (rows.find? (fun r => r.place = q)).map f := by
  induction rows with
  | nil => rfl
  | cons r rows ih =>
    have hrest := ih (fun r hr => hf r (List.mem_cons_of_mem _ hr))
    rw [List.map_cons, List.find?_cons, List.find?_cons, hf r List.mem_cons_self, hrest]
    by_cases hq : r.place = q
    · simp [hq]
    · simp [hq]

theorem mem_of_row {t : Table J} {ns : UUID} {k : Key} {r : Entity J} (h : t.row ns k = some r) :
    r ∈ t.rows ∧ r.place = (ns,k) :=
  ⟨List.mem_of_find?_eq_some h, by simpa using List.find?_some h⟩

end Table

theorem folded_place {ns : UUID} {k : Key} {r : Option (Entity J)} {es : List (Entity J)}
    {x : Entity J} (hr : ∀ r', r = some r' → r'.place = (ns,k))
    (hx : folded ns r (members k es) = some x) : x.place = (ns,k) := by
  rcases r with _ | r
  · rcases hm : members k es with _ | ⟨e, rest⟩
    · rw [hm] at hx
      cases hx
    · rw [hm] at hx
      obtain rfl := Option.some.inj hx
      rw [(foldl_mergeWith _ _).2.1]
      have he : e ∈ members k es := hm ▸ List.mem_cons_self
      have hk : e.key = k := by simpa using (List.mem_filter.mp he).2
      exact congrArg (Prod.mk ns) hk
  · obtain rfl := Option.some.inj hx
    rw [(foldl_mergeWith _ _).2.1]
    exact hr r rfl

section Batch

variable {t : Table J} {ns : UUID} {entities : List (Entity J)}

theorem prefetch_row {k : Key} {r : Entity J} (h : prefetch t ns entities k = some r) :
    ∃ r₀, t.row ns k = some r₀ ∧ rowToEntity r₀ = r := by
  unfold prefetch at h
  split at h
  · exact Option.map_eq_some_iff.mp h
  · cases h

theorem prefetch_eq_none {k : Key} (hk : k ∈ entities.map Entity.key) :
    prefetch t ns entities k = none ↔ t.row ns k = none := by
  rw [prefetch, if_pos hk, Option.map_eq_none_iff]

theorem newcomers_congr {before before' : Key → Option (Entity J)} {es : List (Entity J)}
    (h : ∀ e ∈ es, before e.key = none ↔ before' e.key = none) :
    newcomers before es = newcomers before' es := by
  induction es using List.reverseRecOn with
  | nil => rfl
  | append_singleton es e ih =>
    rw [newcomers_snoc, newcomers_snoc, ih (fun f hf => h f (List.mem_append_left _ hf))]
    simp only [h e (List.mem_append_right _ (List.mem_singleton_self e))]

def loop (t : Table J) (ns : UUID) (entities : List (Entity J)) : Loop J :=
  entities.foldl (classify ns) ⟨prefetch t ns entities,[],[],[],[]⟩

def objects (t : Table J) (ns : UUID) (entities : List (Entity J)) : List (Entity J) :=
  (loop t ns entities).toInsert.filterMap (loop t ns entities).existingMap

def updates (t : Table J) (ns : UUID) (entities : List (Entity J)) : List (Entity J) :=
  (loop t ns entities).toUpdate.filterMap (loop t ns entities).existingMap

theorem loop_classified (t : Table J) (ns : UUID) (entities : List (Entity J)) :
    Classified ns (prefetch t ns entities) entities (loop t ns entities) :=
  classified ns _ entities

theorem object_place {k : Key} {x : Entity J} (hx : (loop t ns entities).existingMap k = some x) :
    x.place = (ns,k) := by
  refine folded_place (fun r hr => ?_) ((loop_classified t ns entities).objects k ▸ hx)
  obtain ⟨r₀, hr₀, rfl⟩ := prefetch_row hr
  exact (Table.mem_of_row hr₀).2

theorem mem_objects {x : Entity J} (hx : x ∈ objects t ns entities) :
    ∃ k ∈ (loop t ns entities).toInsert, (loop t ns entities).existingMap k = some x :=
  List.mem_filterMap.mp hx

theorem mem_updates {x : Entity J} (hx : x ∈ updates t ns entities) :
    ∃ k ∈ (loop t ns entities).toUpdate, (loop t ns entities).existingMap k = some x :=
  List.mem_filterMap.mp hx

theorem object_outside {x : Entity J} (hx : x ∈ objects t ns entities ∨ x ∈ updates t ns entities) :
    ∃ k ∈ entities.map Entity.key, x.place = (ns,k) := by
  have hc := loop_classified t ns entities
  rcases hx with hx | hx
  · obtain ⟨k, hk, hxk⟩ := mem_objects hx
    exact ⟨k, ((hc.inserts k).mp hk).2, object_place hxk⟩
  · obtain ⟨k, hk, hxk⟩ := mem_updates hx
    exact ⟨k, hc.updates k hk, object_place hxk⟩

theorem objects_ids : (objects t ns entities).map Entity.id =
    (newcomers (t.row ns) entities).map Entity.id := by
  have hc := loop_classified t ns entities
  have hsame : newcomers (prefetch t ns entities) entities = newcomers (t.row ns) entities :=
    newcomers_congr (fun e he => prefetch_eq_none (List.mem_map_of_mem he))
  rw [objects, hc.firsts, List.filterMap_map, List.map_filterMap, ← hsame, ← List.filterMap_eq_map]
  exact List.filterMap_congr (fun e he => hc.named e he)

theorem objects_places : (objects t ns entities).map Entity.place =
    (loop t ns entities).toInsert.map (Prod.mk ns) := by
  have hc := loop_classified t ns entities
  rw [objects, List.map_filterMap, ← List.filterMap_eq_map]
  refine List.filterMap_congr (fun k hk => ?_)
  rcases hx : (loop t ns entities).existingMap k with _ | x
  · rw [hc.objects, folded_eq_none, members_eq_nil] at hx
    exact absurd ((hc.inserts k).mp hk).2 hx.2
  · rw [Option.map_some, object_place hx]
    rfl

/-- The inserts go through exactly where no id is taken. -/
theorem inserts_done : (t.insertAll (objects t ns entities)).2 = true ↔
    (t.rows.map Entity.id++(newcomers (t.row ns) entities).map Entity.id).Nodup := by
  have hc := loop_classified t ns entities
  rw [Table.insertAll_done, List.map_append, objects_ids, and_iff_left]
  rw [List.map_append, objects_places, List.nodup_append]
  refine ⟨t.places, hc.once.map (Prod.mk_right_injective ns), ?_⟩
  rintro _ ha _ hb rfl
  obtain ⟨r, hr, hplace⟩ := List.mem_map.mp ha
  obtain ⟨k, hk, hkr⟩ := List.mem_map.mp hb
  obtain ⟨hnone, hbatch⟩ := (hc.inserts k).mp hk
  rw [prefetch_eq_none hbatch] at hnone
  rw [Table.row, Table.find_unique t.places hr (hplace.trans hkr.symm)] at hnone
  cases hnone

theorem updates_addressed {u : Entity J} (hu : u ∈ updates t ns entities) :
    Table.Addressed (t.rows++objects t ns entities) u := by
  have hc := loop_classified t ns entities
  obtain ⟨k, hk, hx⟩ := mem_updates hu
  rcases hb : prefetch t ns entities k with _ | r
  · have hins : k ∈ (loop t ns entities).toInsert := (hc.inserts k).mpr ⟨hb, hc.updates k hk⟩
    exact ⟨u, List.mem_append_right _ (List.mem_filterMap.mpr ⟨k, hins, hx⟩), rfl, rfl⟩
  · obtain ⟨r₀, hr₀, rfl⟩ := prefetch_row hb
    have hobj := (hc.objects k).symm.trans hx
    rw [hb] at hobj
    obtain rfl := Option.some.inj hobj
    obtain ⟨hmem, hplace⟩ := Table.mem_of_row hr₀
    refine ⟨r₀, List.mem_append_left _ hmem, ?_, ?_⟩
    · rw [(foldl_mergeWith _ _).1]
      rfl
    · rw [(foldl_mergeWith _ _).2.1]
      rfl

theorem updates_one {u v : Entity J} (hu : u ∈ updates t ns entities)
    (hv : v ∈ updates t ns entities) (h : u.place = v.place) : u = v := by
  obtain ⟨k, -, hk⟩ := mem_updates hu
  obtain ⟨k', -, hk'⟩ := mem_updates hv
  rw [object_place hk, object_place hk'] at h
  obtain rfl : k = k' := congrArg Prod.snd h
  exact Option.some.inj (hk.symm.trans hk')

def final (t : Table J) (ns : UUID) (entities : List (Entity J)) (r : Entity J) : Entity J :=
  (updates t ns entities).foldl (fun r u => Table.updated u r) r

/-- Either the inserts fail part of the way, or all writes go through. -/
theorem upsert_cases (t : Table J) (ns : UUID) (entities : List (Entity J)) :
    (¬ (t.rows.map Entity.id++(newcomers (t.row ns) entities).map Entity.id).Nodup ∧
      (upsertEntitiesBatch t ns entities).results = none ∧
      ∃ written, written <+: objects t ns entities ∧
        (upsertEntitiesBatch t ns entities).table.rows = t.rows++written) ∨
    ((t.rows.map Entity.id++(newcomers (t.row ns) entities).map Entity.id).Nodup ∧
      ((t.rows++objects t ns entities).map Entity.id).Nodup ∧
      ((t.rows++objects t ns entities).map Entity.place).Nodup ∧
      (upsertEntitiesBatch t ns entities).results = some
        ((loop t ns entities).results.filterMap (fun r =>
          ((loop t ns entities).existingMap r.1).map (fun e => (e,r.2))),
        (loop t ns entities).synced) ∧
      (upsertEntitiesBatch t ns entities).table.rows =
        (t.rows++objects t ns entities).map (final t ns entities)) := by
  have heq : upsertEntitiesBatch t ns entities =
      if (t.insertAll (objects t ns entities)).2 then
        if ((t.insertAll (objects t ns entities)).1.updateAll (updates t ns entities)).2 then
          ⟨((t.insertAll (objects t ns entities)).1.updateAll (updates t ns entities)).1,
            some ((loop t ns entities).results.filterMap (fun r =>
              ((loop t ns entities).existingMap r.1).map (fun e => (e,r.2))),
              (loop t ns entities).synced)⟩
        else ⟨((t.insertAll (objects t ns entities)).1.updateAll (updates t ns entities)).1,none⟩
      else ⟨(t.insertAll (objects t ns entities)).1,none⟩ := rfl
  obtain ⟨written, hpre, hrows, hall⟩ := t.insertAll_rows (objects t ns entities)
  rw [heq, ← inserts_done]
  by_cases hdone : (t.insertAll (objects t ns entities)).2 = true
  · obtain rfl := hall hdone
    obtain ⟨hupd, hfinal⟩ := Table.updateAll_rows (t.insertAll (objects t ns entities)).1
      (updates t ns entities) (fun u hu => hrows ▸ updates_addressed hu)
    obtain ⟨hids, hplaces⟩ := (Table.insertAll_done _ _).mp hdone
    rw [if_pos hdone, if_pos hupd]
    exact .inr ⟨hdone, hids, hplaces, rfl, hrows ▸ hfinal⟩
  · rw [if_neg hdone]
    exact .inl ⟨hdone, rfl, written, hpre, hrows⟩

theorem final_cases (hids : ((t.rows++objects t ns entities).map Entity.id).Nodup) {r : Entity J}
    (hr : r ∈ t.rows++objects t ns entities) :
    (∀ u ∈ updates t ns entities, r.id ≠ u.id) ∧ final t ns entities r = r ∨
      ∃ x ∈ updates t ns entities, r.place = x.place ∧
        final t ns entities r = { x with createdAt := r.createdAt } :=
  Table.updates_cases hids (fun _ hu => updates_addressed hu)
    (fun _ hu _ hv h => updates_one hu hv h) hr

theorem final_place (hids : ((t.rows++objects t ns entities).map Entity.id).Nodup) {r : Entity J}
    (hr : r ∈ t.rows++objects t ns entities) : (final t ns entities r).place = r.place := by
  rcases final_cases hids hr with ⟨-, h⟩ | ⟨x, -, hplace, h⟩
  · rw [h]
  · rw [h]
    exact hplace.symm

theorem find_outside {ns' : UUID} {k : Key} (h : ns' ≠ ns ∨ k ∉ entities.map Entity.key)
    {written : List (Entity J)} (hw : ∀ x ∈ written, x ∈ objects t ns entities) :
    (t.rows++written).find? (fun r => r.place = (ns',k)) = t.row ns' k := by
  rw [List.find?_append, Option.or_eq_left_of_none, Table.row]
  refine List.find?_eq_none.mpr (fun x hx hplace => ?_)
  obtain ⟨k', hk', hxp⟩ := object_outside (.inl (hw x hx))
  rw [decide_eq_true_eq, hxp] at hplace
  obtain ⟨rfl, rfl⟩ := Prod.mk.inj hplace
  exact h.elim (fun hns => hns rfl) (fun hk => hk hk')

/-- Rows of other keys stay, also when the call raises. -/
theorem other_rows {ns' : UUID} {k : Key} (h : ns' ≠ ns ∨ k ∉ entities.map Entity.key) :
    (upsertEntitiesBatch t ns entities).table.row ns' k = t.row ns' k := by
  rcases upsert_cases t ns entities with ⟨-, -, written, hpre, hrows⟩ | ⟨-, hids, -, -, hrows⟩
  · rw [Table.row, hrows]
    exact find_outside h (fun x hx => hpre.subset hx)
  · rw [Table.row, hrows, Table.find_map (fun r hr => final_place hids hr),
      find_outside h (fun x hx => hx)]
    rcases hrow : t.row ns' k with _ | r
    · rfl
    · obtain ⟨hmem, hplace⟩ := Table.mem_of_row hrow
      rcases final_cases hids (List.mem_append_left _ hmem) with ⟨-, hf⟩ | ⟨x, hx, hxp, -⟩
      · rw [Option.map_some, hf]
      · obtain ⟨k', hk', hxk⟩ := object_outside (.inr hx)
        rw [hplace, hxk] at hxp
        obtain ⟨rfl, rfl⟩ := Prod.mk.inj hxp
        exact (h.elim (fun hns => hns rfl) (fun hk => hk hk')).elim

/-- The row of a key of the batch holds the object of the key. -/
theorem batch_row {k : Key} {x : Entity J} (hk : k ∈ entities.map Entity.key)
    (hx : (loop t ns entities).existingMap k = some x)
    (hids : ((t.rows++objects t ns entities).map Entity.id).Nodup)
    (hplaces : ((t.rows++objects t ns entities).map Entity.place).Nodup) :
    ((t.rows++objects t ns entities).map (final t ns entities)).find?
      (fun r => r.place = (ns,k)) = some x := by
  have hc := loop_classified t ns entities
  obtain ⟨r, hr, hplace, hcreated, hid, hrx⟩ : ∃ r ∈ t.rows++objects t ns entities,
      r.place = (ns,k) ∧ r.createdAt = x.createdAt ∧ r.id = x.id ∧
        (r = x ∨ x ∈ updates t ns entities) := by
    rcases hb : prefetch t ns entities k with _ | r
    · have hins := (hc.inserts k).mpr ⟨hb, hk⟩
      exact ⟨x, List.mem_append_right _ (List.mem_filterMap.mpr ⟨k, hins, hx⟩),
        object_place hx, rfl, rfl, .inl rfl⟩
    · have hupd := hc.stored k (hb ▸ Option.some_ne_none r) hk
      obtain ⟨r₀, hr₀, rfl⟩ := prefetch_row hb
      obtain ⟨hmem, hplace⟩ := Table.mem_of_row hr₀
      have hobj := (hc.objects k).symm.trans hx
      rw [hb] at hobj
      obtain ⟨hid, -, hcreated⟩ :=
        foldl_mergeWith (members k entities) (rowToEntity r₀)
      rw [Option.some.inj hobj] at hid hcreated
      exact ⟨r₀, List.mem_append_left _ hmem, hplace, hcreated.symm, hid.symm,
        .inr (List.mem_filterMap.mpr ⟨k, hupd, hx⟩)⟩
  rw [Table.find_map (fun r hr => final_place hids hr), Table.find_unique hplaces hr hplace,
    Option.map_some]
  have hwrites : ∀ y ∈ updates t ns entities, r.place = y.place → y = x := by
    intro y hy hyp
    obtain ⟨k', -, hyk⟩ := mem_updates hy
    have hkk : (ns,k) = (ns,k') := (hplace.symm.trans hyp).trans (object_place hyk)
    obtain rfl : k = k' := congrArg Prod.snd hkk
    exact Option.some.inj (hyk.symm.trans hx)
  rcases final_cases hids hr with ⟨hmiss, hf⟩ | ⟨y, hy, hyp, hf⟩
  · rcases hrx with rfl | hxu
    · rw [hf]
    · exact absurd hid (hmiss x hxu)
  · obtain rfl := hwrites y hy hyp
    rw [hf, hcreated]

theorem map_some_filterMap {α β : Type} {xs : List α} {g : α → Option β}
    (h : ∀ x ∈ xs, (g x).isSome) : (xs.filterMap g).map some = xs.map g := by
  rw [List.map_filterMap_some_eq_filter_map_isSome, List.filter_eq_self]
  intro y hy
  obtain ⟨x, hx, rfl⟩ := List.mem_map.mp hy
  exact h x hx

theorem result_key {before : Key → Option (Entity J)} {s : Loop J}
    (hc : Classified ns before entities s) {r : Key × Bool} (hr : r ∈ s.results) :
    ∃ e ∈ entities, e.key = r.1 := by
  obtain ⟨i, hi, rfl⟩ := List.mem_iff_getElem.mp hr
  have hlt : i < entities.length := hc.length ▸ hi
  have hri := hc.results i entities[i] (List.getElem?_eq_getElem hlt)
  rw [List.getElem?_eq_getElem hi] at hri
  exact ⟨entities[i], List.getElem_mem hlt, congrArg Prod.fst (Option.some.inj hri).symm⟩

/-- Stored counts and confidences are not zero, so they are read as they are. -/
def Counted (t : Table J) (ns : UUID) (entities : List (Entity J)) : Prop :=
  ∀ r ∈ t.rows, r.namespaceId = ns → r.key ∈ entities.map Entity.key →
    r.mentionCount ≠ 0 ∧ r.confidence ≠ 0

theorem prefetch_counted (h : Counted t ns entities) {k : Key} (hk : k ∈ entities.map Entity.key) :
    prefetch t ns entities k = t.row ns k := by
  rw [prefetch, if_pos hk]
  rcases hr : t.row ns k with _ | r
  · rfl
  · obtain ⟨hmem, hplace⟩ := Table.mem_of_row hr
    obtain ⟨hns, hkey⟩ := Prod.mk.inj hplace
    obtain ⟨hcount, hconf⟩ := h r hmem hns (by rw [hkey]; exact hk)
    rw [Option.map_some, rowToEntity, if_neg hcount, if_neg hconf]

end Batch

namespace Person

def person (id : UUID) (confidence : ℚ) : Entity ℕ where
  id := id
  namespaceId := 1
  name := "Ada"
  entityType := "PERSON"
  description := ""
  attributes := []
  sourceDocumentIds := [id]
  sourceChunkIds := []
  mentionCount := 1
  embeddingModel := ""
  validFrom := none
  validUntil := none
  confidence := confidence
  metadata := []
  createdAt := 0

def empty : Table ℕ := ⟨[],List.nodup_nil,List.nodup_nil⟩

def stored : Table ℕ := ⟨[person 1 1],List.nodup_singleton _,List.nodup_singleton _⟩

def batch : List (Entity ℕ) := [person 2 (1/2),person 3 1]

end Person

end Uru.Storage.EntityUpsert
