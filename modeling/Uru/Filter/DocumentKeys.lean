import Uru.Filter.RoundTrip

/-!
# What an accepted document can hold

Reading goes through a document key by key, so that an accepted document has
only keys that name a field, and the values in a dump are not nested deeper
than those read. Both are shown along the document, one level at a time.
-/

set_option autoImplicit false

namespace Uru.Filter

open Uru.Lib

theorem depth_pos (v : Val) : 1 ≤ depth v := by
  cases v with
  | list xs => rw [depth]; omega
  | dict kvs => rw [depth]; omega
  | _ => rfl

theorem goList_le {xs : List Val} {n : ℕ} : depth.goList xs ≤ n ↔ ∀ x ∈ xs, depth x ≤ n := by
  induction xs with
  | nil => simp [depth.goList]
  | cons x xs ih => simp [depth.goList, ih]

theorem goDict_le {kvs : Dict} {n : ℕ} : depth.goDict kvs ≤ n ↔ ∀ kv ∈ kvs, depth kv.2 ≤ n := by
  induction kvs with
  | nil => simp [depth.goDict]
  | cons kv kvs ih => simp [depth.goDict, ih]

theorem depth_list_le {xs ys : List Val} (h : ∀ y ∈ ys, ∃ x ∈ xs, depth y ≤ depth x) :
    depth (.list ys) ≤ depth (.list xs) := by
  rw [depth, depth]
  refine Nat.add_le_add_right (goList_le.mpr (fun y hy => ?_)) 1
  obtain ⟨x, hx, hle⟩ := h y hy
  exact hle.trans (goList_le.mp le_rfl x hx)

theorem depth_dict_le {d d' : Dict} (h : ∀ kv' ∈ d', ∃ kv ∈ d, depth kv'.2 ≤ depth kv.2) :
    depth (.dict d') ≤ depth (.dict d) := by
  rw [depth, depth]
  refine Nat.add_le_add_right (goDict_le.mpr (fun kv' hkv' => ?_)) 1
  obtain ⟨kv, hkv, hle⟩ := h kv' hkv'
  exact hle.trans (goDict_le.mp le_rfl kv hkv)

namespace Submodel

variable {α F : Type} {M : Submodel α F} {reads : Val → Option α} {shown : α → Val}

def fieldKeys (M : Submodel α F) : List PyStr :=
  (M.ops++[Op.not]).flatMap (fun op => [op.key,op.field])

theorem opOf_mem {k : PyStr} {op : Op} (h : M.opOf k = some op) :
    op ∈ M.ops++[Op.not] ∧ k ∈ M.fieldKeys := by
  have hmem := List.mem_of_find?_eq_some h
  have hk : op.key = k ∨ op.field = k := by simpa using List.find?_some h
  refine ⟨hmem, List.mem_flatMap.mpr ⟨op, hmem, ?_⟩⟩
  rcases hk with rfl | rfl
  · simp
  · simp

theorem go_cons {k : PyStr} {v : Val} {kvs : Dict} {es : List (Op × Entry α F)}
    (h : read.go M reads ((k,v)::kvs) = some es) : ∃ op e es', M.opOf k = some op ∧
      read.entry M reads op v = some e ∧ read.go M reads kvs = some es' ∧ es = (op,e)::es' := by
  rw [read.go] at h
  simp only [Option.bind_eq_bind, Option.bind_eq_some_iff, Option.pure_def, Option.some.injEq] at h
  obtain ⟨op, hop, e, he, es', hes', rfl⟩ := h
  exact ⟨op, e, es', hop, he, hes', rfl⟩

theorem go_reads {kvs : Dict} {es : List (Op × Entry α F)} (h : read.go M reads kvs = some es) :
    (∀ e ∈ es, ∃ kv ∈ kvs, read.entry M reads e.1 kv.2 = some e.2) ∧
      ∀ kv ∈ kvs, ∃ op e, M.opOf kv.1 = some op ∧ read.entry M reads op kv.2 = some e := by
  induction kvs generalizing es with
  | nil =>
    rw [read.go] at h
    obtain rfl := Option.some.inj h
    constructor
    · intro e he
      cases he
    · intro kv hkv
      cases hkv
  | cons kv kvs ih =>
    obtain ⟨op, e, es', hop, he, hes', rfl⟩ := go_cons h
    obtain ⟨hes, hkvs⟩ := ih hes'
    constructor
    · rintro e' he'
      rcases List.mem_cons.mp he' with rfl | he'
      · exact ⟨kv, List.mem_cons_self, he⟩
      · obtain ⟨kv', hkv', hentry⟩ := hes e' he'
        exact ⟨kv', List.mem_cons_of_mem _ hkv', hentry⟩
    · rintro kv' hkv'
      rcases List.mem_cons.mp hkv' with rfl | hkv'
      · exact ⟨op, e, hop, he⟩
      · exact hkvs kv' hkv'

theorem dump_opsOf (fields : F) (inner : Option (Option (Ops F))) :
    M.dump shown (opsOf fields inner) =
      (M.entries fields inner).map (fun e => (e.1.key,M.showEntry shown e.2)) := by
  rw [← emit_entries]
  rcases inner with _ | _ | o
  · rfl
  · rfl
  · rfl

/-- Every value in the dump is that of an entry. -/
theorem dump_assembled (hM : M.Lawful) {es : List (Op × Entry α F)} {o : Ops F}
    (h : M.assemble es = some o) (kv : PyStr × Val) (hkv : kv ∈ M.dump shown o) :
    ∃ e ∈ es, kv.2 = M.showEntry shown e.2 := by
  unfold assemble at h
  split at h
  · next hnodup =>
    dsimp only at h
    have ho : o = opsOf (M.build (fun op => (Slots.lookup es op).bind Entry.value?))
        ((Slots.lookup es Op.not).bind Entry.inner?) := by
      split at h <;> next heq => rw [heq]; exact (Option.some.inj h).symm
    rw [ho, dump_opsOf] at hkv
    obtain ⟨⟨op, e⟩, he, rfl⟩ := List.mem_map.mp hkv
    obtain ⟨-, hentry⟩ := Slots.mem_emit.mp he
    refine ⟨(op,e), (Slots.lookup_eq_some hnodup).mp ?_, rfl⟩
    dsimp only at hentry ⊢
    unfold entryOf at hentry
    split at hentry
    · next hop =>
      obtain ⟨x, hx, rfl⟩ := Option.map_eq_some_iff.mp hentry
      obtain ⟨y, hy, hyx⟩ := Option.bind_eq_some_iff.mp hx
      cases y with
      | value v => cases hyx
      | inner o' =>
        obtain rfl := Option.some.inj hyx
        rw [hop, hy]
    · obtain ⟨v, hv, rfl⟩ := Option.map_eq_some_iff.mp hentry
      obtain ⟨y, hy, hyv⟩ := Option.bind_eq_some_iff.mp (hM.values_build _ _ _ hv)
      cases y with
      | inner o' => cases hyv
      | value w =>
        obtain rfl := Option.some.inj hyv
        exact hy
  · cases h

theorem readList_depth (hdepth : ∀ v a, reads v = some a → depth (shown a) ≤ depth v)
    {v : Val} {as : List α} (h : readList reads v = some as) :
    depth (.list (as.map shown)) ≤ depth v := by
  cases v with
  | list xs =>
    refine depth_list_le (fun y hy => ?_)
    obtain ⟨a, ha, rfl⟩ := List.mem_map.mp hy
    rw [readList] at h
    induction xs generalizing as with
    | nil =>
      obtain rfl := Option.some.inj h
      simp at ha
    | cons x xs ih =>
      simp only [List.mapM_cons, Option.bind_eq_bind, Option.bind_eq_some_iff, Option.pure_def,
        Option.some.injEq] at h
      obtain ⟨a', ha', as', has', rfl⟩ := h
      rcases List.mem_cons.mp ha with rfl | ha
      · exact ⟨x, List.mem_cons_self, hdepth x a ha'⟩
      · obtain ⟨x', hx', hle⟩ := ih has' ha (List.mem_map_of_mem ha)
        exact ⟨x', List.mem_cons_of_mem _ hx', hle⟩
  | _ => cases h

theorem readValue_depth (hdepth : ∀ v a, reads v = some a → depth (shown a) ≤ depth v)
    {op : Op} {v : Val} {x : OpValue α} (h : readValue reads op v = some x) :
    depth (showOpValue shown x) ≤ depth v := by
  unfold readValue at h
  split at h
  case h_1 | h_2 | h_5 | h_8 => cases h; exact depth_pos _
  case h_3 | h_4 =>
    obtain ⟨xs, hxs, rfl⟩ := Option.map_eq_some_iff.mp h
    exact readList_depth hdepth hxs
  case h_6 => cases h; exact depth_pos _
  case h_7 => cases h
  case h_9 =>
    obtain ⟨a, ha, rfl⟩ := Option.map_eq_some_iff.mp h
    exact hdepth _ a ha

theorem read_depth (hM : M.Lawful) (hdepth : ∀ v a, reads v = some a → depth (shown a) ≤ depth v)
    (v : Val) : ∀ o, M.read reads v = some o → depth (.dict (M.dump shown o)) ≤ depth v := by
  induction v using Val.ind with
  | dict kvs ih =>
    intro o h
    rw [read] at h
    obtain ⟨es, hes, ho⟩ := Option.bind_eq_some_iff.mp h
    refine depth_dict_le (fun kv' hkv' => ?_)
    obtain ⟨⟨op, e⟩, he, hval⟩ := dump_assembled hM ho kv' hkv'
    obtain ⟨kv, hkv, hentry⟩ := (go_reads hes).1 _ he
    refine ⟨kv, hkv, hval ▸ ?_⟩
    dsimp only at hentry ⊢
    by_cases hop : op = .not
    · subst hop
      cases hv : kv.2 with
      | null =>
        rw [hv] at hentry
        cases hentry
        exact le_rfl
      | dict kvs' =>
        rw [hv] at hentry
        obtain ⟨o', ho', rfl⟩ := Option.map_eq_some_iff.mp hentry
        have hrec := ih kv hkv o'
        rw [hv] at hrec
        exact hrec ho'
      | _ => rw [hv] at hentry; cases hentry
    · rw [entry_value hop] at hentry
      obtain ⟨x, hx, rfl⟩ := Option.map_eq_some_iff.mp hentry
      exact readValue_depth hdepth hx
  | _ =>
    intro o h
    cases h

end Submodel

/-- No document in the value names the carrier, and in JSON mode the metadata
holds JSON values. -/
def Transmits (m : Mode) : Val → Prop
  | .dict kvs => go kvs
  | _ => True
where
  go : Dict → Prop
    | [] => True
    | (k,v)::kvs => under k v ∧ go kvs
  under (k : PyStr) : Val → Prop
    | .dict kvs =>
      if isPath k then m = .json → (Val.dict kvs).IsJson
      else
        match Slot.ofKey k with
        | some .carrier => False
        | some .metadata => m = .json → (Val.dict kvs).IsJson
        | some .not_ => go kvs
        | _ => True
    | .list xs =>
      if isPath k then m = .json → (Val.list xs).IsJson
      else
        match Slot.ofKey k with
        | some .carrier => False
        | some .and_ | some .or_ | some .nor_ => all xs
        | _ => True
    | v => if isPath k then m = .json → v.IsJson else Slot.ofKey k ≠ some .carrier
  all : List Val → Prop
    | [] => True
    | x::xs => Transmits m x ∧ all xs

/-- The wire keys of a document: the system keys, `metadata` and the logical
operators. -/
def wireKeys : List PyStr :=
  SystemKey.all.map SystemKey.name++[py "metadata",py "$and",py "$or",py "$nor",py "$not"]

/-- The names of the aliased fields, which `populate_by_name` admits. -/
def fieldNames : List PyStr := [py "and_",py "or_",py "nor_",py "not_"]

/-- Every key of a document, of the documents in it and of the operator objects
of its system keys is a wire key or the name of a field. -/
def Documented : Val → Prop
  | .dict kvs => go kvs
  | _ => True
where
  go : Dict → Prop
    | [] => True
    | (k,v)::kvs => (isPath k = true ∨ k ∈ wireKeys++fieldNames) ∧ under k v ∧ go kvs
  under (k : PyStr) : Val → Prop
    | .dict kvs =>
      match Slot.ofKey k with
      | some (.system (.date _)) => ops dateOps.fieldKeys kvs
      | some (.system (.text _)) => ops stringOps.fieldKeys kvs
      | some .not_ => go kvs
      | _ => True
    | .list xs =>
      match Slot.ofKey k with
      | some .and_ | some .or_ | some .nor_ => all xs
      | _ => True
    | _ => True
  ops (allowed : List PyStr) : Dict → Prop
    | [] => True
    | (k,v)::kvs => k ∈ allowed ∧ operand allowed k v ∧ ops allowed kvs
  operand (allowed : List PyStr) (k : PyStr) : Val → Prop
    | .dict kvs => k = Op.not.key ∨ k = Op.not.field → ops allowed kvs
    | _ => True
  all : List Val → Prop
    | [] => True
    | x::xs => Documented x ∧ all xs

section

attribute [local simp] Transmits Transmits.go Transmits.under Transmits.all Documented Documented.go
  Documented.under Documented.ops Documented.operand Documented.all

theorem transmits_go {m : Mode} {kvs : Dict} :
    Transmits.go m kvs ↔ ∀ kv ∈ kvs, Transmits.under m kv.1 kv.2 := by
  induction kvs with
  | nil => simp
  | cons kv kvs ih => simp [ih]

theorem transmits_all {m : Mode} {xs : List Val} :
    Transmits.all m xs ↔ ∀ x ∈ xs, Transmits m x := by
  induction xs with
  | nil => simp
  | cons x xs ih => simp [ih]

theorem documented_go {kvs : Dict} : Documented.go kvs ↔ ∀ kv ∈ kvs,
    (isPath kv.1 = true ∨ kv.1 ∈ wireKeys++fieldNames) ∧ Documented.under kv.1 kv.2 := by
  induction kvs with
  | nil => simp
  | cons kv kvs ih => simp only [Documented.go, ih, List.forall_mem_cons, and_assoc]

theorem documented_all {xs : List Val} : Documented.all xs ↔ ∀ x ∈ xs, Documented x := by
  induction xs with
  | nil => simp
  | cons x xs ih => simp [ih]

theorem documented_ops {allowed : List PyStr} {kvs : Dict} : Documented.ops allowed kvs ↔
    ∀ kv ∈ kvs, kv.1 ∈ allowed ∧ Documented.operand allowed kv.1 kv.2 := by
  induction kvs with
  | nil => simp
  | cons kv kvs ih => simp only [Documented.ops, ih, List.forall_mem_cons, and_assoc]

end

theorem json_dict {kvs : Dict} : (Val.dict kvs).IsJson ↔ ∀ kv ∈ kvs, kv.2.IsJson := by
  rw [Val.IsJson]
  induction kvs with
  | nil => simp [Val.IsJson.goDict]
  | cons kv kvs ih => simp [Val.IsJson.goDict, ih]

/-- A key that names a field other than the carrier is documented. -/
theorem key_documented {k : PyStr} {s : Slot} (h : Slot.ofKey k = some s) (hs : s ≠ .carrier) :
    k ∈ wireKeys++fieldNames := by
  have hall : Slot.all.all (fun s => s = .carrier ∨
      s.wire ∈ wireKeys++fieldNames ∧ s.field ∈ wireKeys++fieldNames) = true := by decide
  have hmem := List.all_eq_true.mp hall s (mem_slots s)
  have hk : s.wire = k ∨ s.field = k := by simpa using List.find?_some h
  obtain ⟨hwire, hfield⟩ := (of_decide_eq_true hmem).resolve_left hs
  rcases hk with rfl | rfl
  · exact hwire
  · exact hfield

namespace Submodel

variable {α F : Type} {M : Submodel α F} {reads : Val → Option α}

theorem ops_documented (hM : M.Lawful) (v : Val) : ∀ kvs es, v = .dict kvs →
    read.go M reads kvs = some es → Documented.ops M.fieldKeys kvs := by
  induction v using Val.ind with
  | dict kvs ih =>
    intro _ es heq h
    obtain rfl := Val.dict.inj heq
    refine documented_ops.mpr (fun kv hkv => ?_)
    obtain ⟨op, e, hop, hentry⟩ := (go_reads h).2 kv hkv
    refine ⟨(opOf_mem hop).2, ?_⟩
    cases hv : kv.2 with
    | dict kvs' =>
      rw [Documented.operand]
      intro hk
      have hnot : op = .not := by
        rcases hk with hk | hk
        · rw [hk, hM.named .not (by simp)] at hop
          exact (Option.some.inj hop).symm
        · rw [hk, hM.named_not] at hop
          exact (Option.some.inj hop).symm
      rw [hnot, hv] at hentry
      obtain ⟨o, ho, -⟩ := Option.map_eq_some_iff.mp hentry
      obtain ⟨es', hes', -⟩ := Option.bind_eq_some_iff.mp ho
      exact ih kv hkv kvs' es' hv hes'
    | _ => exact trivial
  | _ => exact fun kvs es h => nomatch h

end Submodel

namespace Pydantic

variable {P : Pydantic} {m : Mode}

theorem go_cons {folds : Bool} {k : PyStr} {v : Val} {kvs : Dict} {es : List (Slot × Slot.Entry)}
    (h : read.go P folds ((k,v)::kvs) = some es) :
    (isPath k = true ∨ folds = true ∧ k = Slot.carrier.wire) ∧ read.go P folds kvs = some es ∨
      isPath k = false ∧ ∃ s e es', Slot.ofKey k = some s ∧ read.entry P s v = some e ∧
        read.go P folds kvs = some es' ∧ es = (s,e)::es' := by
  rw [read.go] at h
  split at h
  · next hk => exact .inl ⟨by simpa using hk, h⟩
  · next hk =>
    rw [Bool.or_eq_true, not_or] at hk
    simp only [Option.bind_eq_bind, Option.bind_eq_some_iff, Option.pure_def,
      Option.some.injEq] at h
    obtain ⟨s, hs, e, he, es', hes', rfl⟩ := h
    exact .inr ⟨by simpa using hk.1, s, e, es', hs, he, hes', rfl⟩

/-- Each key of a document is folded, is an overridden carrier or has been
read, and each entry has been read from a key. -/
theorem go_reads {folds : Bool} {kvs : Dict} {es : List (Slot × Slot.Entry)}
    (h : read.go P folds kvs = some es) :
    (∀ e ∈ es, ∃ kv ∈ kvs, isPath kv.1 = false ∧ Slot.ofKey kv.1 = some e.1 ∧
      read.entry P e.1 kv.2 = some e.2) ∧
    ∀ kv ∈ kvs, isPath kv.1 = true ∨ kv.1 = Slot.carrier.wire ∨ isPath kv.1 = false ∧
      ∃ s e, Slot.ofKey kv.1 = some s ∧ read.entry P s kv.2 = some e := by
  induction kvs generalizing es with
  | nil =>
    rw [read.go] at h
    obtain rfl := Option.some.inj h
    constructor
    · intro e he
      cases he
    · intro kv hkv
      cases hkv
  | cons kv kvs ih =>
    rcases go_cons h with ⟨hk, hrest⟩ | ⟨hpath, s, e, es', hs, he, hes', rfl⟩
    · obtain ⟨hes, hkvs⟩ := ih hrest
      constructor
      · intro e he
        obtain ⟨kv', hkv', hread⟩ := hes e he
        exact ⟨kv', List.mem_cons_of_mem _ hkv', hread⟩
      · intro kv' hkv'
        rcases List.mem_cons.mp hkv' with rfl | hkv'
        · exact hk.imp_right (fun hc => .inl hc.2)
        · exact hkvs kv' hkv'
    · obtain ⟨hes, hkvs⟩ := ih hes'
      constructor
      · intro e' he'
        rcases List.mem_cons.mp he' with rfl | he'
        · exact ⟨kv, List.mem_cons_self, hpath, hs, he⟩
        · obtain ⟨kv', hkv', hread⟩ := hes e' he'
          exact ⟨kv', List.mem_cons_of_mem _ hkv', hread⟩
      · intro kv' hkv'
        rcases List.mem_cons.mp hkv' with rfl | hkv'
        · exact .inr (.inr ⟨hpath, s, e, hs, he⟩)
        · exact hkvs kv' hkv'

structure Sound (P : Pydantic) (m : Mode) (v : Val) (b : FilterModel) : Prop where
  plain : Plain m b
  depth : depth (.dict (P.dump m b)) ≤ depth v
  documented : Documented v

def EntrySound (P : Pydantic) (m : Mode) (v : Val) (e : Slot.Entry) : Prop :=
  depth (P.showEntry m e) ≤ depth v ∧
    match e with
    | .blob (some d) => m = .json → ∀ kv ∈ d, kv.2.IsJson
    | .branches (some bs) => ∀ b ∈ bs, Plain m b
    | .inner (some b) => Plain m b
    | _ => True

def ReadsSoundly (P : Pydantic) (m : Mode) (v : Val) : Prop :=
  v.Unique → Transmits m v → ∀ b, P.read v = some b → P.Sound m v b

theorem all_reads {xs : List Val} {bs : List FilterModel} (h : read.all P xs = some bs) :
    (∀ b ∈ bs, ∃ x ∈ xs, P.read x = some b) ∧ ∀ x ∈ xs, ∃ b, P.read x = some b := by
  induction xs generalizing bs with
  | nil =>
    rw [read.all] at h
    obtain rfl := Option.some.inj h
    constructor
    · intro e he
      cases he
    · intro kv hkv
      cases hkv
  | cons x xs ih =>
    rw [read.all] at h
    simp only [Option.bind_eq_bind, Option.bind_eq_some_iff, Option.pure_def,
      Option.some.injEq] at h
    obtain ⟨b, hb, bs', hbs', rfl⟩ := h
    obtain ⟨hbs, hxs⟩ := ih hbs'
    constructor
    · intro b' hb'
      rcases List.mem_cons.mp hb' with rfl | hb'
      · exact ⟨x, List.mem_cons_self, hb⟩
      · obtain ⟨x', hx', hread⟩ := hbs b' hb'
        exact ⟨x', List.mem_cons_of_mem _ hx', hread⟩
    · intro x' hx'
      rcases List.mem_cons.mp hx' with rfl | hx'
      · exact ⟨b, hb⟩
      · exact hxs x' hx'

theorem dump_all (bs : List FilterModel) : dump.all P m bs = bs.map (fun b => .dict (P.dump m b)) := by
  induction bs with
  | nil => rfl
  | cons b bs ih => rw [dump.all, ih, List.map_cons]

theorem branches_sound {xs : List Val} {bs : List FilterModel}
    (ih : ∀ x ∈ xs, P.ReadsSoundly m x) (hu : ∀ x ∈ xs, x.Unique) (ht : Transmits.all m xs)
    (h : read.all P xs = some bs) :
    P.EntrySound m (.list xs) (.branches (some bs)) ∧ Documented.all xs := by
  obtain ⟨hbs, hxs⟩ := all_reads h
  have hsound : ∀ x ∈ xs, ∀ b, P.read x = some b → P.Sound m x b :=
    fun x hx => ih x hx (hu x hx) (transmits_all.mp ht x hx)
  refine ⟨⟨?_, fun b hb => ?_⟩, documented_all.mpr (fun x hx => ?_)⟩
  · rw [showEntry, dump_all]
    refine depth_list_le (fun y hy => ?_)
    obtain ⟨b, hb, rfl⟩ := List.mem_map.mp hy
    obtain ⟨x, hx, hread⟩ := hbs b hb
    exact ⟨x, hx, (hsound x hx b hread).depth⟩
  · obtain ⟨x, hx, hread⟩ := hbs b hb
    exact (hsound x hx b hread).plain
  · obtain ⟨b, hread⟩ := hxs x hx
    exact (hsound x hx b hread).documented

theorem datetime_depth (v : Val) (t : UtcTime) (_ : P.datetime v = some t) :
    depth (P.showDatetime m t) ≤ depth v := by
  cases m with
  | python => exact depth_pos v
  | json => exact depth_pos v

theorem dateSpec_depth {v : Val} {x : DateSpec} (h : P.readDateSpec v = some x) :
    depth (P.showDateSpec m x) ≤ depth v := by
  unfold readDateSpec at h
  split at h
  · cases h
    exact le_rfl
  · obtain ⟨o, ho, rfl⟩ := Option.map_eq_some_iff.mp h
    exact Submodel.read_depth Submodel.dateOps_lawful datetime_depth _ o ho
  · obtain ⟨t, ht, rfl⟩ := Option.map_eq_some_iff.mp h
    exact datetime_depth _ t ht

theorem str_depth (v : Val) (s : PyStr) (_ : readStr v = some s) : depth (.str s) ≤ depth v :=
  depth_pos v

theorem stringSpec_depth {v : Val} {x : StringSpec} (h : readStringSpec v = some x) :
    depth (showStringSpec x) ≤ depth v := by
  unfold readStringSpec at h
  split at h
  · cases h
    exact le_rfl
  · cases h
    exact le_rfl
  · obtain ⟨xs, hxs, rfl⟩ := Option.map_eq_some_iff.mp h
    exact Submodel.readList_depth str_depth hxs
  · obtain ⟨o, ho, rfl⟩ := Option.map_eq_some_iff.mp h
    exact Submodel.read_depth Submodel.stringOps_lawful str_depth _ o ho
  · cases h

/-- The fields that hold a list of documents. -/
theorem branches_entry {k : PyStr} {s : Slot} (hs : s = .and_ ∨ s = .or_ ∨ s = .nor_) {v : Val}
    {e : Slot.Entry} (ih : ∀ xs, v = .list xs → ∀ x ∈ xs, P.ReadsSoundly m x) (hu : v.Unique)
    (hpath : isPath k = false) (ht : Transmits.under m k v) (hk : Slot.ofKey k = some s)
    (h : read.entry P s v = some e) : P.EntrySound m v e ∧ Documented.under k v := by
  cases v with
  | null =>
    have he : e = .branches none := by
      rcases hs with rfl | rfl | rfl <;> exact (Option.some.inj h).symm
    subst he
    exact ⟨⟨le_rfl, trivial⟩, trivial⟩
  | list xs =>
    have hread : ∃ bs, read.all P xs = some bs ∧ .branches (some bs) = e := by
      rcases hs with rfl | rfl | rfl <;> exact Option.map_eq_some_iff.mp h
    have hall : Transmits.all m xs := by
      rcases hs with rfl | rfl | rfl <;> simpa [Transmits.under, hpath, hk] using ht
    obtain ⟨bs, hbs, rfl⟩ := hread
    obtain ⟨hsound, hdoc⟩ := branches_sound (ih xs rfl) ((unique_list xs).mp hu) hall hbs
    refine ⟨hsound, ?_⟩
    rcases hs with rfl | rfl | rfl <;> simpa [Documented.under, hk] using hdoc
  | _ => rcases hs with rfl | rfl | rfl <;> cases h

theorem entry_sound {k : PyStr} {s : Slot} {v : Val} {e : Slot.Entry}
    (ih : P.ReadsSoundly m v ∧ ∀ xs, v = .list xs → ∀ x ∈ xs, P.ReadsSoundly m x) (hu : v.Unique)
    (hpath : isPath k = false) (ht : Transmits.under m k v) (hk : Slot.ofKey k = some s)
    (h : read.entry P s v = some e) :
    s ≠ .carrier ∧ P.EntrySound m v e ∧ Documented.under k v := by
  cases s with
  | carrier => cases v <;> simp [Transmits.under, hpath, hk] at ht
  | and_ => exact ⟨by simp, branches_entry (.inl rfl) ih.2 hu hpath ht hk h⟩
  | or_ => exact ⟨by simp, branches_entry (.inr (.inl rfl)) ih.2 hu hpath ht hk h⟩
  | nor_ => exact ⟨by simp, branches_entry (.inr (.inr rfl)) ih.2 hu hpath ht hk h⟩
  | system key =>
    refine ⟨by simp, ?_⟩
    cases key with
    | date key =>
      rw [read.entry] at h
      obtain ⟨x, hx, rfl⟩ := Option.map_eq_some_iff.mp h
      refine ⟨⟨dateSpec_depth hx, trivial⟩, ?_⟩
      cases v with
      | dict kvs =>
        obtain ⟨o, ho, -⟩ := Option.map_eq_some_iff.mp hx
        obtain ⟨es, hes, -⟩ := Option.bind_eq_some_iff.mp ho
        have hdoc := Submodel.ops_documented Submodel.dateOps_lawful _ kvs es rfl hes
        simpa [Documented.under, hk] using hdoc
      | list xs => simp [Documented.under, hk]
      | _ => trivial
    | text key =>
      rw [read.entry] at h
      obtain ⟨x, hx, rfl⟩ := Option.map_eq_some_iff.mp h
      refine ⟨⟨stringSpec_depth hx, trivial⟩, ?_⟩
      cases v with
      | dict kvs =>
        obtain ⟨o, ho, -⟩ := Option.map_eq_some_iff.mp hx
        obtain ⟨es, hes, -⟩ := Option.bind_eq_some_iff.mp ho
        have hdoc := Submodel.ops_documented Submodel.stringOps_lawful _ kvs es rfl hes
        simpa [Documented.under, hk] using hdoc
      | list xs => simp [Documented.under, hk]
      | _ => trivial
  | metadata =>
    refine ⟨by simp, ?_⟩
    cases v with
    | null =>
      obtain rfl := Option.some.inj h
      exact ⟨⟨le_rfl, trivial⟩, trivial⟩
    | dict d =>
      obtain rfl := Option.some.inj h
      have hjson : m = .json → ∀ kv ∈ d, kv.2.IsJson := by
        have hd : m = .json → (Val.dict d).IsJson := by
          simpa [Transmits.under, hpath, hk] using ht
        exact fun hm => json_dict.mp (hd hm)
      refine ⟨⟨?_, hjson⟩, by simp [Documented.under, hk]⟩
      rw [showEntry, Option.elim_some, showItems_json hjson]
    | _ => cases h
  | not_ =>
    refine ⟨by simp, ?_⟩
    cases v with
    | null =>
      obtain rfl := Option.some.inj h
      exact ⟨⟨le_rfl, trivial⟩, trivial⟩
    | dict d =>
      obtain ⟨b, hb, rfl⟩ := Option.map_eq_some_iff.mp h
      have htd : Transmits.go m d := by simpa [Transmits.under, hpath, hk] using ht
      have hsound := ih.1 hu htd b hb
      refine ⟨⟨hsound.depth, hsound.plain⟩, ?_⟩
      have hdoc : Documented.go d := hsound.documented
      simpa [Documented.under, hk] using hdoc
    | _ => cases h

/-- The entries of a built model are those it was built from. -/
theorem entryOf_build {f : Slot → Option Slot.Entry} {folded : Dict} {s : Slot} {e : Slot.Entry}
    (h : (FilterModel.build f folded).entryOf s = some e) : f s = some e := by
  cases s with
  | carrier => cases h
  | system k =>
    cases k with
    | date k =>
      obtain ⟨x, hx, rfl⟩ := Option.map_eq_some_iff.mp h
      obtain ⟨y, hy, hyx⟩ := Option.bind_eq_some_iff.mp hx
      rw [hy]
      cases y <;> cases hyx <;> rfl
    | text k =>
      obtain ⟨x, hx, rfl⟩ := Option.map_eq_some_iff.mp h
      obtain ⟨y, hy, hyx⟩ := Option.bind_eq_some_iff.mp hx
      rw [hy]
      cases y <;> cases hyx <;> rfl
  | _ =>
    obtain ⟨x, hx, rfl⟩ := Option.map_eq_some_iff.mp h
    obtain ⟨y, hy, hyx⟩ := Option.bind_eq_some_iff.mp hx
    rw [hy]
    cases y <;> cases hyx <;> rfl

/-- A model without a carrier of its own is built from its entries and the
folded predicates. -/
theorem finish_built {kvs : Dict} {es : List (Slot × Slot.Entry)} {b : FilterModel}
    (hes : ∀ e ∈ es, e.1 ≠ .carrier) (h : FilterModel.finish kvs es = some b) :
    b.folded = foldDotPaths kvs ∧ ∀ s e, b.entryOf s = some e → (s,e) ∈ es := by
  have hnone : Slots.lookup es .carrier = none := by
    rw [Slots.lookup, Option.map_eq_none_iff, List.find?_eq_none]
    intro e he
    simpa using hes e he
  unfold FilterModel.finish at h
  by_cases hfolded : foldDotPaths kvs = []
  · rw [if_pos hfolded, FilterModel.assemble, hnone] at h
    split at h
    · next hnodup =>
      obtain rfl := Option.some.inj h
      exact ⟨hfolded.symm, fun s e he => (Slots.lookup_eq_some hnodup).mp (entryOf_build he)⟩
    · cases h
  · rw [if_neg hfolded, FilterModel.assemble] at h
    split at h
    · next hnodup =>
      have hcarrier : Slots.lookup (es++[(.carrier,.raw (.dict (foldDotPaths kvs)))]) .carrier =
          some (.raw (.dict (foldDotPaths kvs))) :=
        (Slots.lookup_eq_some hnodup).mpr (by simp)
      rw [hcarrier] at h
      obtain rfl := Option.some.inj h
      refine ⟨rfl, fun s e he => ?_⟩
      have hmem := (Slots.lookup_eq_some hnodup).mp (entryOf_build he)
      rcases List.mem_append.mp hmem with hmem | hmem
      · exact hmem
      · obtain ⟨rfl, -⟩ := Prod.mk.inj (List.mem_singleton.mp hmem)
        cases he
    · cases h

theorem carrier_untransmitted {k : PyStr} {v : Val} (h : Transmits.under m k v) :
    k ≠ Slot.carrier.wire := by
  rintro rfl
  obtain ⟨hkey, hpath⟩ := slot_named .carrier
  cases v <;> simp [Transmits.under, hkey, hpath] at h

theorem path_json {k : PyStr} {v : Val} (hk : isPath k = true) (h : Transmits.under m k v) :
    m = .json → v.IsJson := by
  cases v <;> simpa [Transmits.under, hk] using h

theorem path_documented {k : PyStr} (hk : isPath k = true) (v : Val) : Documented.under k v := by
  have hnone : Slot.ofKey k = none := by
    rcases hs : Slot.ofKey k with _ | s
    · rfl
    · have hall : Slot.all.all (fun s => isPath s.field = false) = true := by decide
      have hfield : isPath s.field = false := by
        simpa using List.all_eq_true.mp hall s (mem_slots s)
      have hname : s.wire = k ∨ s.field = k := by simpa using List.find?_some hs
      rcases hname with rfl | rfl
      · rw [(slot_named s).2] at hk
        cases hk
      · rw [hfield] at hk
        cases hk
  cases v <;> simp [Documented.under, hnone]

theorem read_sound (v : Val) : P.ReadsSoundly m v := by
  have h : P.ReadsSoundly m v ∧ ∀ xs, v = .list xs → ∀ x ∈ xs, P.ReadsSoundly m x := by
    induction v using Val.ind with
    | list xs ih =>
      refine ⟨fun _ _ b hb => (by cases hb), fun ys hys x hx => ?_⟩
      obtain rfl := Val.list.inj hys
      exact (ih x hx).1
    | dict kvs ih =>
      refine ⟨fun hu ht b hb => ?_, fun xs hxs => by cases hxs⟩
      obtain ⟨hnodup, hvals⟩ := (unique_dict kvs).mp hu
      have hunder := transmits_go.mp ht
      rw [read] at hb
      obtain ⟨es, hes, hfinish⟩ := Option.bind_eq_some_iff.mp hb
      obtain ⟨hentries, hkeys⟩ := go_reads hes
      have hsound : ∀ e ∈ es, e.1 ≠ .carrier ∧ ∃ kv ∈ kvs, P.EntrySound m kv.2 e.2 := by
        intro e he
        obtain ⟨kv, hkv, hpath, hk, hread⟩ := hentries e he
        obtain ⟨hne, hentry, -⟩ := entry_sound (ih kv hkv) (hvals kv hkv) hpath (hunder kv hkv) hk hread
        exact ⟨hne, kv, hkv, hentry⟩
      obtain ⟨hfolded, hbuilt⟩ := finish_built (fun e he => (hsound e he).1) hfinish
      have hpaths : ∀ kv ∈ b.folded, kv ∈ kvs ∧ isPath kv.1 = true := by
        intro kv hkv
        rw [hfolded] at hkv
        exact List.mem_filter.mp hkv
      have hfnodup : (keys b.folded).Nodup := by
        rw [hfolded]
        exact hnodup.sublist (List.filter_sublist.map Prod.fst)
      have hfjson : m = .json → ∀ kv ∈ b.folded, kv.2.IsJson := fun hm kv hkv =>
        path_json (hpaths kv hkv).2 (hunder kv (hpaths kv hkv).1) hm
      constructor
      · rcases b with ⟨sys, md, folded, a, o, n, t⟩
        have hplain : ∀ s e, (FilterModel.mk sys md folded a o n t).entryOf s = some e →
            ∃ v, P.EntrySound m v e := by
          intro s e he
          obtain ⟨-, kv, -, hentry⟩ := hsound _ (hbuilt s e he)
          exact ⟨kv.2, hentry⟩
        have hbranches : ∀ s x, (FilterModel.mk sys md folded a o n t).entryOf s =
            x.map Slot.Entry.branches → Plain.branches m x := by
          rintro s (_ | _ | bs) hx
          · trivial
          · trivial
          · obtain ⟨v, -, hbs⟩ := hplain s _ hx
            exact plain_all.mpr hbs
        refine ⟨⟨hfnodup, fun kv hkv => (hpaths kv hkv).2, fun hm => ⟨hfjson hm, ?_⟩⟩,
          hbranches .and_ a rfl, hbranches .or_ o rfl, hbranches .nor_ n rfl, ?_⟩
        · rintro d rfl
          obtain ⟨v, -, hd⟩ := hplain .metadata _ rfl
          exact hd hm
        · rcases t with _ | _ | c
          · trivial
          · trivial
          · obtain ⟨v, -, hc⟩ := hplain .not_ _ rfl
            exact hc
      · rw [dump_flat hfnodup (fun kv hkv => (hpaths kv hkv).2) hfjson]
        refine depth_dict_le (fun kv' hkv' => ?_)
        rcases List.mem_append.mp hkv' with hkv' | hkv'
        · obtain ⟨⟨s, e⟩, he, rfl⟩ := List.mem_map.mp hkv'
          obtain ⟨-, kv, hkv, hle, -⟩ := hsound _ (hbuilt s e (Slots.mem_emit.mp he).2)
          exact ⟨kv, hkv, hle⟩
        · exact ⟨kv', (hpaths kv' hkv').1, le_rfl⟩
      · refine documented_go.mpr (fun kv hkv => ?_)
        rcases hkeys kv hkv with hpath | hcarrier | ⟨hpath, s, e, hk, hread⟩
        · exact ⟨.inl hpath, path_documented hpath kv.2⟩
        · exact absurd hcarrier (carrier_untransmitted (hunder kv hkv))
        · obtain ⟨hne, -, hdoc⟩ := entry_sound (ih kv hkv) (hvals kv hkv) hpath (hunder kv hkv) hk hread
          exact ⟨.inr (key_documented hk hne), hdoc⟩
    | _ => exact ⟨fun _ _ b hb => (by cases hb), fun xs hxs => by cases hxs⟩
  exact h.1

/-- An accepted document that does not name the carrier is read back from its
dump as the same model, with the same tree, in either mode, where JSON mode
needs metadata that JSON can hold. All its keys are documented. -/
theorem document_round_trip (P : Pydantic) (m : Mode) {doc : Val} {b : FilterModel}
    (hu : doc.Unique) (ht : Transmits m doc) (h : P.modelValidate doc = some b) :
    P.modelValidate (.dict (P.dump m b)) = some b ∧ Documented doc := by
  unfold modelValidate at h
  split at h
  · next hdepth =>
    obtain ⟨hread, haccepted⟩ := Option.filter_eq_some_iff.mp h
    obtain ⟨hplain, hle, hdoc⟩ := read_sound doc hu ht b hread
    refine ⟨?_, hdoc⟩
    rw [modelValidate, if_pos (hle.trans hdepth), read_dump b hplain]
    exact Option.filter_eq_some_iff.mpr ⟨rfl, haccepted⟩
  · cases h

end Pydantic

namespace FieldName

open Classical in
/-- Datetimes are written in ISO format, and what was written is read back. -/
noncomputable def parse : Val → Option DateTime
  | .str s => if h : ∃ t : UtcTime, t.isoformat = s then some h.choose.aware else fromisoformat s
  | _ => none

theorem parse_text (t : UtcTime) : ∃ d, parse (.str t.isoformat) = some d ∧ d.toUtc = some t := by
  have h : ∃ u : UtcTime, u.isoformat = t.isoformat := ⟨t, rfl⟩
  refine ⟨h.choose.aware, dif_pos h, ?_⟩
  rw [UtcTime.aware_toUtc, isoformat_inj h.choose_spec]

def toJson : Val → Val
  | .datetime d => .str d.isoformat
  | v => v

theorem toJson_json (v : Val) (h : v.IsJson) : toJson v = v := by
  cases v with
  | datetime d => exact h.elim
  | _ => rfl

noncomputable def pydantic : Pydantic := ⟨parse,UtcTime.isoformat,toJson,parse_text,toJson_json⟩

def document : Val := .dict [(py "or_",.list [.dict [(py "title",.str (py "x"))]])]

example : Slot.ofKey (py "or_") = some .or_ := by decide

theorem document_accepted : (pydantic.modelValidate document).isSome = true := by decide

/-- A document may name an aliased field by its Python name. -/
theorem field_name_accepted : ¬ ∀ (P : Pydantic) (kvs : Dict) (b : FilterModel),
    P.modelValidate (.dict kvs) = some b →
    ∀ kv ∈ kvs, isPath kv.1 = true ∨ kv.1 ∈ wireKeys := by
  intro h
  obtain ⟨b, hb⟩ := Option.isSome_iff_exists.mp document_accepted
  have hkey := h pydantic _ b hb _ List.mem_cons_self
  exact absurd hkey (by decide)

theorem document_round_trip_field_name : document.Unique ∧ Transmits .json document ∧
    ∃ b, pydantic.modelValidate document = some b ∧
      pydantic.modelValidate (.dict (pydantic.dump .json b)) = some b ∧ Documented document := by
  have hu : document.Unique := by simp [document, keys, Val.Unique, Val.Unique.goList, Val.Unique.goDict]
  have ht : Transmits .json document := by
    have hor : Slot.ofKey (py "or_") = some .or_ ∧ isPath (py "or_") = false := by decide
    have htitle : Slot.ofKey (py "title") = some (.system (.text .title)) ∧
        isPath (py "title") = false := by decide
    simp [document, Transmits, Transmits.go, Transmits.under, Transmits.all, hor, htitle]
  obtain ⟨b, hb⟩ := Option.isSome_iff_exists.mp document_accepted
  exact ⟨hu, ht, b, hb, Pydantic.document_round_trip pydantic .json hu ht hb⟩

end FieldName

end Uru.Filter
