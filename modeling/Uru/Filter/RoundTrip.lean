import Uru.Filter.Canonical
import Uru.Filter.SubmodelTrip

/-!
# Documents come back from their dump

A model whose carrier holds `metadata.` keys only is read back from its dump
as the model it was, so that it lowers to the same tree. An accepted document
that does not name the carrier yields such a model, is not nested less deep
than its dump, and has no key outside of the documented ones.
-/

set_option autoImplicit false

namespace Uru.Filter

open Uru.Lib

theorem FilterModel.ind {Q : FilterModel → Prop}
    (mk : ∀ s m folded a o n t, (∀ bs, a = some (some bs) → ∀ b ∈ bs, Q b) →
      (∀ bs, o = some (some bs) → ∀ b ∈ bs, Q b) → (∀ bs, n = some (some bs) → ∀ b ∈ bs, Q b) →
      (∀ b, t = some (some b) → Q b) → Q (.mk s m folded a o n t)) : ∀ b, Q b
  | .mk s m folded a o n t =>
    mk s m folded a o n t (goOption a) (goOption o) (goOption n) (goInner t)
where
  goList : ∀ bs : List FilterModel, ∀ b ∈ bs, Q b
    | [], _, h => absurd h List.not_mem_nil
    | c::cs, b, h => (List.mem_cons.mp h).elim
        (fun he => he ▸ FilterModel.ind mk c) (goList cs b)
  goOption : ∀ o : Option (Option (List FilterModel)), ∀ bs, o = some (some bs) → ∀ b ∈ bs, Q b
    | none, _, h => nomatch h
    | some none, _, h => nomatch h
    | some (some cs), _, h => Option.some.inj (Option.some.inj h) ▸ goList cs
  goInner : ∀ o : Option (Option FilterModel), ∀ b, o = some (some b) → Q b
    | none, _, h => nomatch h
    | some none, _, h => nomatch h
    | some (some c), _, h => Option.some.inj (Option.some.inj h) ▸ FilterModel.ind mk c

def FilterModel.entryOf : FilterModel → Slot → Option Slot.Entry
  | .mk s m _ a o n t, slot =>
    match slot with
    | .system (.date k) => (s.dates k).map .date
    | .system (.text k) => (s.strings k).map .text
    | .metadata => m.map .blob
    | .and_ => a.map .branches
    | .or_ => o.map .branches
    | .nor_ => n.map .branches
    | .not_ => t.map .inner
    | .carrier => none

def FilterModel.folded : FilterModel → Dict
  | .mk _ _ folded _ _ _ _ => folded

theorem slots_nodup : Slot.all.Nodup := by decide

theorem mem_slots (s : Slot) : s ∈ Slot.all := by
  rcases s with (k | k) | _ | _ | _ | _ | _ | _
  · cases k <;> decide
  · cases k <;> decide
  all_goals decide

theorem slot_named (s : Slot) : Slot.ofKey s.wire = some s ∧ isPath s.wire = false := by
  have h : Slot.all.all (fun s => Slot.ofKey s.wire = some s ∧ isPath s.wire = false) = true := by
    decide
  simpa using List.all_eq_true.mp h s (mem_slots s)

theorem build_entryOf (b : FilterModel) : FilterModel.build b.entryOf b.folded = b := by
  rcases b with ⟨s, m, folded, a, o, n, t⟩
  have kept : ∀ {α β : Type} (x : Option α) (f : α → β) (g : β → Option α),
      (∀ y, g (f y) = some y) → (x.map f).bind g = x := by
    intro α β x f g h
    cases x with
    | none => rfl
    | some y => exact h y
  unfold FilterModel.build
  congr 1
  · congr 1
    · funext k
      exact kept _ _ _ (fun _ => rfl)
    · funext k
      exact kept _ _ _ (fun _ => rfl)
  all_goals exact kept _ _ _ (fun _ => rfl)

namespace Pydantic

variable {P : Pydantic} {m : Mode}

def showEntry (P : Pydantic) (m : Mode) : Slot.Entry → Val
  | .date x => P.showDateSpec m x
  | .text x => showStringSpec x
  | .blob d => d.elim .null (fun d => .dict (P.showItems m d))
  | .branches none => .null
  | .branches (some bs) => .list (dump.all P m bs)
  | .inner none => .null
  | .inner (some b) => .dict (P.dump m b)
  | .raw v => v

def fields (P : Pydantic) (m : Mode) (b : FilterModel) : Dict :=
  (Slots.emit Slot.all b.entryOf).map (fun e => (e.1.wire,P.showEntry m e.2))

theorem dump_fields (b : FilterModel) : P.dump m b = update (P.fields m b) (P.showItems m b.folded) := by
  rcases b with ⟨s, md, folded, a, o, n, t⟩
  have hb : ∀ x : Option (Option (List FilterModel)),
      dump.branches P m x = (x.map Slot.Entry.branches).map (P.showEntry m) := by
    intro x
    rcases x with _ | _ | bs
    · rfl
    · rfl
    · rfl
  have ht : dump.inner P m t = (t.map Slot.Entry.inner).map (P.showEntry m) := by
    rcases t with _ | _ | b
    · rfl
    · rfl
    · rfl
  rw [dump, fields]
  congr 1
  rw [show (fun e : Slot × Slot.Entry => (e.1.wire,P.showEntry m e.2)) =
    (fun e : Slot × Val => (e.1.wire,e.2)) ∘ (fun e => (e.1,P.showEntry m e.2)) from rfl,
    ← List.map_map, ← Slots.emit_map]
  congr 2
  funext slot
  rcases slot with (k | k) | _ | _ | _ | _ | _ | _
  · rw [FilterModel.entryOf, Option.map_map]
    rfl
  · rw [FilterModel.entryOf, Option.map_map]
    rfl
  · rw [FilterModel.entryOf, Option.map_map]
    rfl
  · exact hb a
  · exact hb o
  · exact hb n
  · exact ht
  · rfl

theorem update_fresh {d more : Dict} (hnodup : (keys more).Nodup)
    (hfresh : ∀ kv ∈ more, kv.1 ∉ keys d) : update d more = d++more := by
  induction more generalizing d with
  | nil => rw [List.append_nil]; rfl
  | cons kv more ih =>
    obtain ⟨hkv, hmore⟩ := List.nodup_cons.mp hnodup
    rw [update, List.foldl_cons, if_neg (hfresh kv List.mem_cons_self)]
    refine (ih hmore (fun kv' h hmem => ?_)).trans (by rw [List.append_assoc, List.singleton_append])
    rw [keys, List.map_append, List.mem_append, List.map_singleton, List.mem_singleton] at hmem
    rcases hmem with hmem | heq
    · exact hfresh kv' (List.mem_cons_of_mem _ h) hmem
    · exact hkv (heq ▸ List.mem_map_of_mem h)

/-- The carrier holds distinct `metadata.` keys, and in JSON mode the metadata
holds JSON values, in the model and in every model nested in it. -/
def Plain (m : Mode) : FilterModel → Prop
  | .mk _ md folded a o n t =>
    ((keys folded).Nodup ∧ (∀ kv ∈ folded, isPath kv.1 = true) ∧
      (m = .json → (∀ kv ∈ folded, kv.2.IsJson) ∧ ∀ d, md = some (some d) → ∀ kv ∈ d, kv.2.IsJson)) ∧
    branches a ∧ branches o ∧ branches n ∧ inner t
where
  branches : Option (Option (List FilterModel)) → Prop
    | some (some bs) => all bs
    | _ => True
  all : List FilterModel → Prop
    | [] => True
    | b::bs => Plain m b ∧ all bs
  inner : Option (Option FilterModel) → Prop
    | some (some b) => Plain m b
    | _ => True

theorem plain_all {bs : List FilterModel} : Plain.all m bs ↔ ∀ b ∈ bs, Plain m b := by
  induction bs with
  | nil => simp [Plain.all]
  | cons b bs ih => simp [Plain.all, ih]

theorem showItems_json {kvs : Dict} (h : m = .json → ∀ kv ∈ kvs, kv.2.IsJson) :
    P.showItems m kvs = kvs := by
  rw [showItems, List.map_congr_left (g := id), List.map_id]
  intro kv hkv
  cases m with
  | python => rfl
  | json => exact Prod.ext rfl (P.toJson_json kv.2 (h rfl kv hkv))

theorem fields_path {b : FilterModel} (kv : PyStr × Val) (hkv : kv ∈ P.fields m b) :
    isPath kv.1 = false := by
  obtain ⟨e, -, rfl⟩ := List.mem_map.mp hkv
  exact (slot_named e.1).2

/-- The dump is the fields and then the folded predicates. -/
theorem dump_flat {b : FilterModel} (hnodup : (keys b.folded).Nodup)
    (hpath : ∀ kv ∈ b.folded, isPath kv.1 = true)
    (hjson : m = .json → ∀ kv ∈ b.folded, kv.2.IsJson) :
    P.dump m b = P.fields m b++b.folded := by
  rw [dump_fields, showItems_json hjson]
  refine update_fresh hnodup (fun kv hkv hmem => ?_)
  obtain ⟨kv', hkv', heq⟩ := List.mem_map.mp hmem
  have hno := fields_path kv' hkv'
  rw [heq, hpath kv hkv] at hno
  cases hno

theorem datetime_shown (t : UtcTime) : P.datetime (P.showDatetime m t) = some t := by
  cases m with
  | python => rfl
  | json =>
    obtain ⟨d, hparse, hutc⟩ := P.parse_text t
    rw [showDatetime, datetime, hparse, Option.bind_some, hutc]
    exact nofun

theorem showDatetime_scalar (t : UtcTime) : P.showDatetime m t ≠ .null ∧
    ∀ kvs, P.showDatetime m t ≠ .dict kvs := by
  cases m with
  | python => exact ⟨nofun, nofun⟩
  | json => exact ⟨nofun, nofun⟩

theorem dateSpec_shown (x : DateSpec) : P.readDateSpec (P.showDateSpec m x) = some x := by
  cases x with
  | null => rfl
  | scalar t =>
    obtain ⟨hnull, hdict⟩ := @showDatetime_scalar P m t
    rw [showDateSpec, readDateSpec]
    · rw [datetime_shown]
      rfl
    · exact hnull
    · exact hdict
  | ops o =>
    rw [showDateSpec, readDateSpec, Submodel.read_dump Submodel.dateOps_lawful
      datetime_shown (fun t => (showDatetime_scalar t).1)]
    rfl

theorem stringSpec_shown (x : StringSpec) : readStringSpec (showStringSpec x) = some x := by
  cases x with
  | null => rfl
  | scalar s => rfl
  | list xs =>
    have h : readList readStr (.list (xs.map .str)) = some xs :=
      @Submodel.readList_shown _ readStr .str (fun _ => rfl) xs
    rw [readList] at h
    rw [showStringSpec, readStringSpec, h]
    rfl
  | ops o =>
    have hnull : ∀ s : PyStr, Val.str s ≠ .null := by simp
    rw [showStringSpec, readStringSpec, Submodel.read_dump Submodel.stringOps_lawful
      (fun _ => rfl) hnull]
    rfl

theorem all_shown {bs : List FilterModel} (h : ∀ b ∈ bs, P.read (.dict (P.dump m b)) = some b) :
    read.all P (dump.all P m bs) = some bs := by
  induction bs with
  | nil => rw [dump.all, read.all]
  | cons b bs ih =>
    rw [dump.all, read.all, h b List.mem_cons_self, ih (fun c hc => h c (List.mem_cons_of_mem _ hc))]
    rfl

theorem go_shown {folds : Bool} {es : List (Slot × Slot.Entry)} {folded : Dict}
    (hfolded : ∀ kv ∈ folded, isPath kv.1 = true)
    (h : ∀ e ∈ es, e.1 ≠ .carrier ∧ read.entry P e.1 (P.showEntry m e.2) = some e.2) :
    read.go P folds (es.map (fun e => (e.1.wire,P.showEntry m e.2))++folded) = some es := by
  induction es with
  | nil =>
    rw [List.map_nil, List.nil_append]
    clear h
    induction folded with
    | nil => rw [read.go]
    | cons kv kvs ih =>
      rw [read.go, hfolded kv List.mem_cons_self]
      exact ih (fun kv' h => hfolded kv' (List.mem_cons_of_mem _ h))
  | cons e es ih =>
    obtain ⟨hne, hentry⟩ := h e List.mem_cons_self
    obtain ⟨hkey, hpath⟩ := slot_named e.1
    have hcarrier : e.1.wire ≠ Slot.carrier.wire := by
      intro heq
      rw [heq, (slot_named .carrier).1] at hkey
      exact hne (Option.some.inj hkey).symm
    rw [List.map_cons, List.cons_append, read.go, hpath, hkey,
      ih (fun e' he => h e' (List.mem_cons_of_mem _ he))]
    simp [hcarrier, hentry]

theorem branches_shown {s : Slot} (hs : s = .and_ ∨ s = .or_ ∨ s = .nor_)
    {x : Option (List FilterModel)}
    (h : ∀ bs, x = some bs → ∀ b ∈ bs, P.read (.dict (P.dump m b)) = some b) :
    read.entry P s (P.showEntry m (.branches x)) = some (.branches x) := by
  cases x with
  | none => rcases hs with rfl | rfl | rfl <;> rfl
  | some bs =>
    have hall := all_shown (h bs rfl)
    rcases hs with rfl | rfl | rfl
    all_goals exact congrArg (Option.map (fun bs => Slot.Entry.branches (some bs))) hall

theorem inner_shown {x : Option FilterModel}
    (h : ∀ b, x = some b → P.read (.dict (P.dump m b)) = some b) :
    read.entry P .not_ (P.showEntry m (.inner x)) = some (.inner x) := by
  cases x with
  | none => rfl
  | some b =>
    have hb := h b rfl
    rw [read] at hb
    rw [showEntry, read.entry, hb]
    rfl

def carried (b : FilterModel) : Slot → Option Slot.Entry
  | .carrier => if b.folded = [] then none else some (.raw (.dict b.folded))
  | s => b.entryOf s

def dumped : List Slot := SystemKey.all.map Slot.system++[.metadata,.and_,.or_,.nor_,.not_]

theorem carried_dumped (b : FilterModel) (s : Slot) (hs : s ∈ dumped) :
    carried b s = b.entryOf s := by
  cases s with
  | carrier => exact absurd hs (by decide)
  | _ => rfl

theorem emit_carried (b : FilterModel) :
    (if b.folded = [] then Slots.emit Slot.all b.entryOf
      else Slots.emit Slot.all b.entryOf++[(.carrier,.raw (.dict b.folded))]) =
      Slots.emit Slot.all (carried b) := by
  have hall : Slot.all = dumped++[.carrier] := rfl
  have hinit : dumped.filterMap (fun s => (carried b s).map (fun e => (s,e))) =
      dumped.filterMap (fun s => (b.entryOf s).map (fun e => (s,e))) :=
    List.filterMap_congr (fun s hs => by rw [carried_dumped b s hs])
  have hcarrier : b.entryOf .carrier = none := by
    rcases b with ⟨s, md, folded, a, o, n, t⟩
    rfl
  rw [hall, Slots.emit, Slots.emit, List.filterMap_append, List.filterMap_append, hinit]
  by_cases h : b.folded = []
  · rw [if_pos h]
    simp [carried, h, hcarrier]
  · rw [if_neg h]
    simp [carried, h, hcarrier]

theorem assemble_carried (b : FilterModel) :
    FilterModel.assemble (Slots.emit Slot.all (carried b)) = some b := by
  have hlookup : Slots.lookup (Slots.emit Slot.all (carried b)) = carried b :=
    Slots.lookup_emit slots_nodup (fun s _ _ => mem_slots s)
  have hbuild : FilterModel.build (carried b) b.folded = b := build_entryOf b
  rw [FilterModel.assemble, if_pos (Slots.emit_nodup slots_nodup _), hlookup]
  by_cases h : b.folded = []
  · rw [h] at hbuild
    simp only [carried, h, if_true, hbuild]
  · simp only [carried, h, if_false, hbuild]

theorem read_dump (b : FilterModel) (h : Plain m b) : P.read (.dict (P.dump m b)) = some b := by
  induction b using FilterModel.ind with
  | mk s md folded a o n t iha iho ihn iht =>
    obtain ⟨⟨hnodup, hpath, hjson⟩, ha, ho, hn, ht⟩ := h
    have hbranches : ∀ {x : Option (Option (List FilterModel))} {y},
        (∀ bs, x = some (some bs) → ∀ b ∈ bs, Plain m b → P.read (.dict (P.dump m b)) = some b) →
        Plain.branches m x → x = some y →
        ∀ bs, y = some bs → ∀ b ∈ bs, P.read (.dict (P.dump m b)) = some b := by
      rintro x y ih hx rfl bs rfl b hb
      exact ih bs rfl b hb (plain_all.mp hx b hb)
    have hentry : ∀ slot e, (FilterModel.mk s md folded a o n t).entryOf slot = some e →
        slot ≠ .carrier ∧ read.entry P slot (P.showEntry m e) = some e := by
      intro slot e he
      rcases slot with (k | k) | _ | _ | _ | _ | _ | _
      · obtain ⟨x, -, rfl⟩ := Option.map_eq_some_iff.mp he
        refine ⟨nofun, ?_⟩
        rw [showEntry, read.entry, dateSpec_shown]
        rfl
      · obtain ⟨x, -, rfl⟩ := Option.map_eq_some_iff.mp he
        refine ⟨nofun, ?_⟩
        rw [showEntry, read.entry, stringSpec_shown]
        rfl
      · obtain ⟨x, hx, rfl⟩ := Option.map_eq_some_iff.mp he
        refine ⟨nofun, ?_⟩
        cases x with
        | none => rfl
        | some d =>
          rw [showEntry, Option.elim_some, showItems_json (fun hm => (hjson hm).2 d hx)]
          rfl
      · obtain ⟨x, hx, rfl⟩ := Option.map_eq_some_iff.mp he
        exact ⟨nofun, branches_shown (.inl rfl) (hbranches iha ha hx)⟩
      · obtain ⟨x, hx, rfl⟩ := Option.map_eq_some_iff.mp he
        exact ⟨nofun, branches_shown (.inr (.inl rfl)) (hbranches iho ho hx)⟩
      · obtain ⟨x, hx, rfl⟩ := Option.map_eq_some_iff.mp he
        exact ⟨nofun, branches_shown (.inr (.inr rfl)) (hbranches ihn hn hx)⟩
      · obtain ⟨x, hx, rfl⟩ := Option.map_eq_some_iff.mp he
        refine ⟨nofun, inner_shown ?_⟩
        rintro b rfl
        subst hx
        exact iht b rfl ht
      · cases he
    have hdump : P.dump m (.mk s md folded a o n t) =
        P.fields m (.mk s md folded a o n t)++folded :=
      dump_flat hnodup hpath (fun hm => (hjson hm).1)
    have hfolds : foldDotPaths (P.dump m (.mk s md folded a o n t)) = folded := by
      rw [hdump, foldDotPaths, List.filter_append, List.filter_eq_nil_iff.mpr
        (fun kv hkv => by rw [fields_path kv hkv]; exact Bool.false_ne_true),
        List.filter_eq_self.mpr hpath, List.nil_append]
    have hgo : read.go P (folded ≠ []) (P.dump m (.mk s md folded a o n t)) =
        some (Slots.emit Slot.all (FilterModel.mk s md folded a o n t).entryOf) := by
      rw [hdump, fields]
      exact go_shown hpath (fun e he => hentry e.1 e.2 (Slots.mem_emit.mp he).2)
    rw [read, hfolds, hgo, Option.bind_some, FilterModel.finish, hfolds]
    exact (congrArg FilterModel.assemble (emit_carried (.mk s md folded a o n t))).trans
      (assemble_carried (.mk s md folded a o n t))

end Pydantic

end Uru.Filter
