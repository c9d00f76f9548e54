import Uru.Filter.Wire

/-!
# Submodels come back from their dump

A dumped operator submodel is read as the submodel it was. A field is dumped
under its alias with the value that reading it gives, and a nested `$not` by
the same law one level down.
-/

set_option autoImplicit false

namespace Uru.Filter.Submodel

open Uru.Lib

variable {α F : Type}

def Holds : Op → OpValue α → Prop
  | .in_, .many _ | .nin, .many _ | .exists_, .flag _ => True
  | .in_, _ | .nin, _ | .exists_, _ => False
  | _, .scalar _ => True
  | _, _ => False

structure Lawful (M : Submodel α F) : Prop where
  nodup : (M.ops++[Op.not]).Nodup
  build_values : ∀ fields, M.build (M.values fields) = fields
  values_build : ∀ g op v, M.values (M.build g) op = some v → g op = some v
  holds : ∀ fields op v, M.values fields op = some v → op ∈ M.ops ∧ Holds op v
  named : ∀ op ∈ M.ops++[Op.not], M.opOf op.key = some op
  named_not : M.opOf Op.not.field = some .not

theorem scalar_kept (x : Option (Option α)) :
    (x.map OpValue.scalar).bind OpValue.scalar? = x := by
  cases x with
  | none => rfl
  | some x => rfl

theorem many_kept (x : Option (Option (List α))) :
    (x.map OpValue.many).bind OpValue.many? = x := by
  cases x with
  | none => rfl
  | some x => rfl

theorem flag_kept (x : Option (Option Bool)) :
    (x.map (@OpValue.flag α)).bind OpValue.flag? = x := by
  cases x with
  | none => rfl
  | some x => rfl

theorem stringOps_lawful : stringOps.Lawful where
  nodup := by decide
  build_values o := by simp only [stringOps, scalar_kept, many_kept, flag_kept]
  values_build g op v h := by
    cases op <;> simp only [stringOps, Option.map_eq_some_iff, Option.bind_eq_some_iff,
      reduceCtorEq] at h <;> obtain ⟨x, ⟨y, hy, hx⟩, rfl⟩ := h <;> rw [hy] <;> cases y <;>
      cases hx <;> rfl
  holds o op v h := by
    cases op <;> simp only [stringOps, Option.map_eq_some_iff, reduceCtorEq] at h <;>
      obtain ⟨x, -, rfl⟩ := h <;> exact ⟨by decide, trivial⟩
  named := by decide
  named_not := by decide

theorem dateOps_lawful : dateOps.Lawful where
  nodup := by decide
  build_values o := by simp only [dateOps, scalar_kept, many_kept]
  values_build g op v h := by
    cases op <;> simp only [dateOps, Option.map_eq_some_iff, Option.bind_eq_some_iff,
      reduceCtorEq] at h <;> obtain ⟨x, ⟨y, hy, hx⟩, rfl⟩ := h <;> rw [hy] <;> cases y <;>
      cases hx <;> rfl
  holds o op v h := by
    cases op <;> simp only [dateOps, Option.map_eq_some_iff, reduceCtorEq] at h <;>
      obtain ⟨x, -, rfl⟩ := h <;> exact ⟨by decide, trivial⟩
  named := by decide
  named_not := by decide

section Read

variable {M : Submodel α F} {reads : Val → Option α} {shown : α → Val}

theorem readList_shown (hread : ∀ a, reads (shown a) = some a) (xs : List α) :
    readList reads (.list (xs.map shown)) = some xs := by
  rw [readList, List.mapM_map]
  have hall : ∀ x ∈ xs, (reads ∘ shown) x = pure x := fun x _ => hread x
  induction xs with
  | nil => rfl
  | cons x xs ih =>
    rw [List.mapM_cons, hall x List.mem_cons_self, ih (fun y hy => hall y (List.mem_cons_of_mem _ hy))]
    rfl

theorem readValue_scalar {op : Op} {v : Val} (hop : op ≠ .in_ ∧ op ≠ .nin ∧ op ≠ .exists_)
    (hv : v ≠ .null) : readValue reads op v = (reads v).map (fun x => .scalar (some x)) := by
  obtain ⟨hin, hnin, hexists⟩ := hop
  cases op with
  | in_ => exact absurd rfl hin
  | nin => exact absurd rfl hnin
  | exists_ => exact absurd rfl hexists
  | _ =>
    cases v with
    | null => exact absurd rfl hv
    | _ => rfl

theorem readValue_shown (hread : ∀ a, reads (shown a) = some a) (hnull : ∀ a, shown a ≠ .null)
    {op : Op} {v : OpValue α} (h : Holds op v) :
    readValue reads op (showOpValue shown v) = some v := by
  cases v with
  | many x =>
    have hop : op = .in_ ∨ op = .nin := by
      cases op <;> simp_all [Holds]
    cases x with
    | none => rcases hop with rfl | rfl <;> rfl
    | some xs =>
      rcases hop with rfl | rfl
      · exact congrArg (Option.map _) (readList_shown hread xs)
      · exact congrArg (Option.map _) (readList_shown hread xs)
  | flag x =>
    have hop : op = .exists_ := by
      cases op <;> simp_all [Holds]
    subst hop
    cases x with
    | none => rfl
    | some b => rfl
  | scalar x =>
    have hop : op ≠ .in_ ∧ op ≠ .nin ∧ op ≠ .exists_ := by
      cases op <;> simp_all [Holds]
    cases x with
    | none =>
      obtain ⟨hin, hnin, hexists⟩ := hop
      cases op with
      | in_ => exact absurd rfl hin
      | nin => exact absurd rfl hnin
      | exists_ => exact absurd rfl hexists
      | _ => rfl
    | some a =>
      rw [showOpValue, Option.elim_some, readValue_scalar hop (hnull a), hread]
      rfl

def showEntry (M : Submodel α F) (shown : α → Val) : Entry α F → Val
  | .value v => showOpValue shown v
  | .inner none => .null
  | .inner (some o) => .dict (M.dump shown o)

def entryOf (M : Submodel α F) (fields : F) (inner : Option (Option (Ops F))) (op : Op) :
    Option (Entry α F) :=
  if op = .not then inner.map .inner else (M.values fields op).map .value

def entries (M : Submodel α F) (fields : F) (inner : Option (Option (Ops F))) :
    List (Op × Entry α F) :=
  Slots.emit (M.ops++[Op.not]) (M.entryOf fields inner)

theorem emit_entries (fields : F) (inner : Option (Option (Ops F))) :
    M.emit shown fields (inner.map (fun o => M.showEntry shown (.inner o))) =
      (M.entries fields inner).map (fun e => (e.1.key,M.showEntry shown e.2)) := by
  have h : (fun op => if op = .not then inner.map (fun o => M.showEntry shown (.inner o))
      else (M.values fields op).map (showOpValue shown)) =
      fun op => (M.entryOf fields inner op).map (M.showEntry shown) := by
    funext op
    unfold entryOf
    split
    · rw [Option.map_map]
      rfl
    · rw [Option.map_map]
      rfl
  rw [emit, h, Slots.emit_map, List.map_map]
  rfl

theorem go_shown {es : List (Op × Entry α F)}
    (h : ∀ e ∈ es, M.opOf e.1.key = some e.1 ∧
      read.entry M reads e.1 (M.showEntry shown e.2) = some e.2) :
    read.go M reads (es.map (fun e => (e.1.key,M.showEntry shown e.2))) = some es := by
  induction es with
  | nil => rw [List.map_nil, read.go]
  | cons e es ih =>
    obtain ⟨hop, hentry⟩ := h e List.mem_cons_self
    rw [List.map_cons, read.go, hop, ih (fun e' he => h e' (List.mem_cons_of_mem _ he))]
    simp [hentry]

def opsOf (fields : F) : Option (Option (Ops F)) → Ops F
  | none => .plain fields
  | some none => .notNull fields
  | some (some o) => .notOps fields o

theorem assemble_entries (hM : M.Lawful) (fields : F) (inner : Option (Option (Ops F))) :
    M.assemble (M.entries fields inner) = some (opsOf fields inner) := by
  have hlookup : Slots.lookup (M.entries fields inner) = M.entryOf fields inner := by
    refine Slots.lookup_emit hM.nodup (fun op v hv => ?_)
    unfold entryOf at hv
    split at hv
    · next h => simp [h]
    · obtain ⟨x, hx, -⟩ := Option.map_eq_some_iff.mp hv
      exact List.mem_append_left _ (hM.holds fields op x hx).1
  have hvalues : (fun op => (M.entryOf fields inner op).bind Entry.value?) = M.values fields := by
    funext op
    unfold entryOf
    split
    · next h =>
      rcases hv : M.values fields op with _ | v
      · cases inner with
        | none => rfl
        | some o => rfl
      · have hnodup := (List.nodup_append.mp hM.nodup).2.2
        have hmem := (hM.holds fields op v hv).1
        exact absurd h (hnodup op hmem .not (List.mem_singleton_self _))
    · cases M.values fields op with
      | none => rfl
      | some v => rfl
  have hinner : (M.entryOf fields inner .not).bind Entry.inner? = inner := by
    cases inner with
    | none => rfl
    | some o => rfl
  have hnodup : ((M.entries fields inner).map Prod.fst).Nodup := Slots.emit_nodup hM.nodup _
  rw [assemble, if_pos hnodup, hlookup]
  dsimp only
  rw [hvalues, hM.build_values, hinner]
  rcases inner with _ | _ | o
  · rfl
  · rfl
  · rfl

theorem entry_value {op : Op} (h : op ≠ .not) (v : Val) :
    read.entry M reads op v = (readValue reads op v).map .value := by
  cases op with
  | not => exact absurd rfl h
  | _ => rw [read.entry]; all_goals simp

theorem read_emit (hM : M.Lawful) (hread : ∀ a, reads (shown a) = some a)
    (hnull : ∀ a, shown a ≠ .null) (fields : F) (inner : Option (Option (Ops F)))
    (hinner : ∀ o, inner = some (some o) → M.read reads (.dict (M.dump shown o)) = some o) :
    M.read reads (.dict (M.emit shown fields
      (inner.map (fun o => M.showEntry shown (.inner o))))) = some (opsOf fields inner) := by
  rw [read, emit_entries, go_shown, Option.bind_some, assemble_entries hM]
  rintro ⟨op, e⟩ he
  obtain ⟨hop, hentry⟩ := Slots.mem_emit.mp he
  refine ⟨hM.named op hop, ?_⟩
  dsimp only at hentry ⊢
  unfold entryOf at hentry
  split at hentry
  · next h =>
    subst h
    obtain ⟨o, ho, rfl⟩ := Option.map_eq_some_iff.mp hentry
    cases o with
    | none => rfl
    | some o =>
      have hback := hinner o ho
      rw [read] at hback
      rw [showEntry, read.entry, hback]
      rfl
  · next h =>
    obtain ⟨v, hv, rfl⟩ := Option.map_eq_some_iff.mp hentry
    have hval := readValue_shown hread hnull (hM.holds fields op v hv).2
    rw [showEntry, entry_value h, hval]
    rfl

theorem read_dump (hM : M.Lawful) (hread : ∀ a, reads (shown a) = some a)
    (hnull : ∀ a, shown a ≠ .null) (o : Ops F) :
    M.read reads (.dict (M.dump shown o)) = some o := by
  induction o with
  | plain fields => exact read_emit hM hread hnull fields none (fun o h => nomatch h)
  | notNull fields => exact read_emit hM hread hnull fields (some none) (fun o h => nomatch h)
  | notOps fields inner ih =>
    exact read_emit hM hread hnull fields (some (some inner))
      (fun o h => Option.some.inj (Option.some.inj h) ▸ ih)

end Read

end Uru.Filter.Submodel
