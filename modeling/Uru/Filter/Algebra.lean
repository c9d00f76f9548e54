import Uru.Lib.PushDown
import Uru.Filter.Calendar
import Uru.Filter.Raising

/-!
# The laws of the oracle

What holds of `compile_python` on every record. A predicate of a lowered
document answers as long as Python orders each stored value that a range
operator compares, and every stored datetime or `$date` text that is compared
has an instant in UTC. `$ne` and `$nin` deny `$eq` and `$in`, and a negation
denies what it is around, on every path and operand. Membership is the
disjunction of equalities over the elements of the list, except for the
elements that the two operators read in different ways: null, and on a
metadata path an object and a `$date` literal.
-/

set_option autoImplicit false

namespace Uru.Filter

open Uru.Lib

/-- Values that Python's `<` accepts: two texts, two numbers, two datetimes
that are both naive or both aware, and two lists whose first differing
elements it accepts. -/
def orderable (a b : Val) : Bool :=
  match a, b with
  | .str _, .str _ => true
  | .datetime d, .datetime e => d.offset.isSome == e.offset.isSome
  | .list xs, .list ys => goList xs ys
  | a, b => a.number.isSome && b.number.isSome
where
  goList : List Val → List Val → Bool
    | x::xs, y::ys => if pyEq x y then goList xs ys else orderable x y
    | _, _ => true

def Op.isRange : Op → Bool
  | .gt | .gte | .lt | .lte => true
  | _ => false

theorem holds_isSome (op : Op) (lt eq gt : Bool) : (op.holds lt eq gt).isSome = op.isRange := by
  cases op <;> rfl

theorem compare_goList_isSome {op : Op} (h : op.isRange = true) (xs ys : List Val)
    (ih : ∀ x ∈ xs, ∀ y, (pyCompare op x y).isSome = orderable x y) :
    (pyCompare.goList op xs ys).isSome = orderable.goList xs ys := by
  induction xs generalizing ys with
  | nil => cases ys <;> simp [pyCompare.goList, orderable.goList, holds_isSome, h]
  | cons x xs ihxs =>
    cases ys with
    | nil => simp [pyCompare.goList, orderable.goList, holds_isSome, h]
    | cons y ys =>
      rw [pyCompare.goList, orderable.goList]
      by_cases he : pyEq x y = true
      · rw [if_pos he, if_pos he]
        exact ihxs ys (fun z hz => ih z (List.mem_cons_of_mem x hz))
      · rw [if_neg he, if_neg he]
        exact ih x List.mem_cons_self y

theorem datetimes_isSome {op : Op} (h : op.isRange = true) (d e : DateTime) :
    (pyCompare op (.datetime d) (.datetime e)).isSome = orderable (.datetime d) (.datetime e) := by
  rcases hd : d.offset with _ | o <;> rcases he : e.offset with _ | p
  all_goals simp only [pyCompare, orderable, hd, he]
  case none.none => simp [holds_isSome, h]
  case some.some =>
    split_ifs
    · simp [holds_isSome, h]
    · simp [holds_isSome, h]
  all_goals rfl

/-- A comparison answers exactly for the values that Python orders. -/
theorem pyCompare_isSome {op : Op} (h : op.isRange = true) (a b : Val) :
    (pyCompare op a b).isSome = orderable a b := by
  induction a using Val.ind generalizing b with
  | list xs ih =>
    cases b with
    | list ys => exact compare_goList_isSome h xs ys ih
    | _ => rfl
  | datetime d =>
    cases b with
    | datetime e => exact datetimes_isSome h d e
    | _ => rfl
  | str s => cases b <;> simp [pyCompare, orderable, Val.number, holds_isSome, h]
  | null | dict => cases b <;> rfl
  | bool | int | float => cases b <;> simp [pyCompare, orderable, Val.number, holds_isSome, h]

def Operand.values : Operand → List Val
  | .atom a => [a.value]
  | .tuple xs => xs.map Atom.value

def Operand.isNull : Operand → Bool
  | .atom (.val .null) => true
  | _ => false

/-- A stored system value and an operand of its type: datetimes have an
instant in UTC, and other values that a range operator compares are ones that
Python orders. -/
def SystemPair (op : Op) (stored value : Val) : Prop :=
  match stored, value with
  | .datetime d, .datetime e => hasUtc d ∧ hasUtc e
  | a, b => op.isRange = true → orderable a b = true

/-- A metadata node and an operand: a stored text that parses as a datetime
has an instant in UTC where it meets a `$date` literal, and a node of the
operand's type is one that Python orders against it where the operator is a
range operator. -/
def NodePair (op : Op) (node : Option Val) : Operand → Prop
  | .atom (.date _) => ∀ s d, node = some (.str s) → fromisoformat s = some d → hasUtc d
  | .atom (.val v) => op.isRange = true → ∀ x, node = some x → comparable x v = true →
      orderable x v = true
  | .tuple _ => True

/-- No comparison that the clause makes on the record raises. -/
def Answers (c : FilterClause) (r : Record) : Prop :=
  match pathKind c.path with
  | .system k => ∀ v ∈ c.operand.values, comparable (r.system k) v = true →
      SystemPair c.op (r.system k) v
  | .metadata segs => NodePair c.op (mdDig r.metadata segs) c.operand
  | .unknown => True

section Leaf

theorem eqAligned_isSome {a b : Val} {op : Op} (h : SystemPair op a b) :
    ∃ m, eqAligned a b = some m := by
  unfold eqAligned aligned
  split
  · rename_i d e
    obtain ⟨⟨u, hu⟩, v, hv⟩ := h
    exact ⟨_, by rw [hu, hv]; rfl⟩
  · exact ⟨_, rfl⟩

theorem anyOf_isSome {xs : List (Option Bool)} (h : ∀ x ∈ xs, ∃ b, x = some b) :
    ∃ b, Formula.anyOf xs = some b := by
  induction xs with
  | nil => exact ⟨false, rfl⟩
  | cons x xs ih =>
    obtain ⟨b, rfl⟩ := h x List.mem_cons_self
    obtain ⟨m, hm⟩ := ih (fun y hy => h y (List.mem_cons_of_mem _ hy))
    cases b
    · exact ⟨m, hm⟩
    · exact ⟨true, rfl⟩

theorem members_isSome {op : Op} {stored : Val} {values : List Val}
    (h : ∀ v ∈ values, comparable stored v = true → SystemPair op stored v) :
    ∃ b, Formula.anyOf (values.map
      (fun v => if comparable stored v then eqAligned stored v else some false)) = some b := by
  refine anyOf_isSome (fun x hx => ?_)
  obtain ⟨v, hv, rfl⟩ := List.mem_map.mp hx
  by_cases hc : comparable stored v = true
  · rw [if_pos hc]
    exact eqAligned_isSome (h v hv hc)
  · rw [if_neg hc]
    exact ⟨false, rfl⟩

theorem systemRange_isSome {op : Op} (ho : op.isRange = true) {stored value : Val}
    (h : comparable stored value = true → SystemPair op stored value) :
    ∃ b, systemRange op stored value = some b := by
  unfold systemRange
  by_cases hc : (stored.isNull || !comparable stored value) = true
  · rw [if_pos hc]
    exact ⟨false, rfl⟩
  · rw [if_neg hc]
    have hp := h (by simp only [Bool.or_eq_true, Bool.not_eq_true', not_or] at hc; simpa using hc.2)
    unfold aligned
    split
    · rename_i d e
      obtain ⟨⟨u, hu⟩, v, hv⟩ := hp
      refine Option.isSome_iff_exists.mp ?_
      simp only [hu, hv, bind, Option.bind_some]
      exact (pyCompare_isSome ho _ _).trans rfl
    · rename_i hne
      refine Option.isSome_iff_exists.mp ((pyCompare_isSome ho _ _).trans ?_)
      unfold SystemPair at hp
      split at hp
      · exact absurd rfl (hne _ _ rfl)
      · exact hp ho

/-- The operators that a clause carries, with a tuple for the list operators. -/
def Shaped : Op → Operand → Prop
  | .in_, x | .nin, x => ∃ as, x = .tuple as
  | .eq, _ | .ne, _ | .gt, _ | .gte, _ | .lt, _ | .lte, _ | .exists_, _ => True
  | _, _ => False

theorem date_shaped {op : Op} {x : Operand} (h : DateOperand op x) : Shaped op x := by
  cases op with
  | in_ | nin =>
    obtain ⟨ts, rfl⟩ := h
    exact ⟨_, rfl⟩
  | eq | ne | gt | gte | lt | lte => trivial
  | _ => exact h.elim

theorem string_shaped {P : PyStr → Prop} {op : Op} {x : Operand} (h : StringOperand P op x) :
    Shaped op x := by
  cases op with
  | in_ | nin =>
    obtain ⟨xs, rfl, -⟩ := h
    exact ⟨_, rfl⟩
  | eq | ne | exists_ => trivial
  | _ => exact h.elim

theorem folded_shaped {P : Val → Prop} {op : Op} {x : Operand} (h : FoldedOperand P op x) :
    Shaped op x := by
  cases op with
  | in_ | nin =>
    obtain ⟨as, rfl, -⟩ := h
    exact ⟨_, rfl⟩
  | eq | ne | gt | gte | lt | lte | exists_ => trivial
  | _ => exact h.elim

theorem emitted_shaped {P : Content} {c : FilterClause} (h : Emitted P c) : Shaped c.op c.operand := by
  cases h with
  | date k op x h => exact date_shaped h
  | text k op x h => exact string_shaped h
  | blob d h => trivial
  | folded key op x hk h => exact folded_shaped h

theorem map_isSome {x : Option Bool} (h : ∃ b, x = some b) :
    ∃ b, x.map (fun b => !b) = some b := by
  obtain ⟨b, rfl⟩ := h
  exact ⟨!b, rfl⟩

theorem systemEq_isSome {stored value : Val}
    (h : comparable stored value = true → SystemPair .eq stored value) :
    ∃ b, systemEq stored value = some b := by
  unfold systemEq
  by_cases hc : (stored.isNull || !comparable stored value) = true
  · rw [if_pos hc]
    exact ⟨false, rfl⟩
  · rw [if_neg hc]
    refine eqAligned_isSome (h ?_)
    simp only [Bool.or_eq_true, Bool.not_eq_true', not_or] at hc
    simpa using hc.2

theorem systemNe_eq (stored value : Val) :
    systemNe stored value = (systemEq stored value).map (fun b => !b) := by
  unfold systemNe systemEq
  split <;> rfl

theorem systemNin_eq (stored : Val) (values : List Val) :
    systemNin stored values = (systemIn stored values).map (fun b => !b) := by
  unfold systemNin systemIn
  split <;> rfl

theorem systemIn_isSome {op : Op} {stored : Val} {values : List Val}
    (h : ∀ v ∈ values, comparable stored v = true → SystemPair op stored v) :
    ∃ b, systemIn stored values = some b := by
  unfold systemIn
  split
  · exact ⟨false, rfl⟩
  · exact members_isSome h

def scalarTest (op : Op) (stored value : Val) : Option Bool :=
  if op = .eq then systemEq stored value
  else if op = .ne then systemNe stored value
  else systemRange op stored value

theorem system_scalar {op : Op} (ho : op ∈ [Op.eq,.ne,.gt,.gte,.lt,.lte]) (stored : Val) (a : Atom) :
    compileSystemClause stored op (.atom a) =
      if a.value.isNull then some (if op = .ne then !stored.isNull else stored.isNull)
      else scalarTest op stored a.value := by
  cases op with
  | eq | ne | gt | gte | lt | lte =>
    cases a with
    | date t => rfl
    | val v => cases v <;> rfl
  | _ => exact absurd ho (by decide)

theorem scalarTest_isSome {op : Op} (ho : op ∈ [Op.eq,.ne,.gt,.gte,.lt,.lte]) {stored value : Val}
    (h : comparable stored value = true → SystemPair op stored value) :
    ∃ b, scalarTest op stored value = some b := by
  cases op with
  | eq => exact systemEq_isSome h
  | ne =>
    rw [scalarTest, if_neg (by decide), if_pos rfl, systemNe_eq]
    exact map_isSome (systemEq_isSome h)
  | gt | gte | lt | lte => exact systemRange_isSome rfl h
  | _ => exact absurd ho (by decide)

theorem system_tuple {op : Op} (ho : op ∈ [Op.eq,.ne,.gt,.gte,.lt,.lte]) (stored : Val)
    (as : List Atom) : compileSystemClause stored op (.tuple as) = some (op = .ne : Bool) := by
  cases op with
  | eq | ne | gt | gte | lt | lte => rfl
  | _ => exact absurd ho (by decide)

theorem compares_isSome {op : Op} (ho : op ∈ [Op.eq,.ne,.gt,.gte,.lt,.lte]) {x : Operand}
    {stored : Val} (h : ∀ v ∈ x.values, comparable stored v = true → SystemPair op stored v) :
    ∃ b, compileSystemClause stored op x = some b := by
  cases x with
  | tuple as => exact ⟨_, system_tuple ho stored as⟩
  | atom a =>
    rw [system_scalar ho]
    split
    · exact ⟨_, rfl⟩
    · exact scalarTest_isSome ho (h a.value (List.mem_singleton.mpr rfl))

theorem system_isSome {op : Op} {x : Operand} {stored : Val} (hs : Shaped op x)
    (h : ∀ v ∈ x.values, comparable stored v = true → SystemPair op stored v) :
    ∃ b, compileSystemClause stored op x = some b := by
  cases op with
  | in_ =>
    obtain ⟨as, rfl⟩ := hs
    exact systemIn_isSome h
  | nin =>
    obtain ⟨as, rfl⟩ := hs
    rw [compileSystemClause, systemNin_eq]
    exact map_isSome (systemIn_isSome h)
  | exists_ => exact ⟨x.truthy, by rw [compileSystemClause]⟩
  | eq | ne | gt | gte | lt | lte => exact compares_isSome (by decide) h
  | _ => exact hs.elim

theorem mdDate_isSome {op : Op} (ho : op = .eq ∨ op.isRange = true) {node : Option Val} {t : UtcTime}
    (h : ∀ s d, node = some (.str s) → fromisoformat s = some d → hasUtc d) :
    ∃ b, mdDateCompare op node t = some b := by
  unfold mdDateCompare
  split
  · rename_i s
    rcases hd : fromisoformat s with _ | d
    · exact ⟨false, rfl⟩
    · obtain ⟨u, hu⟩ := h s d rfl hd
      simp only [hu, bind, Option.bind_some]
      rcases ho with rfl | ho
      · exact ⟨_, rfl⟩
      · rw [if_neg (by rintro rfl; cases ho)]
        exact Option.isSome_iff_exists.mp ((pyCompare_isSome ho _ _).trans rfl)
  · exact ⟨false, rfl⟩

theorem mdRange_isSome {op : Op} (ho : op.isRange = true) {node : Option Val} {v : Val}
    (h : ∀ x, node = some x → comparable x v = true → orderable x v = true) :
    ∃ b, mdRangeCompare op node v = some b := by
  cases node with
  | none => exact ⟨false, rfl⟩
  | some x =>
    rw [mdRangeCompare]
    by_cases hc : comparable x v = true
    · rw [if_pos hc]
      exact Option.isSome_iff_exists.mp ((pyCompare_isSome ho _ _).trans (h x rfl hc))
    · rw [if_neg hc]
      exact ⟨false, rfl⟩

theorem mdEq_isSome {node : Option Val} {x : Operand} (h : NodePair .eq node x) :
    ∃ b, mdEq node x = some b := by
  cases x with
  | tuple as => exact ⟨_, rfl⟩
  | atom a =>
    cases a with
    | date t => exact mdDate_isSome (.inl rfl) h
    | val v => cases v <;> exact ⟨_, rfl⟩

theorem node_eq (blob : Dict) {segs : List PyStr} (hs : segs ≠ []) (x : Operand) :
    compileMetadataClause blob segs .eq x =
      if x.isNull then some (mdIsNull (mdDig blob segs)) else mdEq (mdDig blob segs) x := by
  rw [compileMetadataClause, if_neg hs]
  rcases x with (v | t) | as
  · cases v <;> rfl
  · rfl
  · rfl

theorem node_ne (blob : Dict) {segs : List PyStr} (hs : segs ≠ []) (x : Operand) :
    compileMetadataClause blob segs .ne x =
      (compileMetadataClause blob segs .eq x).map (fun b => !b) := by
  rw [node_eq blob hs, compileMetadataClause, if_neg hs]
  rcases x with (v | t) | as
  · cases v <;> rfl
  · rfl
  · rfl

theorem node_in (blob : Dict) {segs : List PyStr} (hs : segs ≠ []) (as : List Atom) :
    compileMetadataClause blob segs .in_ (.tuple as) =
      some (as.any (fun a => mdContains (mdDig blob segs) a.jsonable)) := by
  rw [compileMetadataClause, if_neg hs]

theorem node_nin (blob : Dict) {segs : List PyStr} (hs : segs ≠ []) (x : Operand) :
    compileMetadataClause blob segs .nin x =
      (compileMetadataClause blob segs .in_ x).map (fun b => !b) := by
  rw [compileMetadataClause, compileMetadataClause, if_neg hs, if_neg hs]
  cases x <;> rfl

theorem node_range {op : Op} (ho : op.isRange = true) (blob : Dict) {segs : List PyStr}
    (hs : segs ≠ []) {x : Operand} (h : NodePair op (mdDig blob segs) x) :
    ∃ b, compileMetadataClause blob segs op x = some b := by
  rw [compileMetadataClause, if_neg hs]
  cases op with
  | gt | gte | lt | lte =>
    rcases x with (v | t) | as
    · exact mdRange_isSome rfl (h rfl)
    · exact mdDate_isSome (.inr rfl) h
    · exact ⟨_, rfl⟩
  | _ => cases ho

theorem metadata_isSome {op : Op} {x : Operand} {blob : Dict} {segs : List PyStr} (hs : Shaped op x)
    (h : NodePair op (mdDig blob segs) x) :
    ∃ b, compileMetadataClause blob segs op x = some b := by
  by_cases hsegs : segs = []
  · rw [compileMetadataClause, if_pos hsegs]
    split <;> exact ⟨_, rfl⟩
  · have heq : NodePair .eq (mdDig blob segs) x → ∃ b, compileMetadataClause blob segs .eq x = some b := by
      intro h
      rw [node_eq blob hsegs]
      split
      · exact ⟨_, rfl⟩
      · exact mdEq_isSome h
    cases op with
    | in_ =>
      obtain ⟨as, rfl⟩ := hs
      exact ⟨_, node_in blob hsegs as⟩
    | nin =>
      obtain ⟨as, rfl⟩ := hs
      rw [node_nin blob hsegs, node_in blob hsegs]
      exact ⟨_, rfl⟩
    | exists_ =>
      rw [compileMetadataClause, if_neg hsegs]
      exact ⟨_, rfl⟩
    | eq => exact heq h
    | ne =>
      rw [node_ne blob hsegs]
      exact map_isSome (heq h)
    | gt | gte | lt | lte => exact node_range rfl blob hsegs h
    | _ => exact hs.elim

/-- An emitted clause answers where no comparison that it makes raises. -/
theorem clause_isSome {P : Content} {c : FilterClause} (hc : Emitted P c) {r : Record}
    (h : Answers c r) : ∃ b, compileClause c r = some b := by
  have hs := emitted_shaped hc
  unfold Answers at h
  unfold compileClause
  generalize pathKind c.path = kind at h ⊢
  rcases kind with k | segs | _
  · exact system_isSome hs h
  · exact metadata_isSome hs h
  · exact ⟨true, rfl⟩

end Leaf

def Addressable (path : List PyStr) : Prop :=
  (∃ k, pathKind path = .system k) ∨ ∃ seg segs, pathKind path = .metadata (seg::segs)

/-- An element that membership and equality read alike: not null, and on a
metadata path no object and no `$date` literal. -/
def Plain (path : List PyStr) (a : Atom) : Prop :=
  a.value.isNull = false ∧
    ((∃ k, pathKind path = .system k) ∨ ∃ v, a = .val v ∧ ∀ kvs, v ≠ .dict kvs)

def test (path : List PyStr) (op : Op) (x : Operand) (r : Record) : Option Bool :=
  compileClause ⟨path,op,x⟩ r

section Tests

variable {path : List PyStr}

/-- A law of the clauses holds on every path when it holds on each system
value and on each metadata node. -/
theorem on_paths {P : (Op → Operand → Option Bool) → Prop} (h : Addressable path) (r : Record)
    (hsys : ∀ stored, P (compileSystemClause stored))
    (hmd : ∀ segs, segs ≠ [] → P (compileMetadataClause r.metadata segs)) :
    P (fun op x => test path op x r) := by
  obtain ⟨k, hk⟩ | ⟨seg, segs, hk⟩ := h
  · simpa only [test, compileClause, hk] using hsys (r.system k)
  · simpa only [test, compileClause, hk] using hmd (seg::segs) (List.cons_ne_nil _ _)

theorem test_ne (h : Addressable path) (x : Operand) (r : Record) :
    test path .ne x r = (test path .eq x r).map (fun b => !b) := by
  refine on_paths (P := fun t => t .ne x = (t .eq x).map (fun b => !b)) h r (fun stored => ?_)
    (fun segs hs => node_ne r.metadata hs x)
  cases x with
  | tuple as => rfl
  | atom a =>
    rw [system_scalar (by decide), system_scalar (by decide)]
    by_cases hn : a.value.isNull = true
    · rw [if_pos hn, if_pos hn]
      rfl
    · rw [if_neg hn, if_neg hn]
      exact systemNe_eq stored a.value

theorem test_nin (h : Addressable path) (x : Operand) (r : Record) :
    test path .nin x r = (test path .in_ x r).map (fun b => !b) := by
  refine on_paths (P := fun t => t .nin x = (t .in_ x).map (fun b => !b)) h r (fun stored => ?_)
    (fun segs hs => node_nin r.metadata hs x)
  cases x with
  | tuple as => exact systemNin_eq stored (as.map Atom.value)
  | atom a => rfl

theorem system_in {as : List Atom} (ha : ∀ a ∈ as, a.value.isNull = false) (stored : Val) :
    compileSystemClause stored .in_ (.tuple as) =
      Formula.anyOf (as.map (fun a => compileSystemClause stored .eq (.atom a))) := by
  have heq : as.map (fun a => compileSystemClause stored .eq (.atom a)) =
      as.map (fun a => systemEq stored a.value) :=
    List.map_congr_left (fun a hm => by rw [system_scalar (by decide), if_neg (by simp [ha a hm])]; rfl)
  rw [heq, compileSystemClause, systemIn, List.map_map]
  by_cases hn : stored.isNull = true
  · have hfalse : as.map (fun a => systemEq stored a.value) = (as.map (fun _ => false)).map some := by
      rw [List.map_map]
      exact List.map_congr_left (fun a _ => by simp [systemEq, hn])
    rw [if_pos hn, hfalse, Formula.anyOf_total]
    simp
  · rw [if_neg hn]
    congr 1
    refine List.map_congr_left (fun a _ => ?_)
    rw [Function.comp_apply, systemEq]
    by_cases hc : comparable stored a.value = true
    · rw [if_pos hc, if_neg (by simp [hn, hc])]
    · rw [if_neg hc, if_pos (by simp [hc])]

theorem metadata_in {as : List Atom} {blob : Dict} {segs : List PyStr} (hs : segs ≠ [])
    (ha : ∀ a ∈ as, a.value.isNull = false ∧ ∃ v, a = .val v ∧ ∀ kvs, v ≠ .dict kvs) :
    compileMetadataClause blob segs .in_ (.tuple as) =
      Formula.anyOf (as.map (fun a => compileMetadataClause blob segs .eq (.atom a))) := by
  have heq : as.map (fun a => compileMetadataClause blob segs .eq (.atom a)) =
      (as.map (fun a => mdContains (mdDig blob segs) a.jsonable)).map some := by
    rw [List.map_map]
    refine List.map_congr_left (fun a hm => ?_)
    obtain ⟨hn, v, rfl, hd⟩ := ha a hm
    rw [node_eq blob hs]
    cases v with
    | null => cases hn
    | dict kvs => exact absurd rfl (hd kvs)
    | _ => rfl
  rw [heq, Formula.anyOf_total, node_in blob hs, List.any_map]
  rfl

theorem test_in {as : List Atom} (h : Addressable path) (ha : ∀ a ∈ as, Plain path a) (r : Record) :
    test path .in_ (.tuple as) r =
      Formula.anyOf (as.map (fun a => test path .eq (.atom a) r)) := by
  obtain ⟨k, hk⟩ | ⟨seg, segs, hk⟩ := h
  · simp only [test, compileClause, hk]
    exact system_in (fun a hm => (ha a hm).1) _
  · simp only [test, compileClause, hk]
    refine metadata_in (List.cons_ne_nil _ _) (fun a hm => ⟨(ha a hm).1, ?_⟩)
    obtain ⟨k', hk'⟩ | hv := (ha a hm).2
    · rw [hk] at hk'
      cases hk'
    · exact hv

/-- Whatever its elements are, a list is tested element by element. -/
theorem test_in_elements (h : Addressable path) (as : List Atom) (r : Record) :
    test path .in_ (.tuple as) r =
      Formula.anyOf (as.map (fun a => test path .in_ (.tuple [a]) r)) := by
  refine on_paths (P := fun t => t .in_ (.tuple as) = Formula.anyOf (as.map (fun a => t .in_ (.tuple [a]))))
    h r (fun stored => ?_) (fun segs hs => ?_)
  · simp only [compileSystemClause, systemIn, List.map_cons, List.map_nil, Formula.anyOf_singleton]
    by_cases hn : stored.isNull = true
    · simp only [hn, if_true]
      have hfalse : as.map (fun _ => some false) = (as.map (fun _ => false)).map some := by simp
      rw [hfalse, Formula.anyOf_total]
      simp
    · simp only [hn]
      rw [List.map_map]
      rfl
  · have hone : as.map (fun a => compileMetadataClause r.metadata segs .in_ (.tuple [a])) =
        (as.map (fun a => mdContains (mdDig r.metadata segs) a.jsonable)).map some := by
      rw [List.map_map]
      exact List.map_congr_left (fun a _ => by rw [node_in r.metadata hs]; simp)
    rw [hone, Formula.anyOf_total, node_in r.metadata hs, List.any_map]
    rfl

end Tests

/-- `{"$not": f}` -/
def RecallFilter.denied (f : RecallFilter) : RecallFilter :=
  .mk ⟨fun _ => none, fun _ => none⟩ none [] none none none (some f)

theorem denied_accepted (f : RecallFilter) : f.denied.accepted = f.accepted := by
  simp [RecallFilter.denied, RecallFilter.accepted, RecallFilter.accepted.branches,
    RecallFilter.accepted.inner]

theorem unset_lower : lowerSystem ⟨fun _ => none, fun _ => none⟩ SystemKey.all = .ok [] := by
  rfl

theorem denied_parse {f : RecallFilter} {a : Ast} (h : f.parseToAst = .ok a) :
    f.denied.parseToAst = .ok (normalize (.node .and [.node .not [a]])) := by
  rw [RecallFilter.denied, RecallFilter.parseToAst, unset_lower]
  simp only [lowerFolded, RecallFilter.parseToAst.branches, RecallFilter.parseToAst.inner, h]
  rfl

theorem denied_run (a : Ast) (r : Record) :
    compilePython (normalize (.node .and [.node .not [a]])) r =
      (compilePython a r).map (fun b => !b) := by
  rw [compilePython, normalize_run]
  simp only [Formula.run_node, List.map_cons, List.map_nil, Formula.combine, Formula.allOf_singleton]
  rfl

theorem exactly_one {x y : Option Bool} (h : y = x.map (fun b => !b)) (hx : ∃ b, x = some b) :
    Xor (x = some true) (y = some true) := by
  obtain ⟨b, rfl⟩ := hx
  subst h
  cases b
  · exact .inr ⟨rfl, Bool.noConfusion ∘ Option.some.inj⟩
  · exact .inl ⟨rfl, Bool.noConfusion ∘ Option.some.inj⟩

theorem predicate_isSome {f : RecallFilter} {a : Ast} (hf : f.accepted = true)
    (ha : f.parseToAst = .ok a) {r : Record} (h : ∀ c ∈ a.leaves, Answers c r) :
    ∃ b, compilePython a r = some b := by
  obtain ⟨hu, hl⟩ := parseToAst_built Content.any_hereditary f hf (within_any f) a ha
  exact (Formula.truth_eq_run (v := fun c => compileClause c r) (w := fun c => compileClause c r) a hu
    (fun c hc => ⟨rfl, clause_isSome (hl c hc) (h c hc)⟩)).2

/-- The predicate of a lowered document answers on every record on which no
comparison of it raises, and then the record matches exactly one of the
document and its `$not`. On every path and operand `$ne` denies `$eq` and
`$nin` denies `$in`. A list is tested element by element, and a list of plain
elements by equality with them. -/
theorem boolean_algebra :
    (∀ (f : RecallFilter) (a : Ast), f.accepted = true → f.parseToAst = .ok a →
      ∃ b, f.denied.accepted = true ∧ f.denied.parseToAst = .ok b ∧ ∀ r,
        compilePython b r = (compilePython a r).map (fun m => !m) ∧
        ((∀ c ∈ a.leaves, Answers c r) → (∃ m, compilePython a r = some m) ∧
          Xor (compilePython a r = some true) (compilePython b r = some true))) ∧
      ∀ path, Addressable path → ∀ r,
        (∀ x, test path .ne x r = (test path .eq x r).map (fun m => !m) ∧
          test path .nin x r = (test path .in_ x r).map (fun m => !m)) ∧
        ∀ as, test path .in_ (.tuple as) r =
            Formula.anyOf (as.map (fun a => test path .in_ (.tuple [a]) r)) ∧
          ((∀ a ∈ as, Plain path a) → test path .in_ (.tuple as) r =
            Formula.anyOf (as.map (fun a => test path .eq (.atom a) r))) := by
  refine ⟨fun f a hf ha => ⟨_, (denied_accepted f).trans hf, denied_parse ha, fun r => ?_⟩,
    fun path hp r => ⟨fun x => ⟨test_ne hp x r, test_nin hp x r⟩,
      fun as => ⟨test_in_elements hp as r, fun has => test_in hp has r⟩⟩⟩
  refine ⟨denied_run a r, fun h => ?_⟩
  have hm := predicate_isSome hf ha h
  exact ⟨hm, exactly_one (denied_run a r) hm⟩

/-- A record with `metadata = {"labels": [{"team": "ingest"}], "score": null}`. -/
def labelled : Record where
  system := fun _ => .null
  metadata := [(py "labels",.list [.dict [(py "team",.str (py "ingest"))]]),(py "score",.null)]

def aboveOne : RecallFilter := metadataFilter [(py "metadata.score",.dict [(py "$gt",.int 1)])]

theorem boolean_algebra_labelled :
    (∃ a b, aboveOne.parseToAst = .ok a ∧ aboveOne.denied.parseToAst = .ok b ∧
      Xor (compilePython a labelled = some true) (compilePython b labelled = some true)) ∧
    test [py "metadata",py "score"] .in_ (.tuple [.val (.int 1),.val (.int 2)]) labelled =
      Formula.anyOf [test [py "metadata",py "score"] .eq (.atom (.val (.int 1))) labelled,
        test [py "metadata",py "score"] .eq (.atom (.val (.int 2))) labelled] := by
  obtain ⟨hdocs, hlaws⟩ := boolean_algebra
  constructor
  · obtain ⟨b, -, hb, hrun⟩ := hdocs aboveOne _ (by decide +kernel) rfl
    refine ⟨_, b, rfl, hb, ((hrun labelled).2 ?_).2⟩
    intro c hc
    obtain rfl := List.mem_singleton.mp hc
    show NodePair .gt (some .null) (.atom (.val (.int 1)))
    intro _ x hx hcomparable
    obtain rfl := Option.some.inj hx
    exact absurd hcomparable (by decide)
  · refine ((hlaws [py "metadata",py "score"] (Or.inr ⟨_, _, rfl⟩) labelled).2 _).2 ?_
    intro a ha
    fin_cases ha
    · exact ⟨rfl, Or.inr ⟨_, rfl, fun _ h => by cases h⟩⟩
    · exact ⟨rfl, Or.inr ⟨_, rfl, fun _ h => by cases h⟩⟩

def onLabels (op : String) (v : Val) : RecallFilter :=
  metadataFilter [(py "metadata.labels",.dict [(py op,v)])]

def team : Val := .dict [(py "team",.str (py "ingest"))]

/-- An object that is an element of a stored list is in `$in`, which looks into
the list, and not equal for `$eq`, which compares the object with the list. -/
theorem object_in_not_eq :
    (onLabels "$in" (.list [team])).accepted = true ∧ (onLabels "$eq" team).accepted = true ∧
      (∃ a, (onLabels "$in" (.list [team])).parseToAst = .ok a ∧ compilePython a labelled = some true) ∧
      ∃ a, (onLabels "$eq" team).parseToAst = .ok a ∧ compilePython a labelled = some false :=
  ⟨by decide +kernel, by decide +kernel, ⟨_, rfl, by decide +kernel⟩, ⟨_, rfl, by decide +kernel⟩⟩

/-- `{"metadata.score": {"$gt": null}}` passes the gate of types on a stored
null, which Python does not order. -/
example : (metadataFilter [(py "metadata.score",.dict [(py "$gt",.null)])]).accepted = true ∧
    compileClause ⟨[py "metadata",py "score"],.gt,.val .null⟩ labelled = none := by
  decide +kernel

end Uru.Filter
