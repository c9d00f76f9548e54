import Uru.Filter.Normalize

/-!
# The clauses that lowering emits

Every clause of a lowered tree tests a system key with an operand of that
key's type, the bare metadata blob, or a folded path with an operand that the
metadata grammar allows. The texts, keys and values in it are those of the
document, so that a property of these carries over to the tree. Negations are
built with exactly one child.
-/

set_option autoImplicit false

namespace Uru.Filter

open Uru.Lib

structure Content where
  text : PyStr → Prop
  key : PyStr → Prop
  value : Val → Prop

structure Content.Hereditary (P : Content) : Prop where
  list : ∀ xs, P.value (.list xs) → ∀ x ∈ xs, P.value x
  dict : ∀ kvs, P.value (.dict kvs) → ∀ kv ∈ kvs, P.value kv.2

def Content.any : Content := ⟨fun _ => True, fun _ => True, fun _ => True⟩

theorem Content.any_hereditary : Content.any.Hereditary :=
  ⟨fun _ _ _ _ => trivial, fun _ _ _ _ => trivial⟩

structure StringOps.Fields.Within (P : Content) (o : StringOps.Fields) : Prop where
  eq : ∀ s, o.eq = some (some s) → P.text s
  ne : ∀ s, o.ne = some (some s) → P.text s
  in_ : ∀ xs, o.in_ = some (some xs) → ∀ s ∈ xs, P.text s
  nin : ∀ xs, o.nin = some (some xs) → ∀ s ∈ xs, P.text s

def StringOps.Within (P : Content) : StringOps → Prop
  | .plain f => f.Within P
  | .notNull f => f.Within P
  | .notOps f inner => f.Within P ∧ StringOps.Within P inner

def StringSpec.Within (P : Content) : StringSpec → Prop
  | .null => True
  | .scalar s => P.text s
  | .list xs => ∀ s ∈ xs, P.text s
  | .ops o => StringOps.Within P o

/-- The texts, folded keys and metadata values of a document and of the
documents in it have the properties. -/
def RecallFilter.Within (P : Content) : RecallFilter → Prop
  | .mk system metadata folded and_ or_ nor_ not_ =>
    (∀ k spec, system.strings k = some spec → spec.Within P) ∧
      (∀ d, metadata = some d → P.value (.dict d)) ∧
      (∀ kv ∈ folded, P.key kv.1 ∧ P.value kv.2) ∧
      branches and_ ∧ branches or_ ∧ branches nor_ ∧ inner not_
where
  branches : Option (List RecallFilter) → Prop
    | none => True
    | some fs => all fs
  all : List RecallFilter → Prop
    | [] => True
    | f::fs => RecallFilter.Within P f ∧ all fs
  inner : Option RecallFilter → Prop
    | none => True
    | some f => RecallFilter.Within P f

def DateOperand : Op → Operand → Prop
  | .in_, x | .nin, x => ∃ ts : List UtcTime, x = .tuple (ts.map (fun t => .val t.val))
  | .eq, x | .ne, x | .gt, x | .gte, x | .lt, x | .lte, x =>
    x = .val .null ∨ ∃ t : UtcTime, x = .val t.val
  | _, _ => False

def textTuple (xs : List PyStr) : Operand := .tuple (xs.map (fun s => .val (.str s)))

def StringOperand (P : PyStr → Prop) : Op → Operand → Prop
  | .in_, x | .nin, x => ∃ xs, x = textTuple xs ∧ ∀ s ∈ xs, P s
  | .eq, x => x = .val .null ∨ (∃ s, x = .val (.str s) ∧ P s) ∨ ∃ xs, x = textTuple xs ∧ ∀ s ∈ xs, P s
  | .ne, x => x = .val .null ∨ ∃ s, x = .val (.str s) ∧ P s
  | .exists_, x => x = .val .null ∨ ∃ b, x = .val (.bool b)
  | _, _ => False

/-- A `$date` literal, or a value that is not one. -/
def Atom.Lowered (P : Val → Prop) : Atom → Prop
  | .date _ => True
  | .val v => P v ∧ soleDate v = none

def FoldedOperand (P : Val → Prop) : Op → Operand → Prop
  | .in_, x | .nin, x => ∃ as, x = .tuple as ∧ ∀ a ∈ as, a.Lowered P
  | .eq, x => (∃ a, x = .atom a ∧ a.Lowered P) ∨ ∃ xs, x = .tuple (xs.map .val) ∧ P (.list xs)
  | .ne, x | .gt, x | .gte, x | .lt, x | .lte, x => ∃ a, x = .atom a ∧ a.Lowered P
  | .exists_, x => ∃ b, x = .val (.bool b)
  | _, _ => False

inductive Emitted (P : Content) : FilterClause → Prop
  | date (k : DateKey) (op : Op) (x : Operand) (h : DateOperand op x) :
      Emitted P ⟨[(SystemKey.date k).name], op, x⟩
  | text (k : StringKey) (op : Op) (x : Operand) (h : StringOperand P.text op x) :
      Emitted P ⟨[(SystemKey.text k).name], op, x⟩
  | blob (d : Dict) (h : P.value (.dict d)) : Emitted P ⟨[py "metadata"], .eq, .val (.dict d)⟩
  | folded (key : PyStr) (op : Op) (x : Operand) (hk : P.key key) (h : FoldedOperand P.value op x) :
      Emitted P ⟨splitDots key, op, x⟩

/-- A tree as lowering builds it: its negations have one child, and its
clauses are emitted ones. -/
def Built (P : Content) (a : Ast) : Prop := Unary a ∧ ∀ c ∈ a.leaves, Emitted P c

def BuiltAll (P : Content) (as : List Ast) : Prop := ∀ a ∈ as, Built P a

section Built

variable {P : Content}

theorem built_clause {path : List PyStr} {op : Op} {x : Operand} (h : Emitted P ⟨path, op, x⟩) :
    Built P (clause path op x) :=
  ⟨trivial, fun c hc => by rw [List.mem_singleton.mp hc]; exact h⟩

theorem built_nil : BuiltAll P [] := fun _ h => absurd h List.not_mem_nil

theorem built_singleton {a : Ast} (h : Built P a) : BuiltAll P [a] :=
  fun b hb => by rw [List.mem_singleton.mp hb]; exact h

theorem built_append {as bs : List Ast} (ha : BuiltAll P as) (hb : BuiltAll P bs) :
    BuiltAll P (as++bs) :=
  fun c hc => (List.mem_append.mp hc).elim (ha c) (hb c)

theorem built_node {op : Connective} {as : List Ast} (ho : op = .not → as.length = 1)
    (h : BuiltAll P as) : Built P (.node op as) := by
  refine ⟨(Formula.atNodes_node _ _ _).mpr ⟨ho, fun a ha => (h a ha).1⟩, fun c hc => ?_⟩
  rw [Formula.leaves_node, List.mem_flatMap] at hc
  obtain ⟨a, ha, hca⟩ := hc
  exact (h a ha).2 c hca

theorem built_not {a : Ast} (h : Built P a) : Built P (.node .not [a]) :=
  built_node (fun _ => rfl) (built_singleton h)

theorem built_negate {as : List Ast} (h : BuiltAll P as) : Built P (negate as) := by
  have hand : Built P (.node .and as) := built_node (fun he => nomatch he) h
  rcases as with _ | ⟨a, _ | ⟨b, as⟩⟩
  · exact built_not hand
  · exact built_not (h a (by simp))
  · exact built_not hand

theorem built_normalize {a : Ast} (h : Built P a) : Built P (normalize a) :=
  ⟨(normalize_normal a h.1).unary, fun c hc => h.2 c (by rwa [normalize_leaves] at hc)⟩

end Built

theorem bind_ok {α β : Type} {x : Except PyError α} {f : α → Except PyError β} {b : β} :
    (x >>= f) = .ok b ↔ ∃ a, x = .ok a ∧ f a = .ok b := by
  cases x with
  | error e => exact ⟨(nomatch ·), fun ⟨_, h, _⟩ => nomatch h⟩
  | ok a =>
    refine ⟨fun h => ⟨a, rfl, h⟩, fun ⟨c, h, hf⟩ => ?_⟩
    cases h
    exact hf

theorem map_ok {α β : Type} {x : Except PyError α} {f : α → β} {b : β} :
    x.map f = .ok b ↔ ∃ a, x = .ok a ∧ f a = b := by
  cases x with
  | error e => exact ⟨(nomatch ·), fun ⟨_, h, _⟩ => nomatch h⟩
  | ok a =>
    refine ⟨fun h => ⟨a, rfl, Except.ok.inj h⟩, fun ⟨c, h, hf⟩ => ?_⟩
    cases h
    rw [← hf]
    rfl

theorem operator_not (path : List PyStr) (v : Val) (key : PyStr) (a : Ast)
    (hn : Op.ofKey key = some .not) (h : lowerOperator path key v = .ok a) :
    ∃ kvs as, v = .dict kvs ∧ lowerOperator.go path kvs = .ok as ∧ a = negate as := by
  unfold lowerOperator at h
  rw [hn] at h
  cases v with
  | dict kvs =>
    obtain ⟨as, ha, rfl⟩ := map_ok.mp h
    exact ⟨kvs, as, rfl, ha, rfl⟩
  | _ => cases h

theorem makeDateLiteral_date {raw : Val} {a : Atom} (h : makeDateLiteral raw = .ok a) :
    ∃ t, a = .date t := by
  unfold makeDateLiteral at h
  split at h
  · split at h
    · cases h
    · split at h
      · cases h
      · cases h
        exact ⟨_, rfl⟩
  · cases h

section Lowered

variable {P : Val → Prop}

theorem lowerScalarOperand_lowered {v : Val} {a : Atom} (hv : P v)
    (h : lowerScalarOperand v = .ok a) : a.Lowered P := by
  unfold lowerScalarOperand at h
  split at h
  · obtain ⟨t, rfl⟩ := makeDateLiteral_date h
    trivial
  · rename_i hs
    cases h
    exact ⟨hv, hs⟩

theorem lowerOperandList_lowered (xs : List Val) (as : List Atom) (hv : ∀ x ∈ xs, P x)
    (h : lowerOperandList xs = .ok as) : ∀ a ∈ as, a.Lowered P := by
  induction xs generalizing as with
  | nil =>
    cases h
    exact fun a ha => absurd ha List.not_mem_nil
  | cons x xs ih =>
    obtain ⟨a, ha, h⟩ := bind_ok.mp h
    obtain ⟨bs, hb, h⟩ := bind_ok.mp h
    cases h
    intro b hbm
    rcases List.mem_cons.mp hbm with rfl | hbm
    · exact lowerScalarOperand_lowered (hv x (by simp)) ha
    · exact ih bs (fun y hy => hv y (by simp [hy])) hb b hbm

end Lowered

section Emits

variable {P : Content}

theorem lowerField_built {α : Type} (path : List PyStr) (op : Op) (f : α → Val)
    (x : Option (Option α)) (hnull : Emitted P ⟨path, op, .val .null⟩)
    (h : ∀ a, x = some (some a) → Emitted P ⟨path, op, .val (f a)⟩) :
    BuiltAll P (lowerField path op f x) := by
  rcases x with _ | _ | a
  · exact built_nil
  · exact built_singleton (built_clause hnull)
  · exact built_singleton (built_clause (h a rfl))

theorem lowerListField_built {α : Type} (path : List PyStr) (op : Op) (f : α → Val)
    (x : Option (Option (List α)))
    (h : ∀ xs, x = some (some xs) → Emitted P ⟨path, op, .tuple (xs.map (fun a => .val (f a)))⟩)
    (out : List Ast) (ho : lowerListField path op f x = .ok out) : BuiltAll P out := by
  rcases x with _ | _ | xs
  · cases ho
    exact built_nil
  · cases ho
  · cases ho
    exact built_singleton (built_clause (h xs rfl))

theorem stringOps_built (k : StringKey) (o : StringOps.Fields) (hw : o.Within P) (out : List Ast)
    (h : o.lower [(SystemKey.text k).name] = .ok out) : BuiltAll P out := by
  obtain ⟨ins, hi, h⟩ := bind_ok.mp h
  obtain ⟨nins, hn, h⟩ := bind_ok.mp h
  cases h
  refine built_append (built_append (built_append (built_append ?_ ?_) ?_) ?_) ?_
  · exact lowerField_built _ _ _ _ (.text k _ _ (.inl rfl))
      (fun s hs => .text k _ _ (.inr (.inl ⟨s, rfl, hw.eq s hs⟩)))
  · exact lowerField_built _ _ _ _ (.text k _ _ (.inl rfl))
      (fun s hs => .text k _ _ (.inr ⟨s, rfl, hw.ne s hs⟩))
  · exact lowerListField_built _ _ _ _ (fun xs hx => .text k .in_ _ ⟨xs, rfl, hw.in_ xs hx⟩) _ hi
  · exact lowerListField_built _ _ _ _ (fun xs hx => .text k .nin _ ⟨xs, rfl, hw.nin xs hx⟩) _ hn
  · exact lowerField_built _ _ _ _ (.text k _ _ (.inl rfl)) (fun b _ => .text k _ _ (.inr ⟨b, rfl⟩))

theorem dateField_built (k : DateKey) (op : Op) (x : Option (Option UtcTime))
    (h : ∀ y, DateOperand op y ↔ (y = .val .null ∨ ∃ t : UtcTime, y = .val t.val)) :
    BuiltAll P (lowerField [(SystemKey.date k).name] op UtcTime.val x) :=
  lowerField_built _ _ _ _ (.date k _ _ ((h _).mpr (.inl rfl)))
    (fun t _ => .date k _ _ ((h _).mpr (.inr ⟨t, rfl⟩)))

theorem dateOps_built (k : DateKey) (o : DateOps.Fields) (out : List Ast)
    (h : o.lower [(SystemKey.date k).name] = .ok out) : BuiltAll P out := by
  obtain ⟨ins, hi, h⟩ := bind_ok.mp h
  obtain ⟨nins, hn, h⟩ := bind_ok.mp h
  cases h
  refine built_append (built_append (built_append (built_append (built_append (built_append
    (built_append ?_ ?_) ?_) ?_) ?_) ?_) ?_) ?_
  · exact dateField_built k .eq _ (fun _ => Iff.rfl)
  · exact dateField_built k .ne _ (fun _ => Iff.rfl)
  · exact dateField_built k .gt _ (fun _ => Iff.rfl)
  · exact dateField_built k .gte _ (fun _ => Iff.rfl)
  · exact dateField_built k .lt _ (fun _ => Iff.rfl)
  · exact dateField_built k .lte _ (fun _ => Iff.rfl)
  · exact lowerListField_built _ _ _ _ (fun xs _ => .date k .in_ _ ⟨xs, rfl⟩) _ hi
  · exact lowerListField_built _ _ _ _ (fun xs _ => .date k .nin _ ⟨xs, rfl⟩) _ hn

theorem ops_built {F : Type} (lower : F → Except PyError (List Ast)) (W : Ops F → Prop)
    (hplain : ∀ f, W (.plain f) → ∀ out, lower f = .ok out → BuiltAll P out)
    (hinner : ∀ f o, W (.notOps f o) → W (.plain f) ∧ W o)
    (o : Ops F) (hw : W o) (out : List Ast) (ho : lowerOpsSubmodel lower o = .ok out) :
    BuiltAll P out := by
  induction o generalizing out with
  | plain f => exact hplain f hw out ho
  | notNull f =>
    obtain ⟨as, _, he⟩ := bind_ok.mp ho
    cases he
  | notOps f inner ih =>
    obtain ⟨as, ha, ho⟩ := bind_ok.mp ho
    obtain ⟨bs, hb, ho⟩ := bind_ok.mp ho
    cases ho
    exact built_append (hplain f (hinner f inner hw).1 as ha)
      (built_singleton (built_negate (ih (hinner f inner hw).2 bs hb)))

theorem dateSpec_built (k : DateKey) (o : DateSpec) (out : List Ast)
    (h : o.lower [(SystemKey.date k).name] = .ok out) : BuiltAll P out := by
  cases o with
  | null =>
    cases h
    exact built_singleton (built_clause (.date k _ _ (.inl rfl)))
  | scalar t =>
    cases h
    exact built_singleton (built_clause (.date k _ _ (.inr ⟨t, rfl⟩)))
  | ops o =>
    exact ops_built _ (fun _ => True) (fun f _ => dateOps_built k f) (fun _ _ _ => ⟨trivial, trivial⟩)
      o trivial out h

theorem stringSpec_built (k : StringKey) (o : StringSpec) (hw : o.Within P) (out : List Ast)
    (h : o.lower [(SystemKey.text k).name] = .ok out) : BuiltAll P out := by
  cases o with
  | null =>
    cases h
    exact built_singleton (built_clause (.text k _ _ (.inl rfl)))
  | scalar s =>
    cases h
    exact built_singleton (built_clause (.text k _ _ (.inr (.inl ⟨s, rfl, hw⟩))))
  | list xs =>
    cases h
    exact built_singleton (built_clause (.text k _ _ (.inr (.inr ⟨xs, rfl, hw⟩))))
  | ops o =>
    exact ops_built _ (StringOps.Within P) (fun f hf => stringOps_built k f hf) (fun _ _ ho => ho)
      o hw out h

theorem systemKey_built (fields : SystemFields)
    (hw : ∀ k spec, fields.strings k = some spec → spec.Within P) (k : SystemKey) (out : List Ast)
    (h : lowerSystemKey fields k = .ok out) : BuiltAll P out := by
  cases k with
  | date k =>
    rw [lowerSystemKey] at h
    cases hd : fields.dates k with
    | none =>
      rw [hd] at h
      cases h
      exact built_nil
    | some spec =>
      rw [hd] at h
      exact dateSpec_built k spec out h
  | text k =>
    rw [lowerSystemKey] at h
    cases hs : fields.strings k with
    | none =>
      rw [hs] at h
      cases h
      exact built_nil
    | some spec =>
      rw [hs] at h
      exact stringSpec_built k spec (hw k spec hs) out h

theorem system_built (fields : SystemFields)
    (hw : ∀ k spec, fields.strings k = some spec → spec.Within P) (ks : List SystemKey)
    (out : List Ast) (h : lowerSystem fields ks = .ok out) : BuiltAll P out := by
  induction ks generalizing out with
  | nil =>
    cases h
    exact built_nil
  | cons k ks ih =>
    obtain ⟨as, ha, h⟩ := bind_ok.mp h
    obtain ⟨bs, hb, h⟩ := bind_ok.mp h
    cases h
    exact built_append (systemKey_built fields hw k as ha) (ih bs hb)

/-- An operator other than `$not` lowers to one clause. -/
theorem operator_built_of_ne (key : PyStr) (hk : P.key key) (name : PyStr) (op : Op)
    (hop : Op.ofKey name = some op) (hne : op ≠ .not) (v : Val) (hv : P.value v)
    (hP : P.Hereditary) (hw : walkOperator name v = true) (a : Ast)
    (h : lowerOperator (splitDots key) name v = .ok a) : Built P a := by
  have hscalar : ∀ op : Op, (∀ b : Atom, b.Lowered P.value → FoldedOperand P.value op (.atom b)) →
      ∀ b, lowerScalarOperand v = .ok b → Built P (clause (splitDots key) op (.atom b)) :=
    fun op ho b hb => built_clause (.folded key _ _ hk (ho b (lowerScalarOperand_lowered hv hb)))
  have hlist : ∀ op : Op, (op = .in_ ∨ op = .nin) → ∀ xs as, v = .list xs →
      lowerOperandList xs = .ok as → Built P (clause (splitDots key) op (.tuple as)) := by
    intro op ho xs as hx ha
    have hl := lowerOperandList_lowered xs as (fun x hm => hP.list xs (hx ▸ hv) x hm) ha
    rcases ho with rfl | rfl
    · exact built_clause (.folded key _ _ hk ⟨as, rfl, hl⟩)
    · exact built_clause (.folded key _ _ hk ⟨as, rfl, hl⟩)
  unfold lowerOperator at h
  unfold walkOperator at hw
  rw [hop] at h hw
  cases op with
  | not => exact absurd rfl hne
  | in_ =>
    cases v with
    | list xs =>
      obtain ⟨as, ha, rfl⟩ := map_ok.mp h
      exact hlist .in_ (.inl rfl) xs as rfl ha
    | _ => cases h
  | nin =>
    cases v with
    | list xs =>
      obtain ⟨as, ha, rfl⟩ := map_ok.mp h
      exact hlist .nin (.inr rfl) xs as rfl ha
    | _ => cases h
  | exists_ =>
    cases v with
    | bool b =>
      cases h
      exact built_clause (.folded key _ _ hk ⟨b, rfl⟩)
    | _ => cases hw
  | eq =>
    obtain ⟨b, hb, rfl⟩ := map_ok.mp h
    exact hscalar .eq (fun b hb => .inl ⟨b, rfl, hb⟩) b hb
  | ne =>
    obtain ⟨b, hb, rfl⟩ := map_ok.mp h
    exact hscalar .ne (fun b hb => ⟨b, rfl, hb⟩) b hb
  | gt =>
    obtain ⟨b, hb, rfl⟩ := map_ok.mp h
    exact hscalar .gt (fun b hb => ⟨b, rfl, hb⟩) b hb
  | gte =>
    obtain ⟨b, hb, rfl⟩ := map_ok.mp h
    exact hscalar .gte (fun b hb => ⟨b, rfl, hb⟩) b hb
  | lt =>
    obtain ⟨b, hb, rfl⟩ := map_ok.mp h
    exact hscalar .lt (fun b hb => ⟨b, rfl, hb⟩) b hb
  | lte =>
    obtain ⟨b, hb, rfl⟩ := map_ok.mp h
    exact hscalar .lte (fun b hb => ⟨b, rfl, hb⟩) b hb
  | and | or | nor | date => cases hw

theorem operators_built (path : List PyStr) (kvs : Dict)
    (ih : ∀ kv ∈ kvs, ∀ a, lowerOperator path kv.1 kv.2 = .ok a → Built P a)
    (out : List Ast) (h : lowerOperator.go path kvs = .ok out) : BuiltAll P out := by
  induction kvs generalizing out with
  | nil =>
    cases h
    exact built_nil
  | cons kv kvs ihk =>
    obtain ⟨a, ha, h⟩ := bind_ok.mp h
    obtain ⟨as, hs, h⟩ := bind_ok.mp h
    cases h
    exact built_append (built_singleton (ih kv (by simp) a ha))
      (ihk (fun kv hkv => ih kv (by simp [hkv])) as hs)

theorem walkOperator_go {kvs : Dict} :
    walkOperator.go kvs = true ↔ ∀ kv ∈ kvs, walkOperator kv.1 kv.2 = true := by
  induction kvs with
  | nil => simp [walkOperator.go]
  | cons kv kvs ih => simp [walkOperator.go, ih]

theorem walkOperator_not {name : PyStr} {kvs : Dict} (hop : Op.ofKey name = some .not)
    (h : walkOperator name (.dict kvs) = true) : ∀ kv ∈ kvs, walkOperator kv.1 kv.2 = true := by
  unfold walkOperator at h
  rw [hop] at h
  simp only [Bool.and_eq_true] at h
  exact walkOperator_go.mp h.2

theorem operator_built (key : PyStr) (hk : P.key key) (hP : P.Hereditary) (v : Val)
    (hv : P.value v) (name : PyStr) (hw : walkOperator name v = true) (a : Ast)
    (h : lowerOperator (splitDots key) name v = .ok a) : Built P a := by
  induction v using Val.ind generalizing name a with
  | dict kvs ih =>
    by_cases hn : Op.ofKey name = some .not
    · obtain ⟨kvs', as, he, ha, rfl⟩ := operator_not _ _ name a hn h
      cases he
      have hin := walkOperator_not hn hw
      exact built_negate (operators_built _ kvs (fun kv hkv b hb =>
        ih kv hkv (hP.dict kvs hv kv hkv) kv.1 (hin kv hkv) b hb) as ha)
    · exact flat hk hP hv hw hn h
  | _ =>
    refine flat hk hP hv hw (fun hn => ?_) h
    obtain ⟨_, _, he, _⟩ := operator_not _ _ name a hn h
    cases he
where
  flat {key : PyStr} (hk : P.key key) (hP : P.Hereditary) {v : Val} (hv : P.value v) {name : PyStr}
      (hw : walkOperator name v = true) (hn : Op.ofKey name ≠ some .not) {a : Ast}
      (h : lowerOperator (splitDots key) name v = .ok a) : Built P a := by
    cases hop : Op.ofKey name with
    | none =>
      unfold lowerOperator at h
      rw [hop] at h
      cases h
    | some op =>
      exact operator_built_of_ne key hk name op hop (fun he => hn (by rw [hop, he])) v hv hP hw a h

theorem soleDate_operator {kvs : Dict} {raw : Val} (h : soleDate (.dict kvs) = some raw) :
    kvs.any (fun kv => isOperatorKey kv.1) = true := by
  unfold soleDate at h
  split at h
  · rename_i k v he
    cases he
    split_ifs at h with hk
    subst hk
    rfl
  · cases h

/-- A predicate that holds an operator is a `$date` literal, or its items are
operators that the grammar allows. -/
theorem walkPredicate_operators {kvs : Dict} (hany : kvs.any (fun kv => isOperatorKey kv.1) = true)
    (hd : soleDate (.dict kvs) = none) (h : walkPredicate (.dict kvs) = true) :
    ∀ kv ∈ kvs, walkOperator kv.1 kv.2 = true := by
  have hne : kvs.isEmpty = false := by
    cases kvs with
    | nil => cases hany
    | cons kv kvs => rfl
  simp only [walkPredicate, hne, hany, hd, if_true, Bool.false_eq_true, if_false,
    Bool.and_eq_true, List.all_eq_true] at h
  exact h.2

theorem predicate_built (key : PyStr) (hk : P.key key) (hP : P.Hereditary) (v : Val)
    (hv : P.value v) (hw : walkPredicate v = true) (out : List Ast)
    (h : lowerMetadataPredicate (splitDots key) v = .ok out) : BuiltAll P out := by
  have heq : ∀ b : Atom, b.Lowered P.value →
      BuiltAll P [clause (splitDots key) .eq (.atom b)] :=
    fun b hb => built_singleton (built_clause (.folded key _ _ hk (.inl ⟨b, rfl, hb⟩)))
  cases v with
  | list xs =>
    cases h
    exact built_singleton (built_clause (.folded key _ _ hk (.inr ⟨xs, rfl, hv⟩)))
  | dict kvs =>
    rw [lowerMetadataPredicate] at h
    by_cases hemp : kvs.isEmpty = true
    · rw [if_pos hemp] at h
      cases h
      rw [List.isEmpty_iff.mp hemp] at hv
      exact heq _ ⟨hv, rfl⟩
    rw [if_neg hemp] at h
    by_cases hany : kvs.any (fun kv => isOperatorKey kv.1) = true
    · rw [if_pos hany] at h
      cases hd : soleDate (.dict kvs) with
      | some raw =>
        rw [hd] at h
        obtain ⟨b, hb, rfl⟩ := map_ok.mp h
        obtain ⟨t, rfl⟩ := makeDateLiteral_date hb
        exact heq _ trivial
      | none =>
        rw [hd] at h
        have hin := walkPredicate_operators hany hd hw
        exact operators_built _ kvs (fun kv hkv a ha =>
          operator_built key hk hP kv.2 (hP.dict kvs hv kv hkv) kv.1 (hin kv hkv) a ha) out h
    · rw [if_neg hany] at h
      cases h
      refine heq _ ⟨hv, ?_⟩
      cases hd : soleDate (.dict kvs) with
      | none => rfl
      | some raw => exact absurd (soleDate_operator hd) hany
  | _ =>
    cases h
    exact heq _ ⟨hv, rfl⟩

theorem folded_built (hP : P.Hereditary) (folded : Dict)
    (hf : ∀ kv ∈ folded, P.key kv.1 ∧ P.value kv.2)
    (hw : ∀ kv ∈ folded, walkPredicate kv.2 = true) (out : List Ast)
    (h : lowerFolded folded = .ok out) : BuiltAll P out := by
  induction folded generalizing out with
  | nil =>
    cases h
    exact built_nil
  | cons kv folded ih =>
    obtain ⟨as, ha, h⟩ := bind_ok.mp h
    obtain ⟨bs, hb, h⟩ := bind_ok.mp h
    cases h
    have hkv := hf kv (by simp)
    exact built_append (predicate_built kv.1 hkv.1 hP kv.2 hkv.2 (hw kv (by simp)) as ha)
      (ih (fun kv h => hf kv (by simp [h])) (fun kv h => hw kv (by simp [h])) bs hb)

theorem within_all {fs : List RecallFilter} :
    RecallFilter.Within.all P fs ↔ ∀ f ∈ fs, f.Within P := by
  induction fs with
  | nil => simp [RecallFilter.Within.all]
  | cons f fs ih => simp [RecallFilter.Within.all, ih]

theorem acceptedAll_iff {fs : List RecallFilter} :
    RecallFilter.accepted.acceptedAll fs = true ↔ ∀ f ∈ fs, f.accepted = true := by
  induction fs with
  | nil => simp [RecallFilter.accepted.acceptedAll]
  | cons f fs ih => simp [RecallFilter.accepted.acceptedAll, ih]

theorem accepted_branches {o : Option (List RecallFilter)}
    (h : RecallFilter.accepted.branches o = true) : ∀ fs, o = some fs → ∀ f ∈ fs, f.accepted = true := by
  rintro fs rfl
  cases fs with
  | nil => cases h
  | cons f fs =>
    rw [RecallFilter.accepted.branches, Bool.and_eq_true, acceptedAll_iff] at h
    intro g hg
    rcases List.mem_cons.mp hg with rfl | hg
    · exact h.1
    · exact h.2 g hg

theorem all_built (fs : List RecallFilter)
    (ih : ∀ f ∈ fs, ∀ a, f.parseToAst = .ok a → Built P a) (out : List Ast)
    (h : RecallFilter.parseToAst.all fs = .ok out) : BuiltAll P out := by
  induction fs generalizing out with
  | nil =>
    cases h
    exact built_nil
  | cons f fs ihf =>
    obtain ⟨a, ha, h⟩ := bind_ok.mp h
    obtain ⟨as, hs, h⟩ := bind_ok.mp h
    cases h
    exact built_append (built_singleton (ih f (by simp) a ha))
      (ihf (fun g hg => ih g (by simp [hg])) as hs)

theorem branches_built {op : Connective} (hop : op ≠ .not) (o : Option (List RecallFilter))
    (ih : ∀ fs, o = some fs → ∀ f ∈ fs, ∀ a, f.parseToAst = .ok a → Built P a) (out : List Ast)
    (h : RecallFilter.parseToAst.branches op o = .ok out) : BuiltAll P out := by
  cases o with
  | none =>
    cases h
    exact built_nil
  | some fs =>
    obtain ⟨as, ha, rfl⟩ := map_ok.mp h
    exact built_singleton (built_node (fun he => absurd he hop) (all_built fs (ih fs rfl) as ha))

theorem inner_built (o : Option RecallFilter)
    (ih : ∀ f, o = some f → ∀ a, f.parseToAst = .ok a → Built P a) (out : List Ast)
    (h : RecallFilter.parseToAst.inner o = .ok out) : BuiltAll P out := by
  cases o with
  | none =>
    cases h
    exact built_nil
  | some f =>
    obtain ⟨a, ha, rfl⟩ := map_ok.mp h
    exact built_singleton (built_not (ih f rfl a ha))

theorem blob_built {metadata : Option Dict} (h : ∀ d, metadata = some d → P.value (.dict d)) :
    BuiltAll P (lowerBlob metadata) := by
  cases metadata with
  | none => exact built_nil
  | some d => exact built_singleton (built_clause (.blob d (h d rfl)))

theorem siblings_built {as : List Ast} (h : BuiltAll P as) : Built P (normalize (.node .and as)) :=
  built_normalize (built_node (fun he => nomatch he) h)

/-- The tree of an accepted document is the normalized conjunction of its
siblings. -/
theorem parseToAst_siblings (hP : P.Hereditary) (f : RecallFilter) (hacc : f.accepted = true)
    (hw : f.Within P) (a : Ast) (h : f.parseToAst = .ok a) :
    ∃ as, BuiltAll P as ∧ a = normalize (.node .and as) := by
  induction f using RecallFilter.ind generalizing a with
  | mk s m fo ands ors nors nt iha iho ihn iht =>
    simp only [RecallFilter.accepted, Bool.and_eq_true] at hacc
    obtain ⟨⟨⟨⟨⟨_, hfo⟩, haa⟩, hao⟩, han⟩, hat⟩ := hacc
    obtain ⟨hws, hwm, hwf, hwa, hwo, hwn, hwt⟩ := hw
    obtain ⟨keys, hk, h⟩ := bind_ok.mp h
    obtain ⟨preds, hp, h⟩ := bind_ok.mp h
    obtain ⟨as, ha, h⟩ := bind_ok.mp h
    obtain ⟨os, ho, h⟩ := bind_ok.mp h
    obtain ⟨ns, hn, h⟩ := bind_ok.mp h
    obtain ⟨ts, ht, h⟩ := bind_ok.mp h
    cases h
    have hsub : ∀ (o : Option (List RecallFilter)), RecallFilter.Within.branches P o →
        RecallFilter.accepted.branches o = true →
        (∀ fs, o = some fs → ∀ f ∈ fs, f.accepted = true → f.Within P → ∀ a,
          f.parseToAst = .ok a → ∃ as, BuiltAll P as ∧ a = normalize (.node .and as)) →
        ∀ fs, o = some fs → ∀ f ∈ fs, ∀ a, f.parseToAst = .ok a → Built P a := by
      rintro o hwo hao ih fs rfl f hf a ha
      obtain ⟨bs, hb, rfl⟩ := ih fs rfl f hf (accepted_branches hao fs rfl f hf)
        (within_all.mp hwo f hf) a ha
      exact siblings_built hb
    have hnots : BuiltAll P (ns.map (fun a => Formula.node .not [a])) := by
      intro b hb
      obtain ⟨c, hc, rfl⟩ := List.mem_map.mp hb
      exact built_not (branches_built (by decide) nors (hsub nors hwn han ihn) ns hn c hc)
    refine ⟨_, ?_, rfl⟩
    refine built_append (built_append (built_append (built_append (built_append (built_append
      ?_ ?_) ?_) ?_) ?_) hnots) ?_
    · exact system_built s hws _ keys hk
    · exact blob_built hwm
    · exact folded_built hP fo hwf (fun kv hkv => List.all_eq_true.mp hfo kv hkv) preds hp
    · exact branches_built (by decide) ands (hsub ands hwa haa iha) as ha
    · exact branches_built (by decide) ors (hsub ors hwo hao iho) os ho
    · refine inner_built nt ?_ ts ht
      rintro g rfl b hb
      obtain ⟨bs, hbs, rfl⟩ := iht g rfl hat hwt b hb
      exact siblings_built hbs

theorem parseToAst_built (hP : P.Hereditary) (f : RecallFilter) (hacc : f.accepted = true)
    (hw : f.Within P) (a : Ast) (h : f.parseToAst = .ok a) : Built P a := by
  obtain ⟨as, has, rfl⟩ := parseToAst_siblings hP f hacc hw a h
  exact siblings_built has

/-- The tree is a normal one with a node at its root. -/
theorem parseToAst_normal (hP : P.Hereditary) (f : RecallFilter) (hacc : f.accepted = true)
    (hw : f.Within P) (a : Ast) (h : f.parseToAst = .ok a) :
    Normal a ∧ ∃ op fs, a = .node op fs := by
  obtain ⟨as, has, rfl⟩ := parseToAst_siblings hP f hacc hw a h
  have hb : Built P (.node .and as) := built_node (fun he => nomatch he) has
  exact ⟨normalize_normal _ hb.1, normalize_root _ _⟩

theorem within_any (f : RecallFilter) : f.Within Content.any := by
  induction f using RecallFilter.ind with
  | mk s m fo ands ors nors nt iha iho ihn iht =>
    have hbr : ∀ o : Option (List RecallFilter), (∀ fs, o = some fs → ∀ f ∈ fs, f.Within Content.any) →
        RecallFilter.Within.branches Content.any o := by
      intro o ih
      cases o with
      | none => trivial
      | some fs => exact within_all.mpr (ih fs rfl)
    refine ⟨fun k spec _ => spec_any spec, fun _ _ => trivial, fun _ _ => ⟨trivial, trivial⟩,
      hbr ands iha, hbr ors iho, hbr nors ihn, ?_⟩
    cases nt with
    | none => trivial
    | some g => exact iht g rfl
where
  fields_any (o : StringOps.Fields) : o.Within Content.any :=
    ⟨fun _ _ => trivial, fun _ _ => trivial, fun _ _ _ _ => trivial, fun _ _ _ _ => trivial⟩
  ops_any : ∀ o : StringOps, StringOps.Within Content.any o
    | .plain f => fields_any f
    | .notNull f => fields_any f
    | .notOps f inner => ⟨fields_any f, ops_any inner⟩
  spec_any : ∀ spec : StringSpec, spec.Within Content.any
    | .null => trivial
    | .scalar _ => trivial
    | .list _ => fun _ _ => trivial
    | .ops o => ops_any o

end Emits

end Uru.Filter
