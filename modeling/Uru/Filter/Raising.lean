import Uru.Filter.Lowering

/-!
# Where lowering raises

The validators leave two kinds of documents on which lowering raises: those
whose operators of a system key have an explicit null for `$in`, `$nin` or
`$not`, and those with a `$date` whose instant lies outside the years that a
datetime in UTC can have. On every other accepted document lowering succeeds
and preserves the meaning.
-/

set_option autoImplicit false

namespace Uru.Filter

open Uru.Lib

def setToNull {α : Type} : Option (Option α) → Bool
  | some none => true
  | _ => false

def StringOps.Fields.lowerable (o : StringOps.Fields) : Bool := !setToNull o.in_ && !setToNull o.nin

def DateOps.Fields.lowerable (o : DateOps.Fields) : Bool := !setToNull o.in_ && !setToNull o.nin

def Ops.lowerable {F : Type} (fields : F → Bool) : Ops F → Bool
  | .plain f => fields f
  | .notNull _ => false
  | .notOps f inner => fields f && inner.lowerable fields

def DateSpec.lowerable : DateSpec → Bool
  | .ops o => o.lowerable DateOps.Fields.lowerable
  | _ => true

def StringSpec.lowerable : StringSpec → Bool
  | .ops o => o.lowerable StringOps.Fields.lowerable
  | _ => true

def SystemFields.lowerable (fields : SystemFields) : SystemKey → Bool
  | .date k => ((fields.dates k).map DateSpec.lowerable).getD true
  | .text k => ((fields.strings k).map StringSpec.lowerable).getD true

def hasInstant : Val → Bool
  | .str s => ((fromisoformat s).bind DateTime.toUtc).isSome
  | _ => false

def literalLowerable (v : Val) : Bool := ((soleDate v).map hasInstant).getD true

def operatorLowerable (key : PyStr) (operand : Val) : Bool :=
  match Op.ofKey key, operand with
  | some .not, .dict kvs => go kvs
  | some .in_, .list xs | some .nin, .list xs => xs.all literalLowerable
  | some .exists_, _ => true
  | _, v => literalLowerable v
where
  go : Dict → Bool
    | [] => true
    | (k,v)::kvs => operatorLowerable k v && go kvs

def predicateLowerable : Val → Bool
  | .dict kvs =>
    match soleDate (.dict kvs) with
    | some raw => hasInstant raw
    | none =>
      !kvs.any (fun kv => isOperatorKey kv.1) || kvs.all (fun kv => operatorLowerable kv.1 kv.2)
  | _ => true

/-- No system key of the document has a null `$in`, `$nin` or `$not`, and
every `$date` in it denotes an instant in UTC. -/
def RecallFilter.lowerable : RecallFilter → Bool
  | .mk system _ folded and_ or_ nor_ not_ =>
    SystemKey.all.all system.lowerable && folded.all (fun kv => predicateLowerable kv.2) &&
      branches and_ && branches or_ && branches nor_ && inner not_
where
  branches : Option (List RecallFilter) → Bool
    | none => true
    | some fs => all fs
  all : List RecallFilter → Bool
    | [] => true
    | f::fs => RecallFilter.lowerable f && all fs
  inner : Option RecallFilter → Bool
    | none => true
    | some f => RecallFilter.lowerable f

theorem isOk_iff {α : Type} {x : Except PyError α} : x.isOk = true ↔ ∃ a, x = .ok a := by
  cases x with
  | error e => exact ⟨(nomatch ·), fun ⟨_, h⟩ => nomatch h⟩
  | ok a => exact ⟨fun _ => ⟨a, rfl⟩, fun _ => rfl⟩

theorem isOk_map {α β : Type} (x : Except PyError α) (f : α → β) : (x.map f).isOk = x.isOk := by
  cases x <;> rfl

theorem isOk_bind {α β : Type} (x : Except PyError α) (f : α → Except PyError β) (b : Bool)
    (h : ∀ a, (f a).isOk = b) : (x >>= f).isOk = (x.isOk && b) := by
  cases x with
  | error e => rfl
  | ok a => exact h a

theorem isOk_seq {α β γ : Type} (x : Except PyError α) (y : Except PyError β) (g : α → β → γ) :
    (do let a ← x; let b ← y; return g a b : Except PyError γ).isOk = (x.isOk && y.isOk) :=
  isOk_bind _ _ _ (fun a => by
    rw [isOk_bind y _ true (fun b => rfl), Bool.and_true])

theorem lowerListField_isOk {α : Type} (path : List PyStr) (op : Op) (f : α → Val)
    (x : Option (Option (List α))) : (lowerListField path op f x).isOk = !setToNull x := by
  rcases x with _ | _ | xs <;> rfl

theorem stringOps_isOk (path : List PyStr) (o : StringOps.Fields) :
    (o.lower path).isOk = o.lowerable := by
  rw [StringOps.Fields.lower, isOk_seq, lowerListField_isOk, lowerListField_isOk]
  rfl

theorem dateOps_isOk (path : List PyStr) (o : DateOps.Fields) :
    (o.lower path).isOk = o.lowerable := by
  rw [DateOps.Fields.lower, isOk_seq, lowerListField_isOk, lowerListField_isOk]
  rfl

theorem ops_isOk {F : Type} (lower : F → Except PyError (List Ast)) (fields : F → Bool)
    (h : ∀ f, (lower f).isOk = fields f) (o : Ops F) :
    (lowerOpsSubmodel lower o).isOk = o.lowerable fields := by
  induction o with
  | plain f => exact h f
  | notNull f =>
    rw [lowerOpsSubmodel, isOk_bind (lower f) _ false (fun _ => rfl), Bool.and_false]
    rfl
  | notOps f inner ih => rw [lowerOpsSubmodel, isOk_seq, h, ih, Ops.lowerable]

theorem systemKey_isOk (fields : SystemFields) (k : SystemKey) :
    (lowerSystemKey fields k).isOk = fields.lowerable k := by
  cases k with
  | date k =>
    rw [lowerSystemKey, SystemFields.lowerable]
    rcases fields.dates k with _ | _ | t | o
    · rfl
    · rfl
    · rfl
    · exact ops_isOk _ _ (dateOps_isOk _) o
  | text k =>
    rw [lowerSystemKey, SystemFields.lowerable]
    rcases fields.strings k with _ | _ | s | xs | o
    · rfl
    · rfl
    · rfl
    · rfl
    · exact ops_isOk _ _ (stringOps_isOk _) o

theorem system_isOk (fields : SystemFields) (ks : List SystemKey) :
    (lowerSystem fields ks).isOk = ks.all fields.lowerable := by
  induction ks with
  | nil => rfl
  | cons k ks ih => rw [lowerSystem, isOk_seq, systemKey_isOk, ih, List.all_cons]

theorem makeDateLiteral_isOk (raw : Val) : (makeDateLiteral raw).isOk = hasInstant raw := by
  cases raw with
  | str s =>
    rw [makeDateLiteral, hasInstant]
    cases fromisoformat s with
    | none => rfl
    | some d =>
      rw [Option.bind_some]
      dsimp only
      cases d.toUtc <;> rfl
  | _ => rfl

theorem lowerScalarOperand_isOk (v : Val) : (lowerScalarOperand v).isOk = literalLowerable v := by
  rw [lowerScalarOperand, literalLowerable]
  cases soleDate v with
  | none => rfl
  | some raw => exact makeDateLiteral_isOk raw

theorem lowerOperandList_isOk (xs : List Val) :
    (lowerOperandList xs).isOk = xs.all literalLowerable := by
  induction xs with
  | nil => rfl
  | cons x xs ih => rw [lowerOperandList, isOk_seq, lowerScalarOperand_isOk, ih, List.all_cons]

theorem operators_isOk (path : List PyStr) (kvs : Dict)
    (ih : ∀ kv ∈ kvs, (lowerOperator path kv.1 kv.2).isOk = operatorLowerable kv.1 kv.2) :
    (lowerOperator.go path kvs).isOk = operatorLowerable.go kvs := by
  induction kvs with
  | nil => rfl
  | cons kv kvs ihk =>
    rw [lowerOperator.go, isOk_seq, ih kv (by simp), ihk (fun kv hkv => ih kv (by simp [hkv])),
      operatorLowerable.go]

theorem operator_isOk (path : List PyStr) (v : Val) (name : PyStr)
    (hw : walkOperator name v = true) :
    (lowerOperator path name v).isOk = operatorLowerable name v := by
  induction v using Val.ind generalizing name with
  | dict kvs ih =>
    by_cases hn : Op.ofKey name = some .not
    · have hin := operators_isOk path kvs
        (fun kv hkv => ih kv hkv kv.1 (walkOperator_not hn hw kv hkv))
      unfold lowerOperator operatorLowerable
      rw [hn]
      exact (isOk_map _ _).trans hin
    · exact flat hw hn
  | _ =>
    refine flat hw (fun hn => ?_)
    unfold walkOperator at hw
    rw [hn] at hw
    cases hw
where
  -- outside `$not` the operand is a literal, a list of literals or a bool
  flat {path : List PyStr} {v : Val} {name : PyStr} (hw : walkOperator name v = true)
      (hn : Op.ofKey name ≠ some .not) :
      (lowerOperator path name v).isOk = operatorLowerable name v := by
    unfold walkOperator at hw
    unfold lowerOperator operatorLowerable
    cases hop : Op.ofKey name with
    | none =>
      rw [hop] at hw
      cases hw
    | some op =>
      rw [hop] at hw hn
      cases op with
      | not => exact absurd rfl hn
      | in_ | nin =>
        cases v with
        | list xs => exact (isOk_map _ _).trans (lowerOperandList_isOk xs)
        | _ => cases hw
      | exists_ => rfl
      | and | or | nor | date => cases hw
      | _ => exact (isOk_map _ _).trans (lowerScalarOperand_isOk v)

theorem predicate_isOk (path : List PyStr) (v : Val) (hw : walkPredicate v = true) :
    (lowerMetadataPredicate path v).isOk = predicateLowerable v := by
  cases v with
  | dict kvs =>
    rw [lowerMetadataPredicate, predicateLowerable]
    by_cases hany : kvs.any (fun kv => isOperatorKey kv.1) = true
    · have hemp : ¬ kvs.isEmpty = true := by
        intro he
        rw [List.isEmpty_iff.mp he] at hany
        cases hany
      rw [if_neg hemp, if_pos hany]
      cases hd : soleDate (.dict kvs) with
      | some raw => exact (isOk_map _ _).trans (makeDateLiteral_isOk raw)
      | none =>
        have hin := walkPredicate_operators hany hd hw
        have hgo : operatorLowerable.go kvs = kvs.all (fun kv => operatorLowerable kv.1 kv.2) :=
          operators_all kvs
        rw [hany, Bool.not_true, Bool.false_or, ← hgo]
        exact operators_isOk path kvs (fun kv hkv => operator_isOk path kv.2 kv.1 (hin kv hkv))
    · rw [Bool.not_eq_true] at hany
      have hd : soleDate (.dict kvs) = none := by
        cases hd : soleDate (.dict kvs) with
        | none => rfl
        | some raw =>
          rw [soleDate_operator hd] at hany
          cases hany
      rw [hd, hany]
      split <;> rfl
  | _ => rfl
where
  operators_all (kvs : Dict) :
      operatorLowerable.go kvs = kvs.all (fun kv => operatorLowerable kv.1 kv.2) := by
    induction kvs with
    | nil => rfl
    | cons kv kvs ih => rw [operatorLowerable.go, ih, List.all_cons]

theorem folded_isOk (folded : Dict) (hw : ∀ kv ∈ folded, walkPredicate kv.2 = true) :
    (lowerFolded folded).isOk = folded.all (fun kv => predicateLowerable kv.2) := by
  induction folded with
  | nil => rfl
  | cons kv folded ih =>
    rw [lowerFolded, isOk_seq, predicate_isOk _ _ (hw kv (by simp)),
      ih (fun kv h => hw kv (by simp [h])), List.all_cons]

theorem all_isOk (fs : List RecallFilter) (ih : ∀ f ∈ fs, f.parseToAst.isOk = f.lowerable) :
    (RecallFilter.parseToAst.all fs).isOk = RecallFilter.lowerable.all fs := by
  induction fs with
  | nil => rfl
  | cons f fs ihf =>
    rw [RecallFilter.parseToAst.all, isOk_seq, ih f (by simp),
      ihf (fun g hg => ih g (by simp [hg])), RecallFilter.lowerable.all]

theorem branches_isOk (op : Connective) (o : Option (List RecallFilter))
    (hacc : RecallFilter.accepted.branches o = true)
    (ih : ∀ fs, o = some fs → ∀ f ∈ fs, f.accepted = true → f.parseToAst.isOk = f.lowerable) :
    (RecallFilter.parseToAst.branches op o).isOk = RecallFilter.lowerable.branches o := by
  cases o with
  | none => rfl
  | some fs =>
    rw [RecallFilter.parseToAst.branches, isOk_map]
    exact all_isOk fs (fun f hf => ih fs rfl f hf (accepted_branches hacc fs rfl f hf))

/-- An accepted document is lowered exactly when it is lowerable. -/
theorem parseToAst_isOk (f : RecallFilter) (h : f.accepted = true) :
    f.parseToAst.isOk = f.lowerable := by
  induction f using RecallFilter.ind with
  | mk s m fo ands ors nors nt iha iho ihn iht =>
    simp only [RecallFilter.accepted, Bool.and_eq_true] at h
    obtain ⟨⟨⟨⟨⟨_, hfo⟩, haa⟩, hao⟩, han⟩, hat⟩ := h
    have hinner : (RecallFilter.parseToAst.inner nt).isOk = RecallFilter.lowerable.inner nt := by
      cases nt with
      | none => rfl
      | some g => exact (isOk_map _ _).trans (iht g rfl hat)
    have hpreds := folded_isOk fo (fun kv hkv => List.all_eq_true.mp hfo kv hkv)
    rw [RecallFilter.parseToAst, RecallFilter.lowerable, ← system_isOk, ← hpreds,
      ← branches_isOk .and ands haa iha, ← branches_isOk .or ors hao iho,
      ← branches_isOk .or nors han ihn, ← hinner]
    cases lowerSystem s SystemKey.all <;> cases lowerFolded fo <;>
      cases RecallFilter.parseToAst.branches .and ands <;>
      cases RecallFilter.parseToAst.branches .or ors <;>
      cases RecallFilter.parseToAst.branches .or nors <;>
      cases RecallFilter.parseToAst.inner nt <;> rfl

/-- Lowering succeeds; its tree has a node at the root, negations with one
child, no conjunction in a conjunction and no disjunction in a disjunction,
is left alone by `normalize`, and answers for every record what the document
means. -/
def RecallFilter.PreservesMeaning (f : RecallFilter) : Prop :=
  ∃ a, f.parseToAst = .ok a ∧ (∃ op fs, a = .node op fs) ∧ Unary a ∧ Flat a ∧ normalize a = a ∧
    ∀ r, compilePython a r = f.denote r

/-- Lowering an accepted document preserves its meaning exactly when the
document is lowerable. On the others it raises. -/
theorem preservesMeaning_iff (f : RecallFilter) (h : f.accepted = true) :
    f.PreservesMeaning ↔ f.lowerable = true := by
  rw [← parseToAst_isOk f h, isOk_iff]
  constructor
  · rintro ⟨a, ha, _⟩
    exact ⟨a, ha⟩
  · rintro ⟨a, ha⟩
    obtain ⟨hn, hroot⟩ := parseToAst_normal Content.any_hereditary f h (within_any f) a ha
    exact ⟨a, ha, hroot, hn.unary, hn.flat, normalize_of_settled a hn.settled,
      fun r => parseToAst_denote f r a ha⟩

def metadataFilter (folded : Dict) : RecallFilter :=
  .mk ⟨fun _ => none, fun _ => none⟩ none folded none none none none

/-- `{"metadata.status": {"$not": {"$eq": "draft"}}}` -/
def notDraft : RecallFilter :=
  metadataFilter [(py "metadata.status",.dict [(py "$not",.dict [(py "$eq",.str (py "draft"))])])]

theorem notDraft_preservesMeaning : notDraft.PreservesMeaning :=
  (preservesMeaning_iff notDraft (by decide)).mpr (by decide)

/-- `{"source_name": {"$in": null}}` -/
def nullIn : RecallFilter :=
  .mk ⟨fun _ => none, fun k => if k = .sourceName then
    some (.ops (.plain ⟨none, none, some none, none, none⟩)) else none⟩ none [] none none none none

/-- A null that the validator lets through is iterated, which raises. -/
theorem nullIn_raises : nullIn.accepted = true ∧ nullIn.parseToAst = .error .typeError ∧
    ¬ nullIn.PreservesMeaning :=
  ⟨by decide, rfl, fun ⟨_, h, _⟩ => nomatch h⟩

end Uru.Filter
