import Uru.Filter.Denotation
import Uru.Filter.Emitted

/-!
# Lowering preserves meaning

A document is given a direct meaning on records, without the tree: siblings
are joined, the operators of a predicate are read one by one, and a `$not`
negates the conjunction of the operators in it. The tree that lowering yields
has this meaning, for every document it does not fail on.
-/

set_option autoImplicit false

namespace Uru.Filter

open Uru.Lib

theorem system_ne (s v : Val) : systemNe s v = (systemEq s v).map (fun b => !b) := by
  unfold systemNe systemEq
  split_ifs <;> rfl

theorem clause_eq (r : Record) (path : List PyStr) (a : Atom) :
    compileClause ⟨path, .eq, .atom a⟩ r = (fieldAt r path).equals a := by
  unfold compileClause fieldAt
  cases pathKind path with
  | unknown => rfl
  | system k => rcases a with ⟨_ | _ | _ | _ | _ | _ | _ | _⟩ | t <;> rfl
  | metadata segs =>
    cases segs with
    | nil => rcases a with ⟨_ | _ | _ | _ | _ | _ | _ | _⟩ | t <;> rfl
    | cons seg segs => rcases a with ⟨_ | _ | _ | _ | _ | _ | _ | _⟩ | t <;> rfl

theorem clause_ne (r : Record) (path : List PyStr) (a : Atom) :
    compileClause ⟨path, .ne, .atom a⟩ r = (fieldAt r path).differs a := by
  unfold compileClause fieldAt
  cases pathKind path with
  | unknown => rfl
  | system k =>
    rcases a with ⟨_ | _ | _ | _ | _ | _ | _ | _⟩ | t
    · rfl
    all_goals exact system_ne _ _
  | metadata segs =>
    cases segs with
    | nil => rfl
    | cons seg segs => rcases a with ⟨_ | _ | _ | _ | _ | _ | _ | _⟩ | t <;> rfl

theorem clause_array (r : Record) (path : List PyStr) (xs : List Val) :
    compileClause ⟨path, .eq, .tuple (xs.map .val)⟩ r = (fieldAt r path).isArray xs := by
  unfold compileClause fieldAt
  cases pathKind path with
  | unknown => rfl
  | system k => rfl
  | metadata segs =>
    cases segs with
    | nil => rfl
    | cons seg segs =>
      have hm : (xs.map Atom.val).map Atom.jsonable = xs.map jsonable := by
        rw [List.map_map]
        rfl
      simp [compileMetadataClause, mdEq, Field.isArray, hm]

theorem clause_in (r : Record) (path : List PyStr) (as : List Atom) :
    compileClause ⟨path, .in_, .tuple as⟩ r = (fieldAt r path).isOneOf as := by
  unfold compileClause fieldAt
  cases pathKind path with
  | unknown => rfl
  | system k => rfl
  | metadata segs => cases segs <;> rfl

theorem system_nin (s : Val) (vs : List Val) :
    systemNin s vs = (systemIn s vs).map (fun b => !b) := by
  unfold systemNin systemIn
  split_ifs <;> rfl

theorem clause_nin (r : Record) (path : List PyStr) (as : List Atom) :
    compileClause ⟨path, .nin, .tuple as⟩ r = (fieldAt r path).isNoneOf as := by
  unfold compileClause fieldAt
  cases pathKind path with
  | unknown => rfl
  | system k => exact system_nin _ _
  | metadata segs => cases segs <;> rfl

theorem clause_exists (r : Record) (path : List PyStr) (v : Val) :
    compileClause ⟨path, .exists_, .val v⟩ r = (fieldAt r path).exists_ v.truthy := by
  unfold compileClause fieldAt
  cases pathKind path with
  | unknown => rfl
  | system k => rfl
  | metadata segs =>
    cases segs with
    | nil => rfl
    | cons seg segs =>
      have h : ∀ b x : Bool, (if b then x else !x) = (x == b) := by decide
      exact congrArg some (h v.truthy (mdDig r.metadata (seg::segs)).isSome)

theorem clause_compares (r : Record) (path : List PyStr) (op : Op) (a : Atom)
    (h : op ≠ .eq ∧ op ≠ .ne ∧ op ≠ .in_ ∧ op ≠ .nin ∧ op ≠ .exists_) :
    compileClause ⟨path, op, .atom a⟩ r = (fieldAt r path).compares op a := by
  unfold compileClause fieldAt
  cases pathKind path with
  | unknown => rfl
  | system k =>
    rcases a with ⟨_ | _ | _ | _ | _ | _ | _ | _⟩ | t <;> cases op <;>
      first | rfl | exact absurd rfl h.1 | exact absurd rfl h.2.1 | exact absurd rfl h.2.2.1 |
        exact absurd rfl h.2.2.2.1 | exact absurd rfl h.2.2.2.2
  | metadata segs =>
    cases segs with
    | nil => exact if_neg h.1
    | cons seg segs =>
      rcases a with ⟨_ | _ | _ | _ | _ | _ | _ | _⟩ | t <;> cases op <;>
        first | rfl | exact absurd rfl h.1 | exact absurd rfl h.2.1 | exact absurd rfl h.2.2.1 |
          exact absurd rfl h.2.2.2.1 | exact absurd rfl h.2.2.2.2

def answers (r : Record) (as : List Ast) : List (Option Bool) := as.map (fun a => compilePython a r)

theorem answers_append (r : Record) (as bs : List Ast) :
    answers r (as++bs) = answers r as++answers r bs := List.map_append

theorem negate_answer (r : Record) (as : List Ast) :
    compilePython (negate as) r = denied (answers r as) := by
  have hand : ∀ bs : List Ast, compilePython (.node .not [.node .and bs]) r = denied (answers r bs) := by
    intro bs
    simp [compilePython, denied, answers, Formula.combine]
  rcases as with _ | ⟨a, _ | ⟨b, as⟩⟩
  · exact hand []
  · simp [negate, compilePython, denied, answers, Formula.combine, Formula.allOf_singleton]
  · exact hand _

theorem lowerField_answers {α : Type} (r : Record) (path : List PyStr) (op : Op) (f : α → Val)
    (test : Atom → Option Bool) (h : ∀ a, compileClause ⟨path, op, .atom a⟩ r = test a)
    (x : Option (Option α)) :
    answers r (lowerField path op f x) = ifSet (fun a => test (atomOr f a)) x := by
  rcases x with _ | _ | a
  · rfl
  · exact congrArg (fun y => [y]) (h _)
  · exact congrArg (fun y => [y]) (h _)

theorem lowerListField_answers {α : Type} (r : Record) (path : List PyStr) (op : Op) (f : α → Val)
    (test : List Atom → Option Bool) (h : ∀ as, compileClause ⟨path, op, .tuple as⟩ r = test as)
    (x : Option (Option (List α))) (out : List Ast) (ho : lowerListField path op f x = .ok out) :
    answers r out = ifSet (fun xs => test (atoms f xs)) x := by
  rcases x with _ | _ | xs
  · cases ho
    rfl
  · cases ho
  · cases ho
    exact congrArg (fun y => [y]) (h _)

theorem exists_answers (r : Record) (path : List PyStr) (x : Option (Option Bool)) :
    answers r (lowerField path .exists_ .bool x) =
      ifSet (fun b => (fieldAt r path).exists_ (b.getD false)) x := by
  rcases x with _ | _ | b
  · rfl
  · exact congrArg (fun y => [y]) (clause_exists r path .null)
  · exact congrArg (fun y => [y]) (clause_exists r path (.bool b))

theorem stringOps_answers (r : Record) (path : List PyStr) (o : StringOps.Fields) (out : List Ast)
    (h : o.lower path = .ok out) : answers r out = o.denote (fieldAt r path) := by
  obtain ⟨ins, hi, h⟩ := bind_ok.mp h
  obtain ⟨nins, hn, h⟩ := bind_ok.mp h
  cases h
  simp only [answers_append, lowerField_answers r path .eq _ _ (clause_eq r path),
    lowerField_answers r path .ne _ _ (clause_ne r path), exists_answers,
    lowerListField_answers r path .in_ _ _ (clause_in r path) _ _ hi,
    lowerListField_answers r path .nin _ _ (clause_nin r path) _ _ hn]
  rfl

theorem dateOps_answers (r : Record) (path : List PyStr) (o : DateOps.Fields) (out : List Ast)
    (h : o.lower path = .ok out) : answers r out = o.denote (fieldAt r path) := by
  obtain ⟨ins, hi, h⟩ := bind_ok.mp h
  obtain ⟨nins, hn, h⟩ := bind_ok.mp h
  cases h
  have hcmp : ∀ op : Op, op ≠ .eq ∧ op ≠ .ne ∧ op ≠ .in_ ∧ op ≠ .nin ∧ op ≠ .exists_ →
      ∀ x : Option (Option UtcTime), answers r (lowerField path op UtcTime.val x) =
        ifSet (fun a => (fieldAt r path).compares op (atomOr UtcTime.val a)) x :=
    fun op ho x => lowerField_answers r path op _ _ (fun a => clause_compares r path op a ho) x
  simp only [answers_append, lowerField_answers r path .eq _ _ (clause_eq r path),
    lowerField_answers r path .ne _ _ (clause_ne r path),
    hcmp .gt (by decide), hcmp .gte (by decide), hcmp .lt (by decide), hcmp .lte (by decide),
    lowerListField_answers r path .in_ _ _ (clause_in r path) _ _ hi,
    lowerListField_answers r path .nin _ _ (clause_nin r path) _ _ hn]
  rfl

theorem ops_answers {F : Type} (r : Record) (lower : F → Except PyError (List Ast))
    (tests : F → List (Option Bool)) (h : ∀ f out, lower f = .ok out → answers r out = tests f)
    (o : Ops F) (out : List Ast) (ho : lowerOpsSubmodel lower o = .ok out) :
    answers r out = o.denote tests := by
  induction o generalizing out with
  | plain f => exact h f out ho
  | notNull f =>
    obtain ⟨as, _, he⟩ := bind_ok.mp ho
    cases he
  | notOps f inner ih =>
    obtain ⟨as, ha, ho⟩ := bind_ok.mp ho
    obtain ⟨bs, hb, ho⟩ := bind_ok.mp ho
    cases ho
    rw [answers_append, h f as ha, Ops.denote, ← ih bs hb, ← negate_answer]
    rfl

theorem dateSpec_answers (r : Record) (path : List PyStr) (o : DateSpec) (out : List Ast)
    (h : o.lower path = .ok out) : answers r out = o.denote (fieldAt r path) := by
  cases o with
  | null =>
    cases h
    exact congrArg (fun y => [y]) (clause_eq r path _)
  | scalar t =>
    cases h
    exact congrArg (fun y => [y]) (clause_eq r path _)
  | ops o => exact ops_answers r _ _ (dateOps_answers r path) o out h

theorem stringSpec_answers (r : Record) (path : List PyStr) (o : StringSpec) (out : List Ast)
    (h : o.lower path = .ok out) : answers r out = o.denote (fieldAt r path) := by
  cases o with
  | null =>
    cases h
    exact congrArg (fun y => [y]) (clause_eq r path _)
  | scalar s =>
    cases h
    exact congrArg (fun y => [y]) (clause_eq r path _)
  | list xs =>
    cases h
    have hm : xs.map (fun s => Atom.val (.str s)) = (xs.map Val.str).map Atom.val := by
      rw [List.map_map]
      rfl
    rw [hm]
    exact congrArg (fun y => [y]) (clause_array r path _)
  | ops o => exact ops_answers r _ _ (stringOps_answers r path) o out h

theorem unset_answers {S : Type} (r : Record) (lower : S → Except PyError (List Ast))
    (tests : S → List (Option Bool)) (h : ∀ s out, lower s = .ok out → answers r out = tests s)
    (o : Option S) (out : List Ast) (ho : (o.map lower).getD (.ok []) = .ok out) :
    answers r out = (o.map tests).getD [] := by
  cases o with
  | none =>
    cases ho
    rfl
  | some s => exact h s out ho

theorem systemKey_answers (r : Record) (fields : SystemFields) (k : SystemKey) (out : List Ast)
    (h : lowerSystemKey fields k = .ok out) : answers r out = fields.denote r k := by
  cases k with
  | date k => exact unset_answers r _ _ (dateSpec_answers r _) _ out h
  | text k => exact unset_answers r _ _ (stringSpec_answers r _) _ out h

theorem system_answers (r : Record) (fields : SystemFields) (ks : List SystemKey) (out : List Ast)
    (h : lowerSystem fields ks = .ok out) : answers r out = ks.flatMap (fields.denote r) := by
  induction ks generalizing out with
  | nil => cases h; rfl
  | cons k ks ih =>
    obtain ⟨as, ha, h⟩ := bind_ok.mp h
    obtain ⟨bs, hb, h⟩ := bind_ok.mp h
    cases h
    rw [answers_append, systemKey_answers r fields k as ha, ih bs hb]
    rfl

theorem makeDateLiteral_literal {v raw : Val} {a : Atom} (hs : soleDate v = some raw)
    (h : makeDateLiteral raw = .ok a) : a = literal v := by
  unfold makeDateLiteral at h
  split at h
  · split at h
    · cases h
    · rename_i d hd
      split at h
      · cases h
      · rename_i t ht
        cases h
        simp [literal, hs, hd, ht]
  · cases h

theorem lowerScalarOperand_literal {v : Val} {a : Atom} (h : lowerScalarOperand v = .ok a) :
    a = literal v := by
  unfold lowerScalarOperand at h
  split at h
  · rename_i raw hs
    exact makeDateLiteral_literal hs h
  · rename_i hs
    cases h
    simp [literal, hs]

theorem lowerOperandList_literal (xs : List Val) (as : List Atom)
    (h : lowerOperandList xs = .ok as) : as = xs.map literal := by
  induction xs generalizing as with
  | nil => cases h; rfl
  | cons x xs ih =>
    obtain ⟨a, ha, h⟩ := bind_ok.mp h
    obtain ⟨bs, hb, h⟩ := bind_ok.mp h
    cases h
    rw [lowerScalarOperand_literal ha, ih bs hb]
    rfl

theorem operators_answers (r : Record) (path : List PyStr) (kvs : Dict)
    (ih : ∀ kv ∈ kvs, ∀ key a, lowerOperator path key kv.2 = .ok a →
      compilePython a r = denoteOperator (fieldAt r path) key kv.2)
    (out : List Ast) (h : lowerOperator.go path kvs = .ok out) :
    answers r out = denoteOperator.go (fieldAt r path) kvs := by
  induction kvs generalizing out with
  | nil => cases h; rfl
  | cons kv kvs ihk =>
    obtain ⟨k, v⟩ := kv
    obtain ⟨a, ha, h⟩ := bind_ok.mp h
    obtain ⟨as, hs, h⟩ := bind_ok.mp h
    cases h
    exact congrArg₂ List.cons (ih (k,v) (by simp) k a ha)
      (ihk (fun kv hkv => ih kv (by simp [hkv])) as hs)

theorem operator_answer_of_ne (r : Record) (path : List PyStr) (v : Val) (key : PyStr) (op : Op)
    (hop : Op.ofKey key = some op) (hne : op ≠ .not) (a : Ast)
    (h : lowerOperator path key v = .ok a) :
    compilePython a r = denoteOperator (fieldAt r path) key v := by
  unfold lowerOperator at h
  unfold denoteOperator
  rw [hop] at h ⊢
  cases op with
  | not => exact absurd rfl hne
  | exists_ =>
    cases h
    exact clause_exists r path v
  | in_ =>
    cases v with
    | list xs =>
      obtain ⟨as, ha, rfl⟩ := map_ok.mp h
      rw [lowerOperandList_literal xs as ha]
      exact clause_in r path _
    | _ => cases h
  | nin =>
    cases v with
    | list xs =>
      obtain ⟨as, ha, rfl⟩ := map_ok.mp h
      rw [lowerOperandList_literal xs as ha]
      exact clause_nin r path _
    | _ => cases h
  | eq =>
    obtain ⟨b, hb, rfl⟩ := map_ok.mp h
    rw [lowerScalarOperand_literal hb]
    exact clause_eq r path _
  | ne =>
    obtain ⟨b, hb, rfl⟩ := map_ok.mp h
    rw [lowerScalarOperand_literal hb]
    exact clause_ne r path _
  | _ =>
    obtain ⟨b, hb, rfl⟩ := map_ok.mp h
    rw [lowerScalarOperand_literal hb]
    exact clause_compares r path _ _ (by decide)

theorem operator_answer_not (r : Record) (path : List PyStr) (v : Val) (key : PyStr)
    (hop : Op.ofKey key = some .not) (a : Ast) (h : lowerOperator path key v = .ok a) :
    ∃ kvs as, v = .dict kvs ∧ lowerOperator.go path kvs = .ok as ∧
      compilePython a r = denied (answers r as) ∧
      denoteOperator (fieldAt r path) key v = denied (denoteOperator.go (fieldAt r path) kvs) := by
  unfold lowerOperator at h
  rw [hop] at h
  cases v with
  | dict kvs =>
    obtain ⟨as, ha, rfl⟩ := map_ok.mp h
    refine ⟨kvs, as, rfl, ha, negate_answer r as, ?_⟩
    unfold denoteOperator
    rw [hop]
  | _ => cases h

theorem operator_answer (r : Record) (path : List PyStr) (v : Val) (key : PyStr) (a : Ast)
    (h : lowerOperator path key v = .ok a) :
    compilePython a r = denoteOperator (fieldAt r path) key v := by
  induction v using Val.ind generalizing key a with
  | dict kvs ih =>
    by_cases hn : Op.ofKey key = some .not
    · obtain ⟨kvs', as, he, ha, hl, hr⟩ := operator_answer_not r path _ key hn a h
      cases he
      rw [hl, hr, operators_answers r path _ ih as ha]
    · exact flat hn h
  | _ => exact flat (fun hn => by
      obtain ⟨_, _, he, _⟩ := operator_answer_not r path _ key hn a h
      cases he) h
where
  flat {r : Record} {path : List PyStr} {v : Val} {key : PyStr} {a : Ast}
      (hn : Op.ofKey key ≠ some .not) (h : lowerOperator path key v = .ok a) :
      compilePython a r = denoteOperator (fieldAt r path) key v := by
    cases hop : Op.ofKey key with
    | none =>
      unfold lowerOperator at h
      rw [hop] at h
      cases h
    | some op =>
      exact operator_answer_of_ne r path v key op hop (fun he => hn (by rw [hop, he])) a h

theorem predicate_answers (r : Record) (path : List PyStr) (v : Val) (out : List Ast)
    (h : lowerMetadataPredicate path v = .ok out) :
    answers r out = denotePredicate (fieldAt r path) v := by
  have heq : ∀ a : Atom, answers r [clause path .eq (.atom a)] = [(fieldAt r path).equals a] :=
    fun a => congrArg (fun y => [y]) (clause_eq r path a)
  cases v with
  | list xs =>
    cases h
    exact congrArg (fun y => [y]) (clause_array r path xs)
  | dict kvs =>
    have hnone : kvs.any (fun kv => isOperatorKey kv.1) = false → literal (.dict kvs) = .val (.dict kvs) := by
      intro hany
      cases hs : soleDate (.dict kvs) with
      | none => simp [literal, hs]
      | some raw =>
        rw [soleDate_operator hs] at hany
        cases hany
    rw [denotePredicate]
    cases kvs with
    | nil =>
      cases h
      exact heq _
    | cons kv kvs =>
      simp only [lowerMetadataPredicate, List.isEmpty_cons, Bool.false_eq_true, if_false] at h
      by_cases hany : (kv::kvs).any (fun kv => isOperatorKey kv.1) = true
      · rw [if_pos hany] at h
        cases hs : soleDate (.dict (kv::kvs)) with
        | some raw =>
          rw [hs] at h
          obtain ⟨a, ha, rfl⟩ := map_ok.mp h
          rw [makeDateLiteral_literal hs ha]
          simpa [hany] using heq (literal (.dict (kv::kvs)))
        | none =>
          rw [hs] at h
          rw [if_pos (by simp [hany])]
          exact operators_answers r path _ (fun kv _ key a => operator_answer r path kv.2 key a) out h
      · rw [if_neg hany] at h
        cases h
        rw [Bool.not_eq_true] at hany
        rw [if_neg (by simp [hany]), hnone hany]
        exact heq _
  | _ =>
    cases h
    exact heq _

theorem folded_answers (r : Record) (folded : Dict) (out : List Ast)
    (h : lowerFolded folded = .ok out) : answers r out = denoteFolded r folded := by
  induction folded generalizing out with
  | nil => cases h; rfl
  | cons kv folded ih =>
    obtain ⟨k, v⟩ := kv
    obtain ⟨as, ha, h⟩ := bind_ok.mp h
    obtain ⟨bs, hb, h⟩ := bind_ok.mp h
    cases h
    rw [answers_append, predicate_answers r _ v as ha, ih bs hb]
    rfl

theorem all_answers (r : Record) (fs : List RecallFilter)
    (ih : ∀ f ∈ fs, ∀ a, f.parseToAst = .ok a → compilePython a r = f.denote r)
    (out : List Ast) (h : RecallFilter.parseToAst.all fs = .ok out) :
    answers r out = RecallFilter.denote.all fs r := by
  induction fs generalizing out with
  | nil => cases h; rfl
  | cons f fs ihf =>
    obtain ⟨a, ha, h⟩ := bind_ok.mp h
    obtain ⟨as, hs, h⟩ := bind_ok.mp h
    cases h
    exact congrArg₂ List.cons (ih f (by simp) a ha) (ihf (fun g hg => ih g (by simp [hg])) as hs)

theorem branches_answers (r : Record) (op : Connective) (o : Option (List RecallFilter))
    (ih : ∀ fs, o = some fs → ∀ f ∈ fs, ∀ a, f.parseToAst = .ok a → compilePython a r = f.denote r)
    (wrap : List Ast → List Ast) (join : List (Option Bool) → Option Bool)
    (hw : ∀ as, answers r (wrap [.node op as]) = [join (answers r as)]) (hnil : wrap [] = [])
    (out : List Ast) (h : RecallFilter.parseToAst.branches op o = .ok out) :
    answers r (wrap out) = RecallFilter.denote.branches join o r := by
  cases o with
  | none =>
    cases h
    rw [hnil]
    rfl
  | some fs =>
    obtain ⟨as, ha, rfl⟩ := map_ok.mp h
    rw [hw, all_answers r fs (ih fs rfl) as ha]
    rfl

/-- The tree of a document means what the document means, also where the
evaluation raises. -/
theorem parseToAst_denote (f : RecallFilter) (r : Record) (a : Ast) (h : f.parseToAst = .ok a) :
    compilePython a r = f.denote r := by
  induction f using RecallFilter.ind generalizing a with
  | mk s m fo ands ors nors nt iha iho ihn iht =>
    obtain ⟨keys, hk, h⟩ := bind_ok.mp h
    obtain ⟨preds, hp, h⟩ := bind_ok.mp h
    obtain ⟨as, ha, h⟩ := bind_ok.mp h
    obtain ⟨os, ho, h⟩ := bind_ok.mp h
    obtain ⟨ns, hn, h⟩ := bind_ok.mp h
    obtain ⟨ts, ht, h⟩ := bind_ok.mp h
    cases h
    have hblob : answers r (lowerBlob m) = denoteBlob r m := by
      cases m <;> rfl
    have hinner : answers r ts = RecallFilter.denote.inner nt r := by
      cases nt with
      | none =>
        cases ht
        rfl
      | some g =>
        obtain ⟨b, hb, rfl⟩ := map_ok.mp ht
        rw [RecallFilter.denote.inner, ← iht g rfl b hb]
        rfl
    rw [compilePython, normalize_run, Formula.run_node]
    change Formula.allOf (answers r _) = _
    have hand : answers r as = RecallFilter.denote.branches Formula.allOf ands r :=
      branches_answers r .and ands iha id _ (fun as => by simp [answers, compilePython, Formula.combine])
        rfl as ha
    have hor : answers r os = RecallFilter.denote.branches Formula.anyOf ors r :=
      branches_answers r .or ors iho id _ (fun as => by simp [answers, compilePython, Formula.combine])
        rfl os ho
    have hnor : answers r (ns.map (fun a => .node .not [a])) =
        RecallFilter.denote.branches (fun xs => (Formula.anyOf xs).map (fun b => !b)) nors r :=
      branches_answers r .or nors ihn (List.map (fun a => .node .not [a])) _
        (fun as => by simp [answers, compilePython, Formula.combine]) rfl ns hn
    simp only [answers_append, system_answers r s _ keys hk, folded_answers r fo preds hp, hblob,
      hinner, hand, hor, hnor, RecallFilter.denote]

end Uru.Filter
