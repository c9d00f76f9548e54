import Uru.Hooks.MatchDsl

/-!
# What a pattern means

The documented meaning of a pattern is a proposition about the values of an
event. The evaluator returns, with this meaning, whenever every operator object
that it reaches is faithful: its operand has the type that the evaluator takes
for granted, a wildcard does not owe its match to a newline at the end, and the
later forms of an `anything-but` would not fail where its first one passes. On
a single operator object this condition is exact.
-/

set_option autoImplicit false

namespace Uru.Hooks.MatchDsl

open Uru.Lib Uru.Lib.Formula Uru.Filter

inductive Glob : PyStr → PyStr → Prop
  | nil : Glob [] []
  | star (u : PyStr) {p s : PyStr} (h : Glob p s) : Glob (point '*' ::p) (u++s)
  | any (c : CodePoint) {p s : PyStr} (h : Glob p s) : Glob (point '?' ::p) (c::s)
  | char (c : CodePoint) (hs : c ≠ point '*') (hq : c ≠ point '?') {p s : PyStr} (h : Glob p s) :
      Glob (c::p) (c::s)

def TextOp.Means : TextOp → PyStr → PyStr → Prop
  | starts, p, s => p <+: s
  | ends, p, s => p <:+ s
  | wildcard, p, s => Glob p s

def TextMeans (op : TextOp) (operand value : Val) : Prop :=
  ∃ p s, operand = .str p ∧ value = .str s ∧ op.Means p s

inductive Comparisons (value : NumValue) : List Val → Prop
  | nil : Comparisons value []
  | cons {op threshold : Val} {ops : List Val} {test : NumValue → NumValue → Bool} {t : NumValue}
      (hop : comparison op = some test) (ht : numeric threshold = some t) (h : test value t = true)
      (hs : Comparisons value ops) : Comparisons value (op::threshold::ops)

def NoneOf (value : Val) (spec : Dict) : Prop :=
  (∃ op : TextOp, ∃ x, spec.lookup op.key = some x) ∧
    ∀ (op : TextOp) (x : Val), spec.lookup op.key = some x → ¬ TextMeans op x value

section Meaning

variable (P : Python)

def OperatorMeans (op : Operator) (operand value : Val) : Prop :=
  match op with
  | .text op => TextMeans op operand value
  | .equalsIgnoreCase => ∃ s t, value = .str s ∧ P.str operand = some t ∧ P.lower s = P.lower t
  | .numeric => ∃ ops n, operand = .list ops ∧ numeric value = some n ∧ Comparisons n ops
  | .anythingBut =>
    match operand with
    | .list xs => ∀ x ∈ xs, pyEq x value = false
    | .dict spec => NoneOf value spec
    | x => pyEq value x = false
  | .containsAll =>
    ∃ xs vs, operand = .list xs ∧ value = .list vs ∧ ∀ x ∈ xs, ∃ v ∈ vs, pyEq v x = true

def EntryMeans (value : Option Val) : Val → Prop
  | .dict opDict =>
    match opDict.lookup (py "exists") with
    | some want => value.isSome = want.truthy
    | none => ∃ v, value = some v ∧
        ∃ op x, firstPresent Operator.key operators opDict = some (op,x) ∧ OperatorMeans P op x v
  | entry => ∃ v, value = some v ∧ pyEq v entry = true

variable (eventData : Dict)

/-- The conjunction of the keys, and the disjunction of the branches of `$or`. -/
def Means : Val → Prop
  | .dict kvs => items kvs
  | _ => True
where
  items : Dict → Prop
    | [] => True
    | (k,v)::kvs =>
      (if k = py "$or" then or_ v else ∃ e ∈ entries v, EntryMeans P (eventData.lookup k) e) ∧ items kvs
  or_ : Val → Prop
    | .list bs => branches bs
    | _ => False
  branches : List Val → Prop
    | [] => False
    | b::bs => Means b ∨ branches bs

def ItemMeans (k : PyStr) (v : Val) : Prop :=
  if k = py "$or" then ∃ bs, v = .list bs ∧ ∃ b ∈ bs, Means P eventData b
  else ∃ e ∈ entries v, EntryMeans P (eventData.lookup k) e

theorem means_branches (bs : List Val) :
    Means.branches P eventData bs ↔ ∃ b ∈ bs, Means P eventData b := by
  induction bs with
  | nil => simp [Means.branches]
  | cons b bs ih => simp [Means.branches, ih]

theorem means_or (v : Val) :
    Means.or_ P eventData v ↔ ∃ bs, v = .list bs ∧ ∃ b ∈ bs, Means P eventData b := by
  cases v with
  | list bs => simp [Means.or_, means_branches]
  | _ => simp [Means.or_]

theorem means_dict (kvs : Dict) :
    Means P eventData (.dict kvs) ↔ ∀ kv ∈ kvs, ItemMeans P eventData kv.1 kv.2 := by
  rw [Means]
  induction kvs with
  | nil => simp [Means.items]
  | cons kv kvs ih =>
    rw [Means.items, ih, List.forall_mem_cons, ItemMeans]
    by_cases hk : kv.1 = py "$or"
    · rw [if_pos hk, if_pos hk, means_or]
    · rw [if_neg hk, if_neg hk]

/-- The operand is a text, and a wildcard does not owe its match to a newline. -/
def TextFaithful (op : TextOp) (operand value : Val) : Prop :=
  ∀ s, value = .str s → ∃ p, operand = .str p ∧
    (op = .wildcard → ∀ w, s = w++[newline] → Glob p w → Glob p s)

def HashableNames (value : NumValue) : List Val → Prop
  | op::threshold::ops =>
    hashable op = true ∧ ∀ test t, comparison op = some test → numeric threshold = some t →
      test value t = true → HashableNames value ops
  | _ => True

def OperatorFaithful (op : Operator) (operand value : Val) : Prop :=
  match op, operand with
  | .text op, x => TextFaithful op x value
  | .equalsIgnoreCase, x => ∀ s, value = .str s → (P.str x).isSome
  | .numeric, .list ops => ∀ n, numeric value = some n → ops.length%2 = 0 → HashableNames n ops
  | .anythingBut, .dict spec =>
    ∀ op x, firstPresent TextOp.key innerForms spec = some (op,x) → TextFaithful op x value ∧
      (¬ TextMeans op x value → ∀ (op' : TextOp) (x' : Val), spec.lookup op'.key = some x' →
        ¬ TextMeans op' x' value)
  | _, _ => True

def EntryFaithful (value : Option Val) : Val → Prop
  | .dict opDict => opDict.lookup (py "exists") = none → ∀ v, value = some v → ∀ op x,
      firstPresent Operator.key operators opDict = some (op,x) → OperatorFaithful P op x v
  | _ => True

inductive Leaf
  | entry (value : Option Val) (e : Val)
  | other (pattern : Val)

def Leaf.Faithful : Leaf → Prop
  | entry value e => EntryFaithful P value e
  | other pattern => pattern.truthy = false

/-- The evaluation comes to a leaf: the keys before its key match, and the
entries or branches before it do not. -/
inductive Reaches : Val → Leaf → Prop
  | other (v : Val) (h : ∀ kvs, v ≠ .dict kvs) : Reaches v (.other v)
  | entry (pre : Dict) (k : PyStr) (v : Val) (post : Dict) (hk : k ≠ py "$or")
      (hpre : ∀ kv ∈ pre, ItemMeans P eventData kv.1 kv.2) (before : List Val) (e : Val)
      (after : List Val) (he : entries v = before++e::after)
      (hbefore : ∀ d ∈ before, ¬ EntryMeans P (eventData.lookup k) d) :
      Reaches (.dict (pre++(k,v)::post)) (.entry (eventData.lookup k) e)
  | branch (pre : Dict) (post : Dict) (hpre : ∀ kv ∈ pre, ItemMeans P eventData kv.1 kv.2)
      (before : List Val) (b : Val) (after : List Val)
      (hbefore : ∀ d ∈ before, ¬ Means P eventData d) {l : Leaf} (h : Reaches b l) :
      Reaches (.dict (pre++(py "$or",.list (before++b::after))::post)) l

end Meaning

theorem glob_star (p s : PyStr) :
    Glob (point '*' ::p) s ↔ ∃ u v, s = u++v ∧ Glob p v := by
  constructor
  · intro h
    cases h with
    | star u h => exact ⟨u, _, rfl, h⟩
    | char _ hs _ _ => exact absurd rfl hs
  · rintro ⟨u, v, rfl, h⟩
    exact .star u h

theorem glob_any (p s : PyStr) : Glob (point '?' ::p) s ↔ ∃ c v, s = c::v ∧ Glob p v := by
  constructor
  · intro h
    cases h with
    | any c h => exact ⟨c, _, rfl, h⟩
    | char _ _ hq _ => exact absurd rfl hq
  · rintro ⟨c, v, rfl, h⟩
    exact .any c h

theorem glob_char {c : CodePoint} (hs : c ≠ point '*') (hq : c ≠ point '?') (p s : PyStr) :
    Glob (c::p) s ↔ ∃ v, s = c::v ∧ Glob p v := by
  constructor
  · intro h
    cases h with
    | star _ _ => exact absurd rfl hs
    | any _ _ => exact absurd rfl hq
    | char _ _ _ h => exact ⟨_, rfl, h⟩
  · rintro ⟨v, rfl, h⟩
    exact .char c hs hq h

/-- The translated expression matches the language of the wildcard. -/
theorem compileWildcard_iff (p s : PyStr) :
    s ∈ ((compileWildcard p).map Piece.language).prod ↔ Glob p s := by
  induction p generalizing s with
  | nil =>
    simp only [compileWildcard, List.map_nil, List.prod_nil, Language.mem_one]
    constructor
    · rintro rfl
      exact .nil
    · intro h
      cases h
      rfl
  | cons c p ih =>
    have hcons : compileWildcard (c::p) = (if c = point '*' then .many (fun _ => true)
        else if c = point '?' then .one (fun _ => true)
        else .one (fun d => d = c))::compileWildcard p := rfl
    rw [hcons, List.map_cons, List.prod_cons, Language.mem_mul]
    simp only [ih]
    by_cases hs : c = point '*'
    · rw [if_pos hs, hs, glob_star]
      constructor
      · rintro ⟨u, -, v, hv, rfl⟩
        exact ⟨u, v, rfl, hv⟩
      · rintro ⟨u, v, rfl, hv⟩
        exact ⟨u, fun _ _ => rfl, v, hv, rfl⟩
    · rw [if_neg hs]
      by_cases hq : c = point '?'
      · rw [if_pos hq, hq, glob_any]
        constructor
        · rintro ⟨_, ⟨d, -, rfl⟩, v, hv, rfl⟩
          exact ⟨d, v, rfl, hv⟩
        · rintro ⟨d, v, rfl, hv⟩
          exact ⟨[d], ⟨d, rfl, rfl⟩, v, hv, rfl⟩
      · rw [if_neg hq, glob_char hs hq]
        constructor
        · rintro ⟨_, ⟨d, hd, rfl⟩, v, hv, rfl⟩
          exact ⟨v, by rw [of_decide_eq_true hd]; rfl, hv⟩
        · rintro ⟨v, rfl, hv⟩
          exact ⟨[c], ⟨c, decide_eq_true rfl, rfl⟩, v, hv, rfl⟩

/-- A wildcard also accepts its words with a newline after them. -/
theorem wildcardMatch_iff (p s : PyStr) :
    wildcardMatch p s = true ↔ Glob p s ∨ ∃ w, s = w++[newline] ∧ Glob p w := by
  rw [wildcardMatch, matchThen_iff]
  simp only [compileWildcard_iff, dollar, Bool.or_eq_true, decide_eq_true_eq]
  constructor
  · rintro ⟨u, v, rfl, hu, rfl | rfl⟩
    · exact .inl (by rwa [List.append_nil])
    · exact .inr ⟨u, rfl, hu⟩
  · rintro (h | ⟨w, rfl, h⟩)
    · exact ⟨s, [], (List.append_nil s).symm, h, .inl rfl⟩
    · exact ⟨w, [newline], rfl, h, .inr rfl⟩

theorem test_of_means {op : TextOp} {p s : PyStr} (h : op.Means p s) : op.test p s = true := by
  cases op with
  | starts => exact List.isPrefixOf_iff_prefix.mpr h
  | ends => exact List.isSuffixOf_iff_suffix.mpr h
  | wildcard => exact (wildcardMatch_iff p s).mpr (.inl h)

/-- A test is right exactly when it does not owe its answer to a newline. -/
theorem test_iff (op : TextOp) (p s : PyStr) : (op.test p s = true ↔ op.Means p s) ↔
    (op = .wildcard → ∀ w, s = w++[newline] → Glob p w → Glob p s) := by
  cases op with
  | starts => exact iff_of_true List.isPrefixOf_iff_prefix (fun h => nomatch h)
  | ends => exact iff_of_true List.isSuffixOf_iff_suffix (fun h => nomatch h)
  | wildcard =>
    constructor
    · rintro h - w hw hg
      exact h.mp ((wildcardMatch_iff p s).mpr (.inr ⟨w, hw, hg⟩))
    · intro h
      refine ⟨fun ht => ?_, test_of_means⟩
      rcases (wildcardMatch_iff p s).mp ht with hg | ⟨w, hw, hg⟩
      · exact hg
      · exact h rfl w hw hg

theorem answers_some {b : Bool} {Q : Prop} : Answers (some b) Q ↔ (b = true ↔ Q) := by
  constructor
  · rintro ⟨c, hc, h⟩
    rwa [Option.some.inj hc]
  · exact fun h => ⟨b, rfl, h⟩

theorem not_answers_none (Q : Prop) : ¬ Answers none Q := by
  rintro ⟨b, hb, -⟩
  cases hb

theorem answers_false {Q : Prop} (h : ¬ Q) : Answers (some false) Q :=
  answers_some.mpr (iff_of_false Bool.false_ne_true h)

theorem textMeans_text (op : TextOp) (p s : PyStr) : TextMeans op (.str p) (.str s) ↔ op.Means p s :=
  ⟨fun ⟨_, _, hp, hs, h⟩ => Val.str.inj hp ▸ Val.str.inj hs ▸ h, fun h => ⟨p, s, rfl, rfl, h⟩⟩

theorem text_answers_iff (op : TextOp) (x v : Val) :
    Answers (textTest op x v) (TextMeans op x v) ↔ TextFaithful op x v := by
  cases v with
  | str s =>
    cases x with
    | str p =>
      rw [textTest, answers_some, textMeans_text, test_iff]
      constructor
      · intro h t ht
        obtain rfl := Val.str.inj ht
        exact ⟨p, rfl, h⟩
      · intro h
        obtain ⟨q, hq, hw⟩ := h s rfl
        obtain rfl := Val.str.inj hq
        exact hw
    | _ =>
      refine iff_of_false (not_answers_none _) (fun h => ?_)
      obtain ⟨p, hp, -⟩ := h s rfl
      cases hp
  | _ =>
    refine iff_of_true (answers_false ?_) (fun s hs => nomatch hs)
    rintro ⟨p, s, -, hs, -⟩
    cases hs

theorem means_of_test {op : TextOp} (hop : op ≠ .wildcard) {x v : Val}
    (ht : textTest op x v = some true) : TextMeans op x v := by
  cases v with
  | str s =>
    cases x with
    | str p =>
      have hexact := (test_iff op p s).mpr (fun hw => absurd hw hop)
      exact (textMeans_text op p s).mpr (hexact.mp (Option.some.inj ht))
    | _ => cases ht
  | _ => cases ht

theorem comparisons_cons {n : NumValue} {op threshold : Val} {ops : List Val} :
    Comparisons n (op::threshold::ops) ↔ ∃ test t, comparison op = some test ∧
      numeric threshold = some t ∧ test n t = true ∧ Comparisons n ops := by
  constructor
  · intro h
    cases h with
    | cons hop ht h hs => exact ⟨_, _, hop, ht, h, hs⟩
  · rintro ⟨test, t, hop, ht, h, hs⟩
    exact .cons hop ht h hs

theorem numericPairs_iff (n : NumValue) (ops : List Val) (heven : ops.length%2 = 0) :
    Answers (numericPairs n ops) (Comparisons n ops) ↔ HashableNames n ops := by
  induction ops using numericPairs.induct n with
  | case1 op threshold ops hhash test t ht hop hpass ih =>
    have hrest : Comparisons n (op::threshold::ops) ↔ Comparisons n ops := by
      rw [comparisons_cons]
      exact ⟨fun ⟨_, _, _, _, _, h⟩ => h, fun h => ⟨test, t, hop, ht, hpass, h⟩⟩
    simp only [numericPairs, hhash, hop, ht, hpass, if_true]
    rw [answers_congr hrest, ih (by simp only [List.length_cons] at heven; omega), HashableNames]
    simp [hhash, hop, ht, hpass]
  | case2 op threshold ops hhash test t ht hop hfail =>
    have hnot : ¬ Comparisons n (op::threshold::ops) := by
      rw [comparisons_cons, hop, ht]
      rintro ⟨_, _, hop', ht', h, -⟩
      cases hop'
      cases ht'
      exact hfail h
    simp only [numericPairs, hhash, hop, ht, hfail, if_true]
    refine iff_of_true (answers_false hnot) ⟨hhash, fun test' t' hop' ht' h => ?_⟩
    rw [hop] at hop'
    rw [ht] at ht'
    cases hop'
    cases ht'
    exact absurd h hfail
  | case3 op threshold ops hhash hnone =>
    have hnot : ¬ Comparisons n (op::threshold::ops) := by
      rw [comparisons_cons]
      rintro ⟨test, t, hop, ht, -, -⟩
      exact hnone test t hop ht
    have hfalse : numericPairs n (op::threshold::ops) = some false := by
      rw [numericPairs, if_pos hhash]
      split
      · next test t hop ht => exact absurd ht (hnone test t hop)
      · rfl
    rw [hfalse]
    exact iff_of_true (answers_false hnot)
      ⟨hhash, fun test t hop ht _ => absurd ht (hnone test t hop)⟩
  | case4 op threshold ops hhash =>
    rw [numericPairs, if_neg hhash]
    exact iff_of_false (not_answers_none _) (fun h => hhash h.1)
  | case5 ops hshort =>
    rcases ops with _ | ⟨x, _ | ⟨y, ops⟩⟩
    · exact iff_of_true (answers_some.mpr (iff_of_true rfl .nil)) trivial
    · cases heven
    · exact absurd rfl (hshort x y ops)

theorem firstPresent_some {α : Type} {key : α → PyStr} {ops : List α} {d : Dict} {op : α} {x : Val}
    (h : firstPresent key ops d = some (op,x)) : d.lookup (key op) = some x := by
  obtain ⟨op', -, hop⟩ := List.exists_of_findSome?_eq_some h
  obtain ⟨x', hx, he⟩ := Option.map_eq_some_iff.mp hop
  cases he
  exact hx

theorem firstPresent_none {α : Type} {key : α → PyStr} {ops : List α} {d : Dict}
    (h : firstPresent key ops d = none) {op : α} (hop : op ∈ ops) : d.lookup (key op) = none :=
  Option.map_eq_none_iff.mp (List.findSome?_eq_none_iff.mp h op hop)

theorem mem_innerForms (op : TextOp) : op ∈ innerForms := by
  cases op <;> decide

/-- The wildcard is the first inner form only where it is the only one. -/
theorem wildcard_alone {spec : Dict} {x : Val}
    (h : firstPresent TextOp.key innerForms spec = some (.wildcard,x)) {op : TextOp} {y : Val}
    (hy : spec.lookup op.key = some y) : op = .wildcard := by
  simp only [firstPresent, innerForms, List.findSome?_cons, List.findSome?_nil] at h
  cases op with
  | wildcard => rfl
  | starts =>
    rw [hy] at h
    cases h
  | ends =>
    rw [hy] at h
    rcases hs : spec.lookup TextOp.starts.key with _ | z
    · rw [hs] at h
      cases h
    · rw [hs] at h
      cases h

theorem none_of_iff {value : Val} {spec : Dict} {op : TextOp} {x : Val}
    (h : firstPresent TextOp.key innerForms spec = some (op,x)) :
    NoneOf value spec ↔ ¬ TextMeans op x value ∧ ∀ (op' : TextOp) (x' : Val),
      spec.lookup op'.key = some x' → ¬ TextMeans op' x' value :=
  ⟨fun hn => ⟨hn.2 op x (firstPresent_some h), hn.2⟩,
    fun hn => ⟨⟨op, x, firstPresent_some h⟩, hn.2⟩⟩

/-- The complement of the first inner test is that of all of them exactly when
the first test is right and no other one fails where it passes. -/
theorem inner_answers_iff {value : Val} {spec : Dict} {op : TextOp} {x : Val}
    (h : firstPresent TextOp.key innerForms spec = some (op,x)) :
    Answers ((textTest op x value).map (fun b => !b)) (NoneOf value spec) ↔
      TextFaithful op x value ∧ (¬ TextMeans op x value → ∀ (op' : TextOp) (x' : Val),
        spec.lookup op'.key = some x' → ¬ TextMeans op' x' value) := by
  rw [answers_congr (none_of_iff h), ← text_answers_iff]
  rcases ht : textTest op x value with _ | b
  · exact iff_of_false (not_answers_none _) (fun hf => not_answers_none _ hf.1)
  · rw [Option.map_some, answers_some, answers_some]
    cases b with
    | false =>
      have hmeans : ¬ TextMeans op x value := by
        rintro ⟨p, s, rfl, rfl, hm⟩
        rw [textTest, test_of_means hm] at ht
        cases ht
      simp [hmeans]
    | true =>
      constructor
      · intro hb
        have hbad : ¬ (¬ TextMeans op x value ∧ ∀ (op' : TextOp) (x' : Val),
            spec.lookup op'.key = some x' → ¬ TextMeans op' x' value) :=
          fun hn => Bool.false_ne_true (hb.mpr hn)
        have hmeans : TextMeans op x value := by
          by_contra hm
          have hone : ∀ (op' : TextOp) (x' : Val), spec.lookup op'.key = some x' →
              ¬ TextMeans op' x' value := by
            intro op' x' hx'
            cases op with
            | wildcard =>
              obtain rfl := wildcard_alone h hx'
              rw [firstPresent_some h] at hx'
              obtain rfl := Option.some.inj hx'
              exact hm
            | starts | ends => exact absurd (means_of_test (by decide) ht) hm
          exact hbad ⟨hm, hone⟩
        exact ⟨iff_of_true rfl hmeans, fun hm => absurd hmeans hm⟩
      · rintro ⟨hmeans, -⟩
        exact iff_of_false Bool.false_ne_true (fun hn => hn.1 (hmeans.mp rfl))

theorem containsAll_answers (value x : Val) : Answers (containsAll value x)
    (∃ xs vs, x = .list xs ∧ value = .list vs ∧ ∀ x ∈ xs, ∃ v ∈ vs, pyEq v x = true) := by
  cases x with
  | list xs =>
    cases value with
    | list vs =>
      refine answers_some.mpr ?_
      simp only [List.all_eq_true, List.any_eq_true]
      constructor
      · exact fun h => ⟨xs, vs, rfl, rfl, h⟩
      · rintro ⟨xs', vs', hx, hv, h⟩
        cases hx
        cases hv
        exact h
    | _ =>
      refine answers_false ?_
      rintro ⟨_, _, -, hv, -⟩
      cases hv
  | _ =>
    refine answers_false ?_
    rintro ⟨_, _, hx, -, -⟩
    cases hx

section Object

variable (P : Python)

theorem ignore_case_iff (x v : Val) :
    Answers (evaluatePresent P .equalsIgnoreCase x v) (OperatorMeans P .equalsIgnoreCase x v) ↔
      ∀ s, v = .str s → (P.str x).isSome := by
  cases v with
  | str s =>
    rcases ht : P.str x with _ | t
    · refine iff_of_false ?_ (fun h => ?_)
      · rw [evaluatePresent, ht]
        exact not_answers_none _
      · cases h s rfl
    · refine iff_of_true ?_ (fun _ _ => rfl)
      rw [evaluatePresent, ht, Option.map_some, answers_some, decide_eq_true_eq]
      constructor
      · exact fun h => ⟨s, t, rfl, ht, h⟩
      · rintro ⟨s', t', hs, ht', h⟩
        cases hs
        rw [ht] at ht'
        cases ht'
        exact h
  | _ =>
    refine iff_of_true (answers_false ?_) (fun s hs => nomatch hs)
    rintro ⟨s, t, hs, -, -⟩
    cases hs

theorem even_of_comparisons {n : NumValue} {ops : List Val} (h : Comparisons n ops) :
    ops.length%2 = 0 := by
  induction h with
  | nil => rfl
  | cons _ _ _ _ ih =>
    simp only [List.length_cons]
    omega

theorem numericCompare_iff (v : Val) (ops : List Val) :
    Answers (numericCompare v ops) (∃ n, numeric v = some n ∧ Comparisons n ops) ↔
      ∀ n, numeric v = some n → ops.length%2 = 0 → HashableNames n ops := by
  unfold numericCompare
  rcases hn : numeric v with _ | n
  · refine iff_of_true (answers_false ?_) (fun n hn => nomatch hn)
    rintro ⟨n, hn, -⟩
    cases hn
  · have hmeans : (∃ m, some n = some m ∧ Comparisons m ops) ↔ Comparisons n ops := by
      constructor
      · rintro ⟨m, hm, h⟩
        cases hm
        exact h
      · exact fun h => ⟨n, rfl, h⟩
    rw [answers_congr hmeans]
    by_cases heven : ops.length%2 = 0
    · simp only
      rw [if_pos heven, numericPairs_iff n ops heven]
      exact ⟨fun h m hm _ => Option.some.inj hm ▸ h, fun h => h n rfl heven⟩
    · simp only
      rw [if_neg heven]
      exact iff_of_true (answers_false (fun h => heven (even_of_comparisons h)))
        (fun _ _ h => absurd h heven)

theorem numeric_iff (x v : Val) :
    Answers (evaluatePresent P .numeric x v) (OperatorMeans P .numeric x v) ↔
      OperatorFaithful P .numeric x v := by
  cases x with
  | list ops =>
    have hmeans : OperatorMeans P .numeric (.list ops) v ↔
        ∃ n, numeric v = some n ∧ Comparisons n ops := by
      constructor
      · rintro ⟨ops', n, ho, h⟩
        cases ho
        exact ⟨n, h⟩
      · exact fun ⟨n, h⟩ => ⟨ops, n, rfl, h⟩
    rw [answers_congr hmeans]
    exact numericCompare_iff v ops
  | _ =>
    refine iff_of_true (answers_false ?_) trivial
    rintro ⟨_, _, hx, -⟩
    cases hx

theorem anythingBut_iff (x v : Val) :
    Answers (evaluatePresent P .anythingBut x v) (OperatorMeans P .anythingBut x v) ↔
      OperatorFaithful P .anythingBut x v := by
  cases x with
  | list xs =>
    refine iff_of_true (answers_some.mpr ?_) trivial
    simp [OperatorMeans]
  | dict spec =>
    rcases hf : firstPresent TextOp.key innerForms spec with _ | ⟨op, x⟩
    · have hfalse : evaluatePresent P .anythingBut (.dict spec) v = some false := by
        simp [evaluatePresent, anythingBut, hf]
      rw [hfalse]
      refine iff_of_true (answers_false ?_) (fun op x h => by rw [hf] at h; cases h)
      rintro ⟨⟨op, x, hx⟩, -⟩
      rw [firstPresent_none hf (mem_innerForms op)] at hx
      cases hx
    · have heval : evaluatePresent P .anythingBut (.dict spec) v =
          (textTest op x v).map (fun b => !b) := by
        simp [evaluatePresent, anythingBut, hf]
      rw [heval]
      refine (inner_answers_iff hf).trans ?_
      constructor
      · intro h op' x' hf'
        rw [hf] at hf'
        cases hf'
        exact h
      · exact fun h => h op x hf
  | _ =>
    refine iff_of_true (answers_some.mpr ?_) trivial
    simp [OperatorMeans]

theorem operator_answers_iff (op : Operator) (x v : Val) :
    Answers (evaluatePresent P op x v) (OperatorMeans P op x v) ↔ OperatorFaithful P op x v := by
  cases op with
  | text op => exact text_answers_iff op x v
  | equalsIgnoreCase => exact ignore_case_iff P x v
  | numeric => exact numeric_iff P x v
  | anythingBut => exact anythingBut_iff P x v
  | containsAll => exact iff_of_true (containsAll_answers v x) trivial

/-- An entry gets its answer, with the documented meaning, exactly when it is
faithful on the value of the key. -/
theorem entry_answers_iff (value : Option Val) (e : Val) :
    Answers (evaluateEntry P value e) (EntryMeans P value e) ↔ EntryFaithful P value e := by
  cases e with
  | dict opDict =>
    rw [evaluateEntry, evaluateOperator.eq_def, EntryMeans, EntryFaithful]
    rcases hw : opDict.lookup (py "exists") with _ | want
    · rcases value with _ | v
      · refine iff_of_true (answers_false ?_) (fun _ v hv => by cases hv)
        rintro ⟨v, hv, -⟩
        cases hv
      · rcases hf : firstPresent Operator.key operators opDict with _ | ⟨op, x⟩
        · refine iff_of_true (answers_false ?_) (fun _ _ _ _ _ h => by cases h)
          rintro ⟨_, -, _, _, h, -⟩
          cases h
        · have hmeans : (∃ u, some v = some u ∧ ∃ op' x', some (op,x) = some (op',x') ∧
              OperatorMeans P op' x' u) ↔ OperatorMeans P op x v := by
            constructor
            · rintro ⟨u, hu, op', x', ho, h⟩
              cases hu
              cases ho
              exact h
            · exact fun h => ⟨v, rfl, op, x, rfl, h⟩
          simp only
          rw [answers_congr hmeans, operator_answers_iff]
          constructor
          · intro h _ u hu op' x' ho
            cases hu
            cases ho
            exact h
          · exact fun h => h trivial v rfl op x rfl
    · refine iff_of_true (answers_some.mpr ?_) (fun h => by cases h)
      rw [beq_iff_eq]
  | _ =>
    refine iff_of_true (answers_some.mpr ?_) trivial
    cases value with
    | none => simp [EntryMeans]
    | some v => simp [EntryMeans]

theorem matchKey_answers {vs : List Val} {value : Option Val}
    (h : ∀ before e after, vs = before++e::after → (∀ d ∈ before, ¬ EntryMeans P value d) →
      EntryFaithful P value e) : Answers (matchKey P vs value) (∃ e ∈ vs, EntryMeans P value e) :=
  anyOf_answers vs (fun before e after he hb => (entry_answers_iff P value e).mpr (h before e after he hb))

variable (eventData : Dict)

def item (kv : PyStr × Val) : Option Bool :=
  if kv.1 = py "$or" then matches.or_ P eventData kv.2
  else matchKey P (entries kv.2) (eventData.lookup kv.1)

theorem matches_dict (kvs : Dict) :
    «matches» P eventData (.dict kvs) = allOf (kvs.map (item P eventData)) := by
  rw [«matches»]
  induction kvs with
  | nil => rfl
  | cons kv kvs ih => rw [matches.items, List.map_cons, allOf, ih, item]

theorem matches_or (bs : List Val) :
    matches.or_ P eventData (.list bs) = anyOf (bs.map («matches» P eventData)) := by
  rw [matches.or_]
  induction bs with
  | nil => rfl
  | cons b bs ih => rw [matches.branches, List.map_cons, anyOf, ih]

theorem other_answers_iff {p : Val} (h : ∀ kvs, p ≠ .dict kvs) :
    Answers («matches» P eventData p) (Means P eventData p) ↔ p.truthy = false := by
  cases p with
  | dict kvs => exact absurd rfl (h kvs)
  | _ =>
    rw [«matches», Means]
    · split
      · next ht => exact iff_of_false (not_answers_none _) (by simp [ht])
      · next ht => exact iff_of_true (answers_some.mpr (iff_of_true rfl trivial)) (by simpa using ht)
    all_goals exact fun kvs hk => nomatch hk

theorem or_not_list {v : Val} (h : ∀ bs, v ≠ .list bs) :
    matches.or_ P eventData v = some false := by
  cases v with
  | list bs => exact absurd rfl (h bs)
  | _ => rfl

/-- The evaluator returns, and with the documented meaning, when every leaf that
the evaluation reaches is faithful. -/
theorem matches_answers (p : Val) (h : ∀ l, Reaches P eventData p l → l.Faithful P) :
    Answers («matches» P eventData p) (Means P eventData p) := by
  revert h
  suffices hboth : ((∀ l, Reaches P eventData p l → l.Faithful P) →
      Answers («matches» P eventData p) (Means P eventData p)) ∧
      ∀ bs, p = .list bs → ∀ b ∈ bs, (∀ l, Reaches P eventData b l → l.Faithful P) →
        Answers («matches» P eventData b) (Means P eventData b) from hboth.1
  have hother : ∀ q : Val, (∀ kvs, q ≠ .dict kvs) →
      (∀ l, Reaches P eventData q l → l.Faithful P) →
      Answers («matches» P eventData q) (Means P eventData q) :=
    fun q hq h => (other_answers_iff P eventData hq).mpr (h _ (.other q hq))
  induction p using Val.ind with
  | dict kvs ih =>
    refine ⟨fun h => ?_, fun bs hbs => nomatch hbs⟩
    rw [matches_dict, answers_congr (means_dict P eventData kvs)]
    refine allOf_answers kvs (fun pre kv post hkvs hpre => ?_)
    subst hkvs
    obtain ⟨k, v⟩ := kv
    rw [item, ItemMeans]
    by_cases hk : k = py "$or"
    · rw [if_pos hk, if_pos hk]
      subst hk
      by_cases hlist : ∃ bs, v = .list bs
      · obtain ⟨bs, rfl⟩ := hlist
        rw [matches_or, answers_congr (Q := ∃ b ∈ bs, Means P eventData b) (by simp)]
        refine anyOf_answers bs (fun before b after hbs hbefore => ?_)
        subst hbs
        have hb := (ih _ (List.mem_append_right pre List.mem_cons_self)).2 _ rfl b (by simp)
        exact hb (fun l hl => h l (.branch pre post hpre before b after hbefore hl))
      · have hnot : ∀ bs, v ≠ .list bs := fun bs hb => hlist ⟨bs, hb⟩
        rw [or_not_list P eventData hnot]
        exact answers_false (fun ⟨bs, hb, _⟩ => hlist ⟨bs, hb⟩)
    · rw [if_neg hk, if_neg hk]
      exact matchKey_answers P (fun before e after he hb =>
        h _ (.entry pre k v post hk hpre before e after he hb))
  | list xs ih =>
    refine ⟨hother _ (fun _ hq => nomatch hq), fun bs hbs b hb hr => ?_⟩
    cases hbs
    exact (ih b hb).1 hr
  | _ => exact ⟨hother _ (fun _ hq => nomatch hq), fun bs hbs => nomatch hbs⟩

/-- On a key with one entry the condition is exact. -/
theorem single_entry_iff {k : PyStr} (hk : k ≠ py "$or") (e : Val) :
    Answers («matches» P eventData (.dict [(k,.list [e])]))
      (Means P eventData (.dict [(k,.list [e])])) ↔ EntryFaithful P (eventData.lookup k) e := by
  have hmeans : Means P eventData (.dict [(k,.list [e])]) ↔
      EntryMeans P (eventData.lookup k) e := by
    simp [means_dict, ItemMeans, hk, entries]
  have hmatches : «matches» P eventData (.dict [(k,.list [e])]) =
      evaluateEntry P (eventData.lookup k) e := by
    rw [matches_dict, List.map_singleton, allOf_singleton, item, if_neg hk, matchKey, entries,
      List.map_singleton, anyOf_singleton]
  rw [hmatches, answers_congr hmeans, entry_answers_iff]

end Object

/-- The evaluator returns, and with the documented meaning, when every leaf that
the evaluation reaches is faithful. For a key with a single entry this is
exact, and a pattern that is not an object is accepted exactly when it counts
as empty. -/
theorem match_language (P : Python) (eventData : Dict) :
    (∀ p, (∀ l, Reaches P eventData p l → l.Faithful P) →
      Answers («matches» P eventData p) (Means P eventData p)) ∧
      (∀ k e, k ≠ py "$or" → (Answers («matches» P eventData (.dict [(k,.list [e])]))
        (Means P eventData (.dict [(k,.list [e])])) ↔ EntryFaithful P (eventData.lookup k) e)) ∧
      ∀ p, (∀ kvs, p ≠ .dict kvs) →
        (Answers («matches» P eventData p) (Means P eventData p) ↔ p.truthy = false) :=
  ⟨matches_answers P eventData, fun _ e hk => single_entry_iff P eventData hk e,
    fun _ h => other_answers_iff P eventData h⟩

namespace Newline

def python : Python where
  str
    | .str s => some s
    | _ => some []
  lower := id
  str_text _ := rfl

/-- `{"name": [{"wildcard": "a"}]}`. -/
def pattern : Val := .dict [(py "name",.list [.dict [(py "wildcard",.str (py "a"))]])]

/-- `{"name": "a\n"}`. -/
def event : Dict := [(py "name",.str (py "a"++[newline]))]

theorem matched : «matches» python event pattern = some true := by decide

theorem not_in_language : ¬ Glob (py "a") (py "a"++[newline]) := by
  intro h
  rw [show py "a" = [point 'a'] from rfl, glob_char (by decide) (by decide)] at h
  obtain ⟨v, hv, hnil⟩ := h
  cases hnil
  exact absurd hv (by decide)

/-- The wildcard accepts a text that is not in its language. -/
theorem newline_accepted : «matches» python event pattern = some true ∧
    ¬ Means python event pattern := by
  refine ⟨matched, fun h => not_in_language ?_⟩
  have hitem := (means_dict python event _).mp h _ List.mem_cons_self
  have hname : py "name" ≠ py "$or" := by decide
  rw [ItemMeans, if_neg hname] at hitem
  obtain ⟨e, he, hmeans⟩ := hitem
  obtain rfl := List.mem_singleton.mp he
  obtain ⟨v, hv, op, x, hop, ho⟩ := hmeans
  have hfirst : firstPresent Operator.key operators [(py "wildcard",.str (py "a"))] =
      some (.text .wildcard,.str (py "a")) := rfl
  rw [hfirst] at hop
  obtain ⟨rfl, rfl⟩ := Prod.mk.inj (Option.some.inj hop)
  obtain rfl : Val.str (py "a"++[newline]) = v := Option.some.inj hv
  exact (textMeans_text .wildcard _ _).mp ho

/-- `{"name": "a"}`. -/
def named : Dict := [(py "name",.str (py "a"))]

theorem named_faithful (l : Leaf) (h : Reaches python named pattern l) : l.Faithful python := by
  generalize hp : pattern = p at h
  cases h with
  | other v h => exact absurd hp.symm (h _)
  | branch pre post hpre before b after hbefore h =>
    have hmem : (py "$or",Val.list (before++b::after)) ∈
        [(py "name",Val.list [.dict [(py "wildcard",.str (py "a"))]])] := by
      rw [Val.dict.inj hp]
      simp
    exact absurd (Prod.mk.inj (List.mem_singleton.mp hmem)).1 (by decide)
  | entry pre k v post hk hpre before e after he hbefore =>
    have hmem : (k,v) ∈ [(py "name",Val.list [.dict [(py "wildcard",.str (py "a"))]])] := by
      rw [Val.dict.inj hp]
      simp
    obtain ⟨rfl, rfl⟩ := Prod.mk.inj (List.mem_singleton.mp hmem)
    have hentry : e ∈ [Val.dict [(py "wildcard",.str (py "a"))]] := by
      rw [show [Val.dict [(py "wildcard",.str (py "a"))]] = before++e::after from he]
      simp
    obtain rfl := List.mem_singleton.mp hentry
    intro _ v hv op x hop
    obtain rfl := Option.some.inj hv
    obtain ⟨rfl, rfl⟩ := Prod.mk.inj (Option.some.inj hop)
    intro s hs
    obtain rfl := Val.str.inj hs
    refine ⟨_, rfl, fun _ w hw => ?_⟩
    have hlast : (py "a").getLast? = some newline := by
      rw [hw]
      exact List.getLast?_concat
    exact absurd hlast (by decide)

theorem match_language_named : «matches» python named pattern = some true ∧
    Means python named pattern := by
  have hmatches : «matches» python named pattern = some true := by decide
  obtain ⟨b, hb, hmeans⟩ := (match_language python named).1 pattern named_faithful
  rw [hmatches] at hb
  exact ⟨hmatches, hmeans.mp (Option.some.inj hb).symm⟩

end Newline

end Uru.Hooks.MatchDsl
