import Uru.Filter.Canonical

/-!
# Comparisons with similar operands

The comparisons of the oracle do not see the order of the members in an
operand, so that two leaves with the same representation test the same. A
tree that is built from such leaves answers alike, whatever the order of its
siblings, on every record on which all of its leaves answer.
-/

set_option autoImplicit false

namespace Uru.Filter

open Uru.Lib

theorem pyEq_goList {xs ys : List Val}
    (h : List.Forall₂ (fun v w => ∀ s, pyEq s v = pyEq s w) xs ys) (ss : List Val) :
    pyEq.goList ss xs = pyEq.goList ss ys := by
  induction h generalizing ss with
  | nil => rfl
  | cons hxy _ ih =>
    cases ss with
    | nil => rfl
    | cons s ss => rw [pyEq.goList, pyEq.goList, hxy, ih]

theorem pyEq_goDict {xs ys : Dict} (h : Matched (fun v w => ∀ s, pyEq s v = pyEq s w) xs ys)
    (ss : Dict) : pyEq.goDict ss xs = pyEq.goDict ss ys := by
  induction ss with
  | nil => rfl
  | cons kv ss ih =>
    obtain ⟨k, s⟩ := kv
    rw [pyEq.goDict, pyEq.goDict, ih]
    rcases h k with ⟨hx, hy⟩ | ⟨x, y, hx, hy, hxy⟩
    · rw [hx, hy]
    · rw [hx, hy]
      exact congrArg (· && _) (hxy s)

theorem length_of_keys {xs ys : Dict} (h : (keys xs).Perm (keys ys)) : xs.length = ys.length := by
  have hl := h.length_eq
  rwa [keys, keys, List.length_map, List.length_map] at hl

theorem pyEq_list {xs ys : List Val} (h : List.Forall₂ (fun v w => ∀ s, pyEq s v = pyEq s w) xs ys)
    (s : Val) : pyEq s (.list xs) = pyEq s (.list ys) := by
  cases s with
  | list ss => exact pyEq_goList h ss
  | _ => rfl

theorem pyEq_dict {xs ys : Dict} (hkeys : (keys xs).Perm (keys ys))
    (h : Matched (fun v w => ∀ s, pyEq s v = pyEq s w) xs ys) (s : Val) :
    pyEq s (.dict xs) = pyEq s (.dict ys) := by
  cases s with
  | dict ss => simp only [pyEq, length_of_keys hkeys, pyEq_goDict h ss]
  | _ => rfl

theorem pyEq_similar (v w : Val) (h : v.Similar w) : ∀ s, pyEq s v = pyEq s w :=
  Val.Similar.ind (P := fun v w => ∀ s, pyEq s v = pyEq s w) (fun _ _ => rfl)
    (fun _ _ hs => pyEq_list hs) (fun _ _ hkeys hs => pyEq_dict hkeys hs) v w h

theorem pyCompare_goList (op : Op) {xs ys : List Val}
    (h : List.Forall₂ (fun v w => ∀ s, pyEq s v = pyEq s w ∧ pyCompare op s v = pyCompare op s w) xs ys)
    (ss : List Val) : pyCompare.goList op ss xs = pyCompare.goList op ss ys := by
  induction h generalizing ss with
  | nil => rfl
  | cons hxy _ ih =>
    cases ss with
    | nil => rfl
    | cons s ss => rw [pyCompare.goList, pyCompare.goList, (hxy s).1, (hxy s).2, ih]

theorem pyCompare_similar (op : Op) (v w : Val) (h : v.Similar w) (s : Val) :
    pyCompare op s v = pyCompare op s w := by
  suffices hboth : ∀ s, pyEq s v = pyEq s w ∧ pyCompare op s v = pyCompare op s w from (hboth s).2
  refine Val.Similar.ind
    (P := fun v w => ∀ s, pyEq s v = pyEq s w ∧ pyCompare op s v = pyCompare op s w)
    (fun _ _ => ⟨rfl, rfl⟩) (fun xs ys hs s => ⟨pyEq_list (hs.imp (fun _ _ h s => (h s).1)) s, ?_⟩)
    (fun xs ys hkeys hs s => ⟨pyEq_dict hkeys (hs.imp (fun _ _ _ h s => (h s).1)) s, ?_⟩) v w h
  · cases s with
    | list ss => exact pyCompare_goList op hs ss
    | _ => rfl
  · cases s <;> rfl

theorem jsonable_list (xs : List Val) : jsonable (.list xs) = .list (xs.map jsonable) := by
  rw [jsonable]
  induction xs with
  | nil => rfl
  | cons x xs ih =>
    injection ih with ih
    rw [jsonable.goList, ih, List.map_cons]

theorem jsonable_dict (kvs : Dict) :
    jsonable (.dict kvs) = .dict (kvs.map (fun kv => (kv.1,jsonable kv.2))) := by
  rw [jsonable]
  induction kvs with
  | nil => rfl
  | cons kv kvs ih =>
    injection ih with ih
    rw [jsonable.goDict, ih, List.map_cons]

theorem jsonEq_goList {xs ys : List Val}
    (h : List.Forall₂ (fun v w => ∀ s, jsonEq s v = jsonEq s w) xs ys) (ss : List Val) :
    jsonEq.goList ss xs = jsonEq.goList ss ys := by
  induction h generalizing ss with
  | nil => rfl
  | cons hxy _ ih =>
    cases ss with
    | nil => rfl
    | cons s ss => rw [jsonEq.goList, jsonEq.goList, hxy, ih]

theorem jsonEq_goDict {xs ys : Dict} (h : Matched (fun v w => ∀ s, jsonEq s v = jsonEq s w) xs ys)
    (ss : Dict) : jsonEq.goDict ss xs = jsonEq.goDict ss ys := by
  induction ss with
  | nil => rfl
  | cons kv ss ih =>
    obtain ⟨k, s⟩ := kv
    rw [jsonEq.goDict, jsonEq.goDict, ih]
    rcases h k with ⟨hx, hy⟩ | ⟨x, y, hx, hy, hxy⟩
    · rw [hx, hy]
    · rw [hx, hy]
      exact congrArg (· && _) (hxy s)

theorem matched_map {R S : Val → Val → Prop} {f : Val → Val} {xs ys : Dict} (h : Matched R xs ys)
    (hRS : ∀ x y, R x y → S (f x) (f y)) :
    Matched S (xs.map (fun kv => (kv.1,f kv.2))) (ys.map (fun kv => (kv.1,f kv.2))) := by
  intro k
  rw [lookup_map, lookup_map]
  rcases h k with ⟨hx, hy⟩ | ⟨x, y, hx, hy, hxy⟩
  · exact .inl ⟨by rw [hx]; rfl, by rw [hy]; rfl⟩
  · exact .inr ⟨f x, f y, by rw [hx]; rfl, by rw [hy]; rfl, hRS x y hxy⟩

theorem all_keys (kvs : Dict) (p : PyStr → Bool) : kvs.all (fun kv => p kv.1) = (keys kvs).all p := by
  rw [keys, List.all_map]
  rfl

theorem jsonEq_similar (v w : Val) (h : v.Similar w) :
    ∀ s, jsonEq s (jsonable v) = jsonEq s (jsonable w) := by
  refine Val.Similar.ind (P := fun v w => ∀ s, jsonEq s (jsonable v) = jsonEq s (jsonable w))
    (fun _ _ => rfl) ?_ ?_ v w h
  · intro xs ys hs s
    rw [jsonable_list, jsonable_list]
    have hmap : List.Forall₂ (fun v w => ∀ s, jsonEq s v = jsonEq s w) (xs.map jsonable)
        (ys.map jsonable) := by
      rw [List.forall₂_map_left_iff, List.forall₂_map_right_iff]
      exact hs
    cases s with
    | list ss => exact jsonEq_goList hmap ss
    | _ => rfl
  · intro xs ys hkeys hs s
    rw [jsonable_dict, jsonable_dict]
    have hmap : Matched (fun v w => ∀ s, jsonEq s v = jsonEq s w)
        (xs.map (fun kv => (kv.1,jsonable kv.2))) (ys.map (fun kv => (kv.1,jsonable kv.2))) :=
      matched_map hs (fun _ _ h => h)
    cases s with
    | dict ss =>
      have hall : xs.all (fun kv => (keys ss).contains kv.1) = ys.all (fun kv => (keys ss).contains kv.1) := by
        rw [all_keys xs ((keys ss).contains ·), all_keys ys ((keys ss).contains ·)]
        exact hkeys.all_eq
      simp only [jsonEq, jsonEq_goDict hmap ss, List.all_map, Function.comp_def, hall]
    | _ => rfl

inductive Atom.Similar : Atom → Atom → Prop
  | val {v w : Val} (h : v.Similar w) : Similar (.val v) (.val w)
  | date (t : UtcTime) : Similar (.date t) (.date t)

inductive Operand.Similar : Operand → Operand → Prop
  | atom {a b : Atom} (h : a.Similar b) : Similar (.atom a) (.atom b)
  | tuple {as bs : List Atom} (h : List.Forall₂ Atom.Similar as bs) : Similar (.tuple as) (.tuple bs)

theorem Atom.Similar.value {a b : Atom} (h : a.Similar b) : a.value.Similar b.value := by
  cases h with
  | val h => exact h
  | date t => exact ⟨⟨trivial, trivial⟩, rfl, rfl⟩

theorem Atom.Similar.jsonEq {a b : Atom} (h : a.Similar b) (s : Val) :
    Filter.jsonEq s a.jsonable = Filter.jsonEq s b.jsonable := by
  cases h with
  | val h => exact jsonEq_similar _ _ h s
  | date t => rfl

theorem comparable_similar {v w : Val} (h : v.Similar w) (s : Val) :
    comparable s v = comparable s w := by
  cases h.view with
  | refl => rfl
  | list _ => cases s <;> rfl
  | dict _ _ => cases s <;> rfl

theorem truthy_similar {v w : Val} (h : v.Similar w) : v.truthy = w.truthy := by
  cases h.view with
  | refl => rfl
  | list hs =>
    cases hs with
    | nil => rfl
    | cons _ _ => rfl
  | @dict xs ys hkeys _ =>
    have hl := length_of_keys hkeys
    cases xs <;> cases ys
    · rfl
    · cases hl
    · cases hl
    · rfl

theorem Operand.Similar.truthy {x y : Operand} (h : x.Similar y) : x.truthy = y.truthy := by
  cases h with
  | atom h =>
    cases h with
    | val h => exact truthy_similar h
    | date t => rfl
  | tuple h =>
    cases h with
    | nil => rfl
    | cons _ _ => rfl

theorem aligned_similar {v w : Val} (h : v.Similar w) {compare : Val → Val → Option Bool}
    {s : Val} (hc : compare s v = compare s w) : aligned compare s v = aligned compare s w := by
  cases h.view with
  | refl => rfl
  | list _ => cases s <;> exact hc
  | dict _ _ => cases s <;> exact hc

theorem eqAligned_similar {v w : Val} (h : v.Similar w) (s : Val) : eqAligned s v = eqAligned s w :=
  aligned_similar h (congrArg some (pyEq_similar v w h s))

theorem members_similar {as bs : List Atom} (h : List.Forall₂ Atom.Similar as bs) (s : Val) :
    (as.map Atom.value).map (fun v => if comparable s v then eqAligned s v else some false) =
      (bs.map Atom.value).map (fun v => if comparable s v then eqAligned s v else some false) := by
  induction h with
  | nil => rfl
  | cons hab _ ih =>
    simp only [List.map_cons, comparable_similar hab.value s, eqAligned_similar hab.value s, ih]

theorem compileSystemClause_similar (stored : Val) (op : Op) {x y : Operand} (h : x.Similar y) :
    compileSystemClause stored op x = compileSystemClause stored op y := by
  have htruthy := h.truthy
  cases h with
  | tuple h =>
    have hm := members_similar h stored
    cases op with
    | in_ => simp only [compileSystemClause, systemIn, hm]
    | nin => simp only [compileSystemClause, systemNin, hm]
    | exists_ => simp only [compileSystemClause, htruthy]
    | _ => rfl
  | @atom a b h =>
    have hv := h.value
    have hcmp := comparable_similar hv stored
    have heq : systemEq stored a.value = systemEq stored b.value := by
      rw [systemEq, systemEq, hcmp, eqAligned_similar hv]
    have hne : systemNe stored a.value = systemNe stored b.value := by
      rw [systemNe, systemNe, hcmp, eqAligned_similar hv]
    have hrange : systemRange op stored a.value = systemRange op stored b.value := by
      rw [systemRange, systemRange, hcmp, aligned_similar hv (pyCompare_similar op _ _ hv stored)]
    cases h with
    | date t => rfl
    | val h =>
      cases h.view with
      | refl => rfl
      | list _ =>
        cases op with
        | in_ | nin => rfl
        | exists_ => exact congrArg some htruthy
        | eq => exact heq
        | ne => exact hne
        | _ => exact hrange
      | dict _ _ =>
        cases op with
        | in_ | nin => rfl
        | exists_ => exact congrArg some htruthy
        | eq => exact heq
        | ne => exact hne
        | _ => exact hrange

theorem jsonables_similar {as bs : List Atom} (h : List.Forall₂ Atom.Similar as bs) (s : Val) :
    jsonEq s (.list (as.map Atom.jsonable)) = jsonEq s (.list (bs.map Atom.jsonable)) := by
  have hmap : List.Forall₂ (fun v w => ∀ s, jsonEq s v = jsonEq s w) (as.map Atom.jsonable)
      (bs.map Atom.jsonable) := by
    rw [List.forall₂_map_left_iff, List.forall₂_map_right_iff]
    exact h.imp (fun _ _ hab => hab.jsonEq)
  cases s with
  | list ss => exact jsonEq_goList hmap ss
  | _ => rfl

theorem Operand.Similar.jsonEq {x y : Operand} (h : x.Similar y) (s : Val) :
    Filter.jsonEq s x.jsonable = Filter.jsonEq s y.jsonable := by
  cases h with
  | atom h => exact h.jsonEq s
  | tuple h => exact jsonables_similar h s

theorem mdContains_similar {v w : Val} (h : ∀ s, jsonEq s v = jsonEq s w) (node : Option Val) :
    mdContains node v = mdContains node w := by
  cases node with
  | none => rfl
  | some n =>
    cases n with
    | list xs => exact congrArg xs.any (funext (fun x => h (jsonable x)))
    | _ => exact h _

theorem any_similar {as bs : List Atom} (h : List.Forall₂ Atom.Similar as bs) (node : Option Val) :
    as.any (fun a => mdContains node a.jsonable) = bs.any (fun a => mdContains node a.jsonable) := by
  induction h with
  | nil => rfl
  | cons hab _ ih => rw [List.any_cons, List.any_cons, mdContains_similar hab.jsonEq, ih]

theorem mdEq_similar (node : Option Val) {x y : Operand} (h : x.Similar y) :
    mdEq node x = mdEq node y := by
  cases h with
  | tuple h =>
    rw [mdEq, mdEq]
    cases node with
    | none => rfl
    | some n =>
      cases n with
      | list xs => exact congrArg some (jsonables_similar h _)
      | _ => rfl
  | atom h =>
    cases h with
    | date t => rfl
    | val h =>
      cases h.view with
      | refl => rfl
      | list _ => exact congrArg some (mdContains_similar (jsonEq_similar _ _ h) node)
      | dict _ _ =>
        cases node with
        | none => rfl
        | some n =>
          cases n with
          | dict kvs => exact congrArg some (jsonEq_similar _ _ h _)
          | _ => rfl

theorem mdRange_similar (op : Op) (node : Option Val) {v w : Val} (h : v.Similar w) :
    mdRangeCompare op node v = mdRangeCompare op node w := by
  cases node with
  | none => rfl
  | some n => rw [mdRangeCompare, mdRangeCompare, comparable_similar h, pyCompare_similar op v w h]

theorem compileMetadataClause_similar (blob : Dict) (segs : List PyStr) (op : Op) {x y : Operand}
    (h : x.Similar y) :
    compileMetadataClause blob segs op x = compileMetadataClause blob segs op y := by
  unfold compileMetadataClause
  rw [h.jsonEq]
  by_cases hs : segs = []
  · rw [if_pos hs, if_pos hs]
  rw [if_neg hs, if_neg hs]
  have heq := mdEq_similar (mdDig blob segs) h
  have htruthy := h.truthy
  cases h with
  | tuple h =>
    have hany := any_similar h (mdDig blob segs)
    cases op with
    | in_ => exact congrArg some hany
    | nin => exact congrArg (fun b => some (!b)) hany
    | exists_ => simp only [htruthy]
    | eq => exact heq
    | ne => exact congrArg (fun b => b.map (fun b => !b)) heq
    | _ => rfl
  | atom h =>
    cases h with
    | date t => rfl
    | val h =>
      have hrange := mdRange_similar op (mdDig blob segs) h
      cases h.view with
      | refl => rfl
      | list _ | dict _ _ =>
        cases op with
        | in_ | nin => rfl
        | exists_ => simp only [htruthy]
        | eq => exact heq
        | ne => exact congrArg (fun b => b.map (fun b => !b)) heq
        | _ => exact hrange

theorem atom_similar {a b : Atom} (ha : a.Unique) (hb : b.Unique)
    (hs : a.canonicalize = b.canonicalize) (hc : a.confused b = false) : a.Similar b := by
  have htag : py "$date" ≠ py "$dt" := by decide
  cases a with
  | val v =>
    cases b with
    | val w => exact .val ⟨⟨ha, hb⟩, hs, hc⟩
    | date t =>
      rcases value_tagged hs with ⟨d, _, ht, _⟩ | ⟨kvs, rfl, ht⟩
      · exact absurd ht htag
      · rw [Atom.confused, ht] at hc
        cases hc
  | date t =>
    cases b with
    | val w =>
      rcases value_tagged hs.symm with ⟨d, _, ht, _⟩ | ⟨kvs, rfl, ht⟩
      · exact absurd ht htag
      · rw [Atom.confused, ht] at hc
        cases hc
    | date u =>
      injection hs with hs
      injection hs with hs _
      injection hs with _ hs
      injection hs with hs
      rw [isoformat_inj hs]
      exact .date u

theorem atoms_similar {as bs : List Atom} (ha : ∀ a ∈ as, a.Unique) (hb : ∀ b ∈ bs, b.Unique)
    (hs : as.map Atom.canonicalize = bs.map Atom.canonicalize)
    (hc : (as.zip bs).any (fun p => p.1.confused p.2) = false) : List.Forall₂ Atom.Similar as bs := by
  induction as generalizing bs with
  | nil =>
    cases bs with
    | nil => exact .nil
    | cons b bs => cases hs
  | cons a as ih =>
    cases bs with
    | nil => cases hs
    | cons b bs =>
      injection hs with h hs
      rw [List.zip_cons_cons, List.any_cons, Bool.or_eq_false_iff] at hc
      exact .cons (atom_similar (ha a (by simp)) (hb b (by simp)) h hc.1)
        (ih (fun x hx => ha x (by simp [hx])) (fun x hx => hb x (by simp [hx])) hs hc.2)

theorem kind_tuple {a : Atom} {as : List Atom} : operandKind (.atom a) ≠ operandKind (.tuple as) := by
  have hl : py "list" ≠ py "tuple" := by decide
  have hs : py "scalar" ≠ py "tuple" := by decide
  cases a with
  | date t => exact hs
  | val v => cases v <;> first | exact hs | exact hl

theorem operand_similar {x y : Operand} (hx : x.Unique) (hy : y.Unique)
    (hk : operandKind x = operandKind y) (hs : canonicalizeOperand x = canonicalizeOperand y)
    (hc : x.confused y = false) : x.Similar y := by
  cases x with
  | atom a =>
    cases y with
    | atom b => exact .atom (atom_similar hx hy hs hc)
    | tuple bs => exact absurd hk kind_tuple
  | tuple as =>
    cases y with
    | atom b => exact absurd hk.symm kind_tuple
    | tuple bs =>
      injection hs with hs
      exact .tuple (atoms_similar hx hy hs hc)

theorem key_inj {o p : Op} (h : o.key = p.key) : o = p := by
  have hread : ∀ o : Op, Op.ofKey o.key = some o := fun o => by cases o <;> decide
  have hop := hread o
  rw [h, hread p] at hop
  exact (Option.some.inj hop).symm

theorem path_inj {p q : List PyStr} (h : p.map Json.str = q.map Json.str) : p = q :=
  List.map_injective_iff.mpr (fun _ _ h => Json.str.inj h) h

/-- Leaves with the same representation test the same. -/
theorem compileClause_similar {c d : FilterClause} (hc : c.operand.Unique) (hd : d.operand.Unique)
    (hs : canonicalizeClause c = canonicalizeClause d) (hcd : c.confused d = false) (r : Record) :
    compileClause c r = compileClause d r := by
  simp only [canonicalizeClause, Json.obj.injEq, List.cons.injEq, Prod.mk.injEq, true_and, and_true,
    Json.arr.injEq, Json.str.injEq] at hs
  obtain ⟨hpath, hop, hkind, hoperand⟩ := hs
  have hp := path_inj hpath
  have ho := key_inj hop
  rw [FilterClause.confused, hp, ho] at hcd
  simp only [decide_true, Bool.true_and] at hcd
  have h := operand_similar hc hd hkind hoperand hcd
  rw [compileClause, compileClause, hp, ho]
  split
  · exact compileSystemClause_similar _ _ h
  · exact compileMetadataClause_similar _ _ _ h
  · rfl

theorem canonicalizeOn_go (key : Json → PyStr) (fs : List Ast) :
    canonicalizeOn.go key fs = fs.map (canonicalizeOn key) := by
  induction fs with
  | nil => rfl
  | cons f fs ih => rw [canonicalizeOn.go, ih, List.map_cons]

theorem canonicalizeOn_not (key : Json → PyStr) (fs : List Ast) :
    canonicalizeOn key (.node .not fs) = canonicalizeNode .not (fs.map (canonicalizeOn key)) := by
  rw [canonicalizeOn, canonicalizeOn_go]

theorem canonicalizeOn_node (key : Json → PyStr) {op : Connective} (h : op ≠ .not) (fs : List Ast) :
    canonicalizeOn key (.node op fs) =
      canonicalizeNode op (sortOn key (fs.map (canonicalizeOn key))) := by
  cases op with
  | not => exact absurd rfl h
  | and => rw [canonicalizeOn, canonicalizeOn_go]; exact fun he => nomatch he
  | or => rw [canonicalizeOn, canonicalizeOn_go]; exact fun he => nomatch he

theorem node_inj {op op' : Connective} {xs ys : List Json}
    (h : canonicalizeNode op xs = canonicalizeNode op' ys) : op = op' ∧ xs = ys := by
  simp only [canonicalizeNode, Json.obj.injEq, List.cons.injEq, Prod.mk.injEq, true_and, and_true,
    Json.arr.injEq, Json.str.injEq] at h
  refine ⟨?_, h.2⟩
  have hk := key_inj (o := match op with | .and => .and | .or => .or | .not => .not)
    (p := match op' with | .and => .and | .or => .or | .not => .not)
    (by cases op <;> cases op' <;> exact h.1)
  cases op <;> cases op' <;> first | rfl | cases hk

theorem clause_ne_node (c : FilterClause) (op : Connective) (xs : List Json) :
    canonicalizeClause c ≠ canonicalizeNode op xs := by
  intro h
  injection h with h
  injection h with h _
  injection h with _ h
  injection h with h
  revert h
  decide

/-- The children of nodes with the same representation have the same ones, up
to order below a conjunction or a disjunction. -/
theorem children_perm {key : Json → PyStr} {op : Connective} {fs : List Ast} {b : Ast}
    (h : canonicalizeOn key (.node op fs) = canonicalizeOn key b) :
    ∃ gs, b = .node op gs ∧ (fs.map (canonicalizeOn key)).Perm (gs.map (canonicalizeOn key)) := by
  have hnode : ∀ op fs, ∃ xs, canonicalizeOn key (.node op fs) = canonicalizeNode op xs ∧
      xs.Perm (fs.map (canonicalizeOn key)) := by
    intro op fs
    by_cases ho : op = .not
    · subst ho
      exact ⟨_, canonicalizeOn_not key fs, .refl _⟩
    · exact ⟨_, canonicalizeOn_node key ho fs, sortOn_perm _ _⟩
  obtain ⟨xs, hxs, hfs⟩ := hnode op fs
  rw [hxs] at h
  cases b with
  | leaf c => exact absurd h.symm (clause_ne_node c op xs)
  | node op' gs =>
    obtain ⟨ys, hys, hgs⟩ := hnode op' gs
    rw [hys] at h
    obtain ⟨rfl, rfl⟩ := node_inj h
    exact ⟨gs, rfl, hfs.symm.trans hgs⟩

/-- Below a negation the children stand in the same order. -/
theorem children_matched {key : Json → PyStr} {op : Connective} {fs : List Ast} {b : Ast}
    (h : canonicalizeOn key (.node op fs) = canonicalizeOn key b) :
    ∃ gs gs', b = .node op gs ∧ gs'.Perm gs ∧ (op = .not → gs' = gs) ∧
      List.Forall₂ (fun f g => canonicalizeOn key f = canonicalizeOn key g) fs gs' := by
  obtain ⟨gs, rfl, hperm⟩ := children_perm h
  by_cases ho : op = .not
  · subst ho
    rw [canonicalizeOn_not, canonicalizeOn_not] at h
    exact ⟨gs, gs, rfl, .refl gs, fun _ => rfl, forall₂_of_map_eq (node_inj h).2⟩
  · obtain ⟨gs', hgs, hmatch⟩ := exists_perm_of_map hperm
    exact ⟨gs, gs', rfl, hgs, fun he => absurd he ho, hmatch⟩

/-- Trees with the same representation answer alike on a record on which all
leaves of the first one answer. -/
theorem run_similar (key : Json → PyStr) (r : Record) (a b : Ast) (hu : a.UnaryNots)
    (ha : ∀ c ∈ a.leaves, c.operand.Unique) (hb : ∀ d ∈ b.leaves, d.operand.Unique)
    (hab : ∀ c ∈ a.leaves, ∀ d ∈ b.leaves, c.confused d = false)
    (hans : ∀ c ∈ a.leaves, ∃ x, compileClause c r = some x)
    (h : canonicalizeOn key a = canonicalizeOn key b) : compilePython a r = compilePython b r := by
  induction a using Formula.ind generalizing b with
  | hleaf c =>
    cases b with
    | leaf d =>
      exact compileClause_similar (ha c (by simp)) (hb d (by simp)) h
        (hab c (by simp) d (by simp)) r
    | node op gs =>
      obtain ⟨_, he, _⟩ := children_perm h.symm
      cases he
  | hnode op fs ih =>
    obtain ⟨gs, gs', rfl, hgs, hnot, hmatch⟩ := children_matched h
    have hn := (Formula.atNodes_node _ _ _).mp hu
    have hleaf : ∀ (hs : List Ast) (f : Ast) (c : FilterClause), f ∈ hs → c ∈ f.leaves →
        c ∈ (Formula.node op hs).leaves := by
      intro hs f c hf hc
      rw [Formula.leaves_node]
      exact List.mem_flatMap.mpr ⟨f, hf, hc⟩
    have hrun : fs.map (Formula.run (fun c => compileClause c r)) =
        gs'.map (Formula.run (fun c => compileClause c r)) := by
      refine map_eq_of_forall₂ (forall₂_imp_mem hmatch (fun f hf g hg hfg => ?_))
      have hg' := hgs.mem_iff.mp hg
      exact ih f hf g (hn.2 f hf) (fun c hc => ha c (hleaf fs f c hf hc))
        (fun d hd => hb d (hleaf gs g d hg' hd))
        (fun c hc d hd => hab c (hleaf fs f c hf hc) d (hleaf gs g d hg' hd))
        (fun c hc => hans c (hleaf fs f c hf hc)) hfg
    rw [compilePython, compilePython, Formula.run_node, Formula.run_node]
    by_cases ho : op = .not
    · rw [hrun, hnot ho]
    · rw [hrun]
      refine Formula.combine_perm ho (hgs.map _) (fun x hx => ?_)
      rw [← hrun] at hx
      obtain ⟨f, hf, rfl⟩ := List.mem_map.mp hx
      exact (Formula.truth_eq_run f (hn.2 f hf)
        (fun c hc => ⟨rfl, hans c (hleaf fs f c hf hc)⟩)).2

end Uru.Filter
