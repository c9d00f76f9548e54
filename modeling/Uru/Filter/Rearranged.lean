import Uru.Filter.Shape

/-!
# Rearranged documents

A document is rearranged by permuting the documents under one of its logical
operators, by nesting some of them in a document of the same operator or
taking such a nesting apart, and by permuting the keys of an object, at any
depth. Lowering fails on a rearranged document exactly where it failed on the
document, and the trees have the same shape.
-/

set_option autoImplicit false

namespace Uru.Filter

open Uru.Lib

section Agrees

variable {α β : Type}

def Agrees (R : α → α → Prop) : Except PyError α → Except PyError α → Prop
  | .ok a, .ok b => R a b
  | .error _, .error _ => True
  | _, _ => False

theorem Agrees.refl {R : α → α → Prop} (h : ∀ a, R a a) (x : Except PyError α) : Agrees R x x := by
  cases x with
  | error _ => trivial
  | ok a => exact h a

theorem Agrees.symm {R : α → α → Prop} (h : ∀ a b, R a b → R b a) {x y : Except PyError α}
    (hxy : Agrees R x y) : Agrees R y x := by
  cases x <;> cases y
  · trivial
  · exact hxy
  · exact hxy
  · exact h _ _ hxy

theorem Agrees.trans {R : α → α → Prop} (h : ∀ a b c, R a b → R b c → R a c)
    {x y z : Except PyError α} (hxy : Agrees R x y) (hyz : Agrees R y z) : Agrees R x z := by
  cases x <;> cases y <;> cases z
  all_goals first
    | trivial
    | exact h _ _ _ hxy hyz

theorem Agrees.bind {R : α → α → Prop} {S : β → β → Prop} {x y : Except PyError α}
    {f g : α → Except PyError β} (hxy : Agrees R x y) (hfg : ∀ a b, R a b → Agrees S (f a) (g b)) :
    Agrees S (x >>= f) (y >>= g) := by
  cases x <;> cases y
  · trivial
  · exact hxy.elim
  · exact hxy.elim
  · exact hfg _ _ hxy

theorem Agrees.map {R : α → α → Prop} {S : β → β → Prop} {x y : Except PyError α} {f g : α → β}
    (hxy : Agrees R x y) (hfg : ∀ a b, R a b → S (f a) (g b)) : Agrees S (x.map f) (y.map g) := by
  cases x <;> cases y
  · trivial
  · exact hxy.elim
  · exact hxy.elim
  · exact hfg _ _ hxy

theorem Agrees.mono {R S : α → α → Prop} {x y : Except PyError α} (h : Agrees R x y)
    (hRS : ∀ a b, R a b → S a b) : Agrees S x y := by
  cases x <;> cases y
  · trivial
  · exact h
  · exact h
  · exact hRS _ _ h

theorem Agrees.of_ok {R : α → α → Prop} {x y : Except PyError α} {a : α} (h : Agrees R x y)
    (hx : x = .ok a) : ∃ b, y = .ok b ∧ R a b := by
  subst hx
  cases y with
  | error _ => exact h.elim
  | ok b => exact ⟨b, rfl, h⟩

end Agrees

/-- The keys of objects in the value are permuted, at any depth. -/
inductive Val.Reordered : Val → Val → Prop
  | refl (v : Val) : Reordered v v
  | symm {v w : Val} (h : Reordered v w) : Reordered w v
  | trans {u v w : Val} (h : Reordered u v) (h' : Reordered v w) : Reordered u w
  | keys {xs ys : Dict} (hx : (keys xs).Nodup) (h : xs.Perm ys) : Reordered (.dict xs) (.dict ys)
  | element {v w : Val} (xs ys : List Val) (h : Reordered v w) :
      Reordered (.list (xs++v::ys)) (.list (xs++w::ys))
  | member {v w : Val} (xs ys : Dict) (k : PyStr) (h : Reordered v w) :
      Reordered (.dict (xs++(k,v)::ys)) (.dict (xs++(k,w)::ys))

def SameAtom (a b : Atom) : Prop :=
  a.canonicalize = b.canonicalize ∧ operandKind (.atom a) = operandKind (.atom b)

def SameShapes (as bs : List Ast) : Prop := (as.map shape).Perm (bs.map shape)

theorem clause_atom {a b : Atom} (h : SameAtom a b) (path : List PyStr) (op : Op) :
    shape (clause path op (.atom a)) = shape (clause path op (.atom b)) := by
  simp only [shape, clause, canonicalizeOn, canonicalizeClause, canonicalizeOperand, h.1, h.2]

theorem clause_tuple {as bs : List Atom} (h : as.map Atom.canonicalize = bs.map Atom.canonicalize)
    (path : List PyStr) (op : Op) :
    shape (clause path op (.tuple as)) = shape (clause path op (.tuple bs)) := by
  simp only [shape, clause, canonicalizeOn, canonicalizeClause, canonicalizeOperand, operandKind, h]

def lowerItems : Val → Except PyError (List Ast)
  | .dict kvs => lowerFolded kvs
  | _ => .ok []

structure Val.Alike (v w : Val) : Prop where
  same : canonicalizeValue v = canonicalizeValue w
  kind : operandKind (.atom (.val v)) = operandKind (.atom (.val w))
  scalar : Agrees SameAtom (lowerScalarOperand v) (lowerScalarOperand w)
  operator : ∀ path name, Agrees (fun a b => shape a = shape b) (lowerOperator path name v)
    (lowerOperator path name w)
  predicate : ∀ path, Agrees SameShapes (lowerMetadataPredicate path v) (lowerMetadataPredicate path w)
  items : Agrees SameShapes (lowerItems v) (lowerItems w)

theorem SameAtom.refl (a : Atom) : SameAtom a a := ⟨rfl, rfl⟩

theorem SameShapes.refl (as : List Ast) : SameShapes as as := List.Perm.refl _

theorem SameShapes.single {a b : Ast} (h : shape a = shape b) : SameShapes [a] [b] := .of_eq (by simp [h])

namespace Val.Alike

theorem refl (v : Val) : v.Alike v where
  same := rfl
  kind := rfl
  scalar := Agrees.refl SameAtom.refl _
  operator _ _ := Agrees.refl (R := fun a b => shape a = shape b) (fun _ => rfl) _
  predicate _ := Agrees.refl SameShapes.refl _
  items := Agrees.refl SameShapes.refl _

theorem symm {v w : Val} (h : v.Alike w) : w.Alike v where
  same := h.same.symm
  kind := h.kind.symm
  scalar := h.scalar.symm (fun _ _ hab => ⟨hab.1.symm, hab.2.symm⟩)
  operator path name := (h.operator path name).symm (fun _ _ hab => hab.symm)
  predicate path := (h.predicate path).symm (fun _ _ hab => hab.symm)
  items := h.items.symm (fun _ _ hab => hab.symm)

theorem trans {u v w : Val} (h : u.Alike v) (h' : v.Alike w) : u.Alike w where
  same := h.same.trans h'.same
  kind := h.kind.trans h'.kind
  scalar := h.scalar.trans (fun _ _ _ hab hbc => ⟨hab.1.trans hbc.1, hab.2.trans hbc.2⟩) h'.scalar
  operator path name := (h.operator path name).trans (fun _ _ _ hab hbc => hab.trans hbc)
    (h'.operator path name)
  predicate path := (h.predicate path).trans (fun _ _ _ hab hbc => hab.trans hbc) (h'.predicate path)
  items := h.items.trans (fun _ _ _ hab hbc => hab.trans hbc) h'.items

theorem atom {v w : Val} (h : v.Alike w) : SameAtom (.val v) (.val w) := ⟨h.same, h.kind⟩

end Val.Alike

theorem operandList_agrees {xs ys : List Val} (h : List.Forall₂ Val.Alike xs ys) :
    Agrees (fun as bs => as.map Atom.canonicalize = bs.map Atom.canonicalize) (lowerOperandList xs)
      (lowerOperandList ys) := by
  induction h with
  | nil => exact (rfl : [] = [])
  | cons hxy _ ih =>
    refine Agrees.bind hxy.scalar (fun a b hab => Agrees.bind ih (fun as bs hs => ?_))
    exact congrArg₂ List.cons hab.1 hs

theorem alike_list {xs ys : List Val} (h : List.Forall₂ Val.Alike xs ys) :
    (Val.list xs).Alike (.list ys) := by
  have hsame : canonicalizeValue (.list xs) = canonicalizeValue (.list ys) := by
    rw [canonicalizeValue_list, canonicalizeValue_list, map_eq_of_forall₂ (h.imp (fun _ _ h => h.same))]
  have hatom : SameAtom (.val (.list xs)) (.val (.list ys)) := ⟨hsame, rfl⟩
  refine ⟨hsame, rfl, hatom, fun path name => ?_, fun path => ?_, SameShapes.refl []⟩
  · unfold lowerOperator
    cases Op.ofKey name with
    | none => trivial
    | some op =>
      cases op with
      | not => trivial
      | in_ | nin => exact (operandList_agrees h).map (fun _ _ hs => clause_tuple hs path _)
      | exists_ => exact clause_atom hatom path _
      | _ => exact clause_atom hatom path _
  · refine SameShapes.single (clause_tuple ?_ path .eq)
    rw [List.map_map, List.map_map]
    exact map_eq_of_forall₂ (h.imp (fun _ _ h => h.same))

theorem negate_shape {as bs : List Ast} (h : SameShapes as bs) : shape (negate as) = shape (negate bs) := by
  have hand : shape (.node .and as) = shape (.node .and bs) := shape_node (fun he => nomatch he) h
  have hlen : as.length = bs.length := by simpa using h.length_eq
  have hmany : ∀ as : List Ast, as.length ≠ 1 → negate as = .node .not [.node .and as] := by
    intro as ha
    rcases as with _ | ⟨a, _ | ⟨b, as⟩⟩
    · rfl
    · exact absurd rfl ha
    · rfl
  by_cases hl : as.length = 1
  · obtain ⟨a, rfl⟩ := List.length_eq_one_iff.mp hl
    obtain ⟨b, rfl⟩ := List.length_eq_one_iff.mp (hlen.symm.trans hl)
    exact shape_not (by simpa [SameShapes] using h)
  · rw [hmany as hl, hmany bs (hlen ▸ hl)]
    exact shape_not hand

theorem dateOf_same {v w : Val} (h : canonicalizeValue v = canonicalizeValue w) :
    makeDateLiteral v = makeDateLiteral w := by
  have hother : ∀ v : Val, (∀ s, v ≠ .str s) → makeDateLiteral v = .error .typeError := by
    intro v hv
    cases v with
    | str s => exact absurd rfl (hv s)
    | _ => rfl
  by_cases hv : ∃ s, v = .str s
  · obtain ⟨s, rfl⟩ := hv
    rw [value_str h.symm]
  · have hw : ∀ s, w ≠ .str s := fun s hs => hv ⟨s, value_str (h.trans (by rw [hs]; rfl))⟩
    rw [hother v (fun s hs => hv ⟨s, hs⟩), hother w hw]

/-- Dicts are alike when the lowering can tell neither their members, nor what
they are as operator expressions or as dates. -/
theorem alike_dict {xs ys : Dict} (hsame : canonicalizeValue (.dict xs) = canonicalizeValue (.dict ys))
    (hgo : ∀ path, Agrees SameShapes (lowerOperator.go path xs) (lowerOperator.go path ys))
    (hitems : Agrees SameShapes (lowerFolded xs) (lowerFolded ys)) (hlen : xs.length = ys.length)
    (hany : xs.any (fun kv => isOperatorKey kv.1) = ys.any (fun kv => isOperatorKey kv.1))
    (hsole : soleDate (.dict xs) = none ∧ soleDate (.dict ys) = none ∨
      ∃ v w, soleDate (.dict xs) = some v ∧ soleDate (.dict ys) = some w ∧
        canonicalizeValue v = canonicalizeValue w) : (Val.dict xs).Alike (.dict ys) := by
  have hatom : SameAtom (.val (.dict xs)) (.val (.dict ys)) := ⟨hsame, rfl⟩
  have hscalar : Agrees SameAtom (lowerScalarOperand (.dict xs)) (lowerScalarOperand (.dict ys)) := by
    unfold lowerScalarOperand
    rcases hsole with ⟨hx, hy⟩ | ⟨v, w, hx, hy, hvw⟩
    · rw [hx, hy]
      exact hatom
    · rw [hx, hy]
      simp only
      rw [dateOf_same hvw]
      exact Agrees.refl SameAtom.refl _
  refine ⟨hsame, rfl, hscalar, fun path name => ?_, fun path => ?_, hitems⟩
  · unfold lowerOperator
    cases Op.ofKey name with
    | none => trivial
    | some op =>
      cases op with
      | not => exact (hgo path).map (fun _ _ hs => negate_shape hs)
      | in_ | nin => trivial
      | exists_ => exact clause_atom hatom path _
      | _ => exact hscalar.map (fun _ _ hab => clause_atom hab path _)
  · rw [lowerMetadataPredicate, lowerMetadataPredicate]
    have hemp : xs.isEmpty = ys.isEmpty := by
      cases xs <;> cases ys
      · rfl
      · cases hlen
      · cases hlen
      · rfl
    rw [hemp, hany]
    split_ifs
    · exact SameShapes.refl _
    · rcases hsole with ⟨hx, hy⟩ | ⟨v, w, hx, hy, hvw⟩
      · rw [hx, hy]
        exact hgo path
      · rw [hx, hy]
        simp only
        rw [dateOf_same hvw]
        exact Agrees.refl SameShapes.refl _
    · exact SameShapes.single (clause_atom hatom path _)

theorem folded_perm {xs ys : Dict} (h : xs.Perm ys) :
    Agrees SameShapes (lowerFolded xs) (lowerFolded ys) := by
  induction h with
  | nil => exact SameShapes.refl []
  | cons kv _ ih =>
    obtain ⟨k, v⟩ := kv
    refine Agrees.bind (Agrees.refl (R := Eq) (fun _ => rfl) _) (fun a b hab => ?_)
    subst hab
    refine ih.bind (fun as bs hs => ?_)
    have happ := List.Perm.append_left (a.map shape) hs
    rw [← List.map_append, ← List.map_append] at happ
    exact happ
  | swap p q zs =>
    obtain ⟨k, v⟩ := p
    obtain ⟨l, w⟩ := q
    simp only [lowerFolded]
    cases lowerMetadataPredicate (splitDots k) v <;> cases lowerMetadataPredicate (splitDots l) w <;>
      cases lowerFolded zs
    any_goals trivial
    rename_i as bs cs
    refine List.Perm.map shape ?_
    have hswap : (bs++as).Perm (as++bs) := List.perm_append_comm
    simpa using hswap.append_right cs
  | trans _ _ ih ih' => exact ih.trans (fun _ _ _ hab hbc => hab.trans hbc) ih'

theorem folded_members {xs ys : Dict}
    (h : List.Forall₂ (fun p q => p.1 = q.1 ∧ p.2.Alike q.2) xs ys) :
    Agrees SameShapes (lowerFolded xs) (lowerFolded ys) := by
  induction h with
  | nil => exact SameShapes.refl []
  | @cons p q xs ys hpq _ ih =>
    obtain ⟨k, v⟩ := p
    obtain ⟨l, w⟩ := q
    obtain ⟨rfl, hvw⟩ := hpq
    refine Agrees.bind (hvw.predicate (splitDots k)) (fun as bs has => ih.bind (fun cs ds hcs => ?_))
    have happ := List.Perm.append has hcs
    rw [← List.map_append, ← List.map_append] at happ
    exact happ

theorem alike_keys {xs ys : Dict} (hx : (keys xs).Nodup) (h : xs.Perm ys) :
    (Val.dict xs).Alike (.dict ys) := by
  have hsame : canonicalizeValue (.dict xs) = canonicalizeValue (.dict ys) := by
    rw [canonicalizeValue_dict, canonicalizeValue_dict]
    refine congrArg Json.obj (sortOn_congr (h.map _) (fun p hp q hq hpq => ?_))
    have hnodup : ((canonicalizeMembers xs).map Prod.fst).Nodup := by rwa [members_keys]
    exact List.inj_on_of_nodup_map hnodup hp hq hpq
  have hone : xs = ys ∨ ∀ kv : PyStr × Val, xs ≠ [kv] ∧ ys ≠ [kv] := by
    by_cases hl : xs.length = 1
    · obtain ⟨kv, rfl⟩ := List.length_eq_one_iff.mp hl
      exact .inl (List.perm_singleton.mp h.symm).symm
    · exact .inr (fun kv => ⟨fun he => hl (by rw [he]; rfl),
        fun he => hl (by rw [h.length_eq, he]; rfl)⟩)
  have hnone : ∀ zs : Dict, (∀ kv : PyStr × Val, zs ≠ [kv]) → soleDate (.dict zs) = none := by
    intro zs hz
    unfold soleDate
    split
    · rename_i he
      cases he
      exact absurd rfl (hz _)
    · rfl
  rcases hone with rfl | hone
  · exact .refl _
  refine alike_dict hsame (fun path => ?_) (folded_perm h) h.length_eq ?_
    (.inl ⟨hnone xs (fun kv => (hone kv).1), hnone ys (fun kv => (hone kv).2)⟩)
  · clear hsame hone hx
    induction h with
    | nil => exact SameShapes.refl []
    | cons kv _ ih =>
      obtain ⟨k, v⟩ := kv
      refine Agrees.bind (Agrees.refl (R := Eq) (fun _ => rfl) _) (fun a b hab => ?_)
      subst hab
      exact ih.bind (fun as bs hs => (List.Perm.cons _ hs : SameShapes (a::as) (a::bs)))
    | swap p q zs =>
      obtain ⟨k, v⟩ := p
      obtain ⟨l, w⟩ := q
      simp only [lowerOperator.go]
      cases lowerOperator path k v <;> cases lowerOperator path l w <;> cases lowerOperator.go path zs
      any_goals trivial
      exact List.Perm.map shape (List.Perm.swap _ _ _)
    | trans _ _ ih ih' => exact ih.trans (fun _ _ _ hab hbc => hab.trans hbc) ih'
  · rw [Bool.eq_iff_iff, List.any_eq_true, List.any_eq_true]
    exact exists_congr (fun kv => and_congr_left (fun _ => h.mem_iff))

theorem alike_members {xs ys : Dict}
    (h : List.Forall₂ (fun p q => p.1 = q.1 ∧ p.2.Alike q.2) xs ys) : (Val.dict xs).Alike (.dict ys) := by
  have hmembers : canonicalizeMembers xs = canonicalizeMembers ys :=
    map_eq_of_forall₂ (h.imp (fun p q hpq => by rw [hpq.1, hpq.2.same]))
  have hsame : canonicalizeValue (.dict xs) = canonicalizeValue (.dict ys) := by
    rw [canonicalizeValue_dict, canonicalizeValue_dict, hmembers]
  refine alike_dict hsame (fun path => ?_) (folded_members h) h.length_eq ?_ ?_
  · clear hsame hmembers
    induction h with
    | nil => exact SameShapes.refl []
    | @cons p q xs ys hpq _ ih =>
      obtain ⟨k, v⟩ := p
      obtain ⟨l, w⟩ := q
      obtain ⟨rfl, hvw⟩ := hpq
      refine Agrees.bind (hvw.operator path k) (fun a b hab => ih.bind (fun as bs hs => ?_))
      exact (by simpa [SameShapes, hab] using hs : SameShapes (a::as) (b::bs))
  · clear hsame hmembers
    induction h with
    | nil => rfl
    | cons hpq _ ih => rw [List.any_cons, List.any_cons, hpq.1, ih]
  · rcases h with _ | ⟨hpq, _ | _⟩
    · exact .inl ⟨rfl, rfl⟩
    · rename_i p q
      obtain ⟨k, v⟩ := p
      obtain ⟨l, w⟩ := q
      obtain ⟨rfl, hvw⟩ := hpq
      by_cases hk : k = py "$date"
      · exact .inr ⟨v, w, if_pos hk, if_pos hk, hvw.same⟩
      · exact .inl ⟨if_neg hk, if_neg hk⟩
    · exact .inl ⟨rfl, rfl⟩

theorem forall₂_middle {α : Type} {R : α → α → Prop} (hR : ∀ a, R a a) (xs ys : List α) {a b : α}
    (h : R a b) : List.Forall₂ R (xs++a::ys) (xs++b::ys) := by
  have hsame : ∀ l : List α, List.Forall₂ R l l := fun l => List.forall₂_same.mpr (fun x _ => hR x)
  induction xs with
  | nil => exact .cons h (hsame ys)
  | cons x xs ih => exact .cons (hR x) ih

/-- The lowering cannot tell the order of keys. -/
theorem Val.Reordered.alike {v w : Val} (h : v.Reordered w) : v.Alike w := by
  induction h with
  | refl v => exact .refl v
  | symm _ ih => exact ih.symm
  | trans _ _ ih ih' => exact ih.trans ih'
  | keys hx h => exact alike_keys hx h
  | element xs ys _ ih => exact alike_list (forall₂_middle Alike.refl xs ys ih)
  | member xs ys k _ ih =>
    exact alike_members (forall₂_middle (fun _ => ⟨rfl, .refl _⟩) xs ys ⟨rfl, ih⟩)

def nested (op : Connective) (fs : List RecallFilter) : RecallFilter :=
  .mk ⟨fun _ => none, fun _ => none⟩ none [] (if op = .and then some fs else none)
    (if op = .or then some fs else none) none none

/-- The documents under an operator are rearranged. A document is rearranged
when it is alone under a conjunction. -/
inductive Rearranged : Connective → List RecallFilter → List RecallFilter → Prop
  | refl (op : Connective) (fs : List RecallFilter) : Rearranged op fs fs
  | symm {op : Connective} {fs gs : List RecallFilter} (h : Rearranged op fs gs) : Rearranged op gs fs
  | trans {op : Connective} {fs gs hs : List RecallFilter} (h : Rearranged op fs gs)
      (h' : Rearranged op gs hs) : Rearranged op fs hs
  | permute {op : Connective} {fs gs : List RecallFilter} (h : fs.Perm gs) : Rearranged op fs gs
  | nest {op : Connective} (ho : op ≠ .not) (fs : List RecallFilter) : Rearranged op [nested op fs] fs
  | append {op : Connective} {fs gs fs' gs' : List RecallFilter} (h : Rearranged op fs gs)
      (h' : Rearranged op fs' gs') : Rearranged op (fs++fs') (gs++gs')
  | blob {op : Connective} {d d' : Dict} {s fo a o n t} (h : (Val.dict d).Reordered (.dict d')) :
      Rearranged op [.mk s (some d) fo a o n t] [.mk s (some d') fo a o n t]
  | folded {op : Connective} {fo fo' : Dict} {s m a o n t} (h : (Val.dict fo).Reordered (.dict fo')) :
      Rearranged op [.mk s m fo a o n t] [.mk s m fo' a o n t]
  | ands {op : Connective} {fs gs s m fo o n t} (h : Rearranged .and fs gs) :
      Rearranged op [.mk s m fo (some fs) o n t] [.mk s m fo (some gs) o n t]
  | ors {op : Connective} {fs gs s m fo a n t} (h : Rearranged .or fs gs) :
      Rearranged op [.mk s m fo a (some fs) n t] [.mk s m fo a (some gs) n t]
  | nors {op : Connective} {fs gs s m fo a o t} (h : Rearranged .or fs gs) :
      Rearranged op [.mk s m fo a o (some fs) t] [.mk s m fo a o (some gs) t]
  | inner {op : Connective} {f g s m fo a o n} (h : Rearranged .and [f] [g]) :
      Rearranged op [.mk s m fo a o n (some f)] [.mk s m fo a o n (some g)]

def SameParts (op : Connective) (as bs : List Ast) : Prop := parts op as = parts op bs

def SameNegations (as bs : List Ast) : Prop :=
  SameParts .and (as.map (fun a => .node .not [a])) (bs.map (fun a => .node .not [a]))

theorem SameShapes.parts {as bs : List Ast} (h : SameShapes as bs) (op : Connective) :
    SameParts op as bs := parts_of_shapes h

theorem all_append (fs gs : List RecallFilter) : RecallFilter.parseToAst.all (fs++gs) =
    (do
      let as ← RecallFilter.parseToAst.all fs
      let bs ← RecallFilter.parseToAst.all gs
      return as++bs) := by
  induction fs with
  | nil =>
    simp only [List.nil_append, RecallFilter.parseToAst.all]
    cases RecallFilter.parseToAst.all gs <;> rfl
  | cons f fs ih =>
    simp only [List.cons_append, RecallFilter.parseToAst.all, ih]
    cases f.parseToAst <;> cases RecallFilter.parseToAst.all fs <;>
      cases RecallFilter.parseToAst.all gs <;> rfl

/-- What is left to show of two documents when the parts are alike. -/
theorem parse_agrees {s : SystemFields} {m m' : Option Dict} {fo fo' : Dict}
    {a a' o o' n n' : Option (List RecallFilter)} {t t' : Option RecallFilter}
    (hm : SameParts .and (lowerBlob m) (lowerBlob m'))
    (hf : Agrees (SameParts .and) (lowerFolded fo) (lowerFolded fo'))
    (ha : Agrees (SameParts .and) (RecallFilter.parseToAst.branches .and a)
      (RecallFilter.parseToAst.branches .and a'))
    (ho : Agrees (SameParts .and) (RecallFilter.parseToAst.branches .or o)
      (RecallFilter.parseToAst.branches .or o'))
    (hn : Agrees SameNegations (RecallFilter.parseToAst.branches .or n)
      (RecallFilter.parseToAst.branches .or n'))
    (ht : Agrees (SameParts .and) (RecallFilter.parseToAst.inner t)
      (RecallFilter.parseToAst.inner t')) :
    Agrees (fun a b => shape a = shape b) (RecallFilter.mk s m fo a o n t).parseToAst
      (RecallFilter.mk s m' fo' a' o' n' t').parseToAst := by
  rw [RecallFilter.parseToAst, RecallFilter.parseToAst]
  refine Agrees.bind (Agrees.refl (R := Eq) (fun _ => rfl) _) ?_
  rintro keys _ rfl
  refine hf.bind (fun _ _ hf => ha.bind (fun _ _ ha => ho.bind (fun _ _ ho => hn.bind
    (fun _ _ hn => ht.bind (fun _ _ ht => ?_)))))
  refine normalize_parts (show Connective.and ≠ .not from fun he => nomatch he) ?_
  simp only [SameParts, SameNegations] at hm hf ha ho hn ht
  simp only [parts_append, hm, hf, ha, ho, hn, ht]

theorem parts_single {op : Connective} {a b : Ast} (h : shape a = shape b) : SameParts op [a] [b] :=
  (SameShapes.single h).parts op

theorem parts_normalized {op : Connective} {a b : Ast} (h : shape (normalize a) = shape (normalize b)) :
    SameParts op [a] [b] :=
  parts_congr (.cons h .nil)

theorem nested_parse {op : Connective} (ho : op ≠ .not) (fs : List RecallFilter) :
    (nested op fs).parseToAst = (RecallFilter.parseToAst.all fs).map
      (fun as => normalize (.node .and [.node op as])) := by
  have hsys : lowerSystem ⟨fun _ => none, fun _ => none⟩ SystemKey.all = .ok [] := rfl
  cases op with
  | not => exact absurd rfl ho
  | and | or =>
    simp only [nested, RecallFilter.parseToAst, hsys, if_true, reduceCtorEq, if_false,
      RecallFilter.parseToAst.branches, RecallFilter.parseToAst.inner]
    cases RecallFilter.parseToAst.all fs <;> rfl

theorem parse_normalized {f : RecallFilter} {a : Ast} (h : f.parseToAst = .ok a) :
    ∃ as, a = normalize (.node .and as) := by
  obtain ⟨s, m, fo, as, o, n, t⟩ := f
  obtain ⟨_, _, h⟩ := bind_ok.mp h
  obtain ⟨_, _, h⟩ := bind_ok.mp h
  obtain ⟨_, _, h⟩ := bind_ok.mp h
  obtain ⟨_, _, h⟩ := bind_ok.mp h
  obtain ⟨_, _, h⟩ := bind_ok.mp h
  obtain ⟨_, _, h⟩ := bind_ok.mp h
  cases h
  exact ⟨_, rfl⟩

theorem parse_node {f : RecallFilter} {a : Ast} (h : f.parseToAst = .ok a) :
    ∃ op gs, a = .node op gs := by
  obtain ⟨as, rfl⟩ := parse_normalized h
  exact normalize_root _ _

theorem parse_settled {f : RecallFilter} {a : Ast} (h : f.parseToAst = .ok a) : Settled a := by
  obtain ⟨as, rfl⟩ := parse_normalized h
  exact normalize_settled _

theorem all_nodes {fs : List RecallFilter} {as : List Ast}
    (h : RecallFilter.parseToAst.all fs = .ok as) : ∀ a ∈ as, ∃ op gs, a = .node op gs := by
  induction fs generalizing as with
  | nil =>
    cases h
    exact fun a ha => absurd ha List.not_mem_nil
  | cons f fs ih =>
    obtain ⟨a, ha, h⟩ := bind_ok.mp h
    obtain ⟨bs, hb, h⟩ := bind_ok.mp h
    cases h
    intro b hbm
    rcases List.mem_cons.mp hbm with rfl | hbm
    · exact parse_node ha
    · exact ih hb b hbm

theorem all_perm {op : Connective} {fs gs : List RecallFilter} (h : fs.Perm gs) :
    Agrees (SameParts op) (RecallFilter.parseToAst.all fs) (RecallFilter.parseToAst.all gs) := by
  suffices hperm : Agrees List.Perm (RecallFilter.parseToAst.all fs) (RecallFilter.parseToAst.all gs) by
    exact hperm.mono (fun _ _ => parts_perm)
  induction h with
  | nil => exact List.Perm.refl []
  | cons f _ ih =>
    refine Agrees.bind (Agrees.refl (R := Eq) (fun _ => rfl) _) (fun a b hab => ?_)
    subst hab
    exact ih.bind (fun as bs hs => List.Perm.cons a hs)
  | swap f g fs =>
    simp only [RecallFilter.parseToAst.all]
    cases f.parseToAst <;> cases g.parseToAst <;> cases RecallFilter.parseToAst.all fs
    any_goals trivial
    exact List.Perm.swap _ _ _
  | trans _ _ ih ih' => exact ih.trans (fun _ _ _ hab hbc => hab.trans hbc) ih'

theorem all_single {op : Connective} {f g : RecallFilter}
    (h : Agrees (fun a b => shape a = shape b) f.parseToAst g.parseToAst) :
    Agrees (SameParts op) (RecallFilter.parseToAst.all [f]) (RecallFilter.parseToAst.all [g]) := by
  refine h.bind (fun a b hab => ?_)
  exact parts_single hab

/-- The tree of a document is what remains of its siblings in a conjunction. -/
theorem parse_shape {f g : RecallFilter} (h : Agrees (SameParts .and)
      (RecallFilter.parseToAst.all [f]) (RecallFilter.parseToAst.all [g])) :
    Agrees (fun a b => shape a = shape b) f.parseToAst g.parseToAst := by
  have hone : ∀ f : RecallFilter, RecallFilter.parseToAst.all [f] = f.parseToAst.map (fun a => [a]) :=
    fun f => by
      simp only [RecallFilter.parseToAst.all]
      cases f.parseToAst <;> rfl
  have hself : ∀ f a, RecallFilter.parseToAst f = .ok a → normalize (.node .and [a]) = a := by
    intro f a ha
    obtain ⟨op, fs, rfl⟩ := parse_node ha
    have hset := parse_settled ha
    rw [normalize_node (show Connective.and ≠ .not from fun he => nomatch he), List.map_singleton,
      List.flatMap_singleton, normalize_of_settled _ hset, collapsed_self hset]
  rw [hone, hone] at h
  cases hf : f.parseToAst <;> cases hg : g.parseToAst
  all_goals rw [hf, hg] at h
  · trivial
  · exact h
  · exact h
  · rename_i a b
    have hab := normalize_parts (show Connective.and ≠ .not from fun he => nomatch he)
      (show parts .and [a] = parts .and [b] from h)
    rw [hself f a hf, hself g b hg] at hab
    exact hab

/-- Documents that are rearranged add the same siblings to a node around
them. -/
theorem rearranged_parts {op : Connective} {fs gs : List RecallFilter} (h : Rearranged op fs gs) :
    Agrees (SameParts op) (RecallFilter.parseToAst.all fs) (RecallFilter.parseToAst.all gs) := by
  have hsame : ∀ (op : Connective) (x : Except PyError (List Ast)), Agrees (SameParts op) x x :=
    fun op x => Agrees.refl (R := SameParts op) (fun _ => rfl) x
  have hnors : ∀ x : Except PyError (List Ast), Agrees SameNegations x x :=
    fun x => Agrees.refl (R := SameNegations) (fun _ => rfl) x
  have hand : Connective.and ≠ .not := fun he => nomatch he
  have hor : Connective.or ≠ .not := fun he => nomatch he
  induction h with
  | refl op fs => exact hsame op _
  | symm _ ih => exact ih.symm (fun _ _ hab => Eq.symm hab)
  | @trans op _ _ _ _ _ ih ih' =>
    exact Agrees.trans (R := SameParts op) (fun _ _ _ hab hbc => Eq.trans hab hbc) ih ih'
  | permute h => exact all_perm h
  | @nest op ho fs =>
    simp only [RecallFilter.parseToAst.all, nested_parse ho]
    cases has : RecallFilter.parseToAst.all fs with
    | error e => trivial
    | ok as => exact parts_nested ho as (all_nodes has)
  | append _ _ ih ih' =>
    rw [all_append, all_append]
    refine ih.bind (fun as bs hs => ih'.bind (fun cs ds hs' => ?_))
    simp only [SameParts] at hs hs'
    exact (by rw [parts_append, parts_append, hs, hs'] : parts _ (as++cs) = parts _ (bs++ds))
  | blob h =>
    refine all_single (parse_agrees ?_ (hsame _ _) (hsame _ _) (hsame _ _) (hnors _) (hsame _ _))
    exact parts_single (clause_atom h.alike.atom _ _)
  | folded h =>
    refine all_single (parse_agrees rfl ?_ (hsame _ _) (hsame _ _) (hnors _) (hsame _ _))
    exact h.alike.items.mono (fun _ _ hs => hs.parts .and)
  | ands _ ih =>
    refine all_single (parse_agrees rfl (hsame _ _) ?_ (hsame _ _) (hnors _) (hsame _ _))
    exact ih.map (fun _ _ hs => parts_normalized (normalize_parts hand hs))
  | ors _ ih =>
    refine all_single (parse_agrees rfl (hsame _ _) (hsame _ _) ?_ (hnors _) (hsame _ _))
    exact ih.map (fun _ _ hs => parts_normalized (normalize_parts hor hs))
  | nors _ ih =>
    refine all_single (parse_agrees rfl (hsame _ _) (hsame _ _) (hsame _ _) ?_ (hsame _ _))
    refine ih.map (fun as bs hs => parts_normalized ?_)
    rw [normalize_not, normalize_not]
    exact shape_not (normalize_parts hor hs)
  | inner _ ih =>
    refine all_single (parse_agrees rfl (hsame _ _) (hsame _ _) (hsame _ _) (hnors _) ?_)
    refine (parse_shape ih).map (fun a b hab => parts_normalized ?_)
    rw [normalize_not, normalize_not]
    exact shape_not (normalize_shape a b hab)

/-- A rearranged document is lowered exactly when the document is, to a tree
of the same shape. -/
theorem rearranged_shape {f g : RecallFilter} (h : Rearranged .and [f] [g]) :
    Agrees (fun a b => shape a = shape b) f.parseToAst g.parseToAst :=
  parse_shape (rearranged_parts h)

end Uru.Filter
