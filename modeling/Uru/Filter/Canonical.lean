import Mathlib.Data.List.Forall2
import Uru.Lib.SortOn
import Uru.Lib.PushDown
import Uru.Filter.NumberText
import Uru.Filter.Emitted
import Uru.Filter.Oracle

/-!
# Canonical hashing

`canonical_hash` builds a JSON representation of a tree and hashes its compact
text. The siblings of a conjunction or a disjunction are sorted by their own
texts and the members of an object operand by key. Trees with the same text
accept the same records, as long as no leaf of one holds a date where a leaf
of the other holds the object that the date is written as.
-/

set_option autoImplicit false

namespace Uru.Filter

open Uru.Lib

def NumberText.num {s : PyStr} (h : NumberText s) : NumText where
  text := s
  starts := by
    obtain ⟨c, t, hs, hc⟩ := h.start
    refine ⟨c, t, hs, fun hm => ?_⟩
    have hall : [letter 'n',letter 't',letter 'f',letter '"',letter '[',letter '{'].all
        (fun c => !isNumberStart c) = true := by decide
    have hno := List.all_eq_true.mp hall c hm
    rw [hc] at hno
    cases hno
  inside := by
    intro c hc
    have hl := h.letters c hc
    rw [isNumberLetter, Bool.and_eq_true] at hl
    exact of_decide_eq_true hl.2
  plain := by
    intro c hc
    have hl := h.letters c hc
    rw [isNumberLetter, Bool.and_eq_true, decide_eq_true_eq] at hl
    exact decide_eq_false (by omega)

def tagged (tag : PyStr) (text : PyStr) : Json := .obj [(tag,.str text)]

def canonicalizeValue : Val → Json
  | .null => .null
  | .bool b => .bool b
  | .int i => .num (intText_number i).num
  | .float f => .num (float_number f).num
  | .str s => .str s
  | .datetime d => tagged (py "$dt") d.isoformat
  | .list xs => .arr (goList xs)
  | .dict kvs => .obj (sortOn Prod.fst (goDict kvs))
where
  goList : List Val → List Json
    | [] => []
    | x::xs => canonicalizeValue x::goList xs
  goDict : Dict → List (PyStr × Json)
    | [] => []
    | (k,x)::xs => (k,canonicalizeValue x)::goDict xs

def Atom.canonicalize : Atom → Json
  | .val v => canonicalizeValue v
  | .date t => tagged (py "$date") t.isoformat

def canonicalizeOperand : Operand → Json
  | .atom a => a.canonicalize
  | .tuple as => .arr (as.map Atom.canonicalize)

def operandKind : Operand → PyStr
  | .tuple _ => py "tuple"
  | .atom (.val (.list _)) => py "list"
  | .atom _ => py "scalar"

def canonicalizeClause (c : FilterClause) : Json :=
  .obj [(py "k",.str (py "clause")),(py "path",.arr (c.path.map .str)),(py "op",.str c.op.key),
    (py "operand_kind",.str (operandKind c.operand)),(py "operand",canonicalizeOperand c.operand)]

def opKey : Connective → PyStr
  | .and => Op.and.key
  | .or => Op.or.key
  | .not => Op.not.key

def canonicalizeNode (op : Connective) (children : List Json) : Json :=
  .obj [(py "k",.str (py "node")),(py "op",.str (opKey op)),(py "children",.arr children)]

/-- The representation, with the children of a conjunction or a disjunction
sorted on a key. -/
def canonicalizeOn (key : Json → PyStr) : Ast → Json
  | .leaf c => canonicalizeClause c
  | .node .not fs => canonicalizeNode .not (go fs)
  | .node op fs => canonicalizeNode op (sortOn key (go fs))
where
  go : List Ast → List Json
    | [] => []
    | f::fs => canonicalizeOn key f::go fs

/-- `_canonicalize`: the key is the compact text in ASCII. -/
def canonicalize : Ast → Json := canonicalizeOn (Json.dump true)

def encoding (a : Ast) : PyStr := Json.dump false (canonicalize a)

/-- Python prints no integer of more than 4300 digits. -/
def Val.printable : Val → Bool
  | .int i => i.natAbs < 10^4300
  | .list xs => goList xs
  | .dict kvs => goDict kvs
  | _ => true
where
  goList : List Val → Bool
    | [] => true
    | x::xs => printable x && goList xs
  goDict : Dict → Bool
    | [] => true
    | (_,x)::xs => printable x && goDict xs

def Operand.printable : Operand → Bool
  | .atom (.val v) => v.printable
  | .atom (.date _) => true
  | .tuple as => as.all (fun a => match a with | .val v => v.printable | .date _ => true)

/-- `canonical_hash`, over the digest of the encoded text; `none` where
`json.dumps` or the encoding to UTF-8 raises. -/
def canonicalHash {H : Type} (sha256 : PyStr → H) (a : Ast) : Option H :=
  if a.leaves.all (fun c => c.operand.printable) && !(encoding a).any Letter.isSurrogate then
    some (sha256 (encoding a))
  else none

def isTag (tag text : PyStr) : Dict → Bool
  | [(k,.str s)] => k = tag && s = text
  | _ => false

/-- At some place, one value has a datetime where the other has the object
`{"$dt": text}` with its text. -/
def Val.confused : Val → Val → Bool
  | .datetime d, .dict kvs => isTag (py "$dt") d.isoformat kvs
  | .dict kvs, .datetime d => isTag (py "$dt") d.isoformat kvs
  | .list xs, .list ys => goList xs ys
  | .dict xs, .dict ys => goDict xs ys
  | _, _ => false
where
  goList : List Val → List Val → Bool
    | x::xs, y::ys => confused x y || goList xs ys
    | _, _ => false
  goDict : Dict → Dict → Bool
    | [], _ => false
    | (k,x)::xs, ys =>
      (match ys.lookup k with
        | some y => confused x y
        | none => false) || goDict xs ys

def Atom.confused : Atom → Atom → Bool
  | .val v, .val w => v.confused w
  | .date t, .val (.dict kvs) => isTag (py "$date") t.isoformat kvs
  | .val (.dict kvs), .date t => isTag (py "$date") t.isoformat kvs
  | _, _ => false

def Operand.confused : Operand → Operand → Bool
  | .atom a, .atom b => a.confused b
  | .tuple as, .tuple bs => (as.zip bs).any (fun p => p.1.confused p.2)
  | _, _ => false

def FilterClause.confused (c d : FilterClause) : Bool :=
  c.path = d.path && c.op = d.op && c.operand.confused d.operand

/-- No dict in the value has a key twice. -/
def Val.Unique : Val → Prop
  | .list xs => goList xs
  | .dict kvs => (keys kvs).Nodup ∧ goDict kvs
  | _ => True
where
  goList : List Val → Prop
    | [] => True
    | x::xs => Unique x ∧ goList xs
  goDict : Dict → Prop
    | [] => True
    | (_,x)::xs => Unique x ∧ goDict xs

def Atom.Unique : Atom → Prop
  | .val v => v.Unique
  | .date _ => True

def Operand.Unique : Operand → Prop
  | .atom a => a.Unique
  | .tuple as => ∀ a ∈ as, a.Unique

@[simp] theorem unique_list (xs : List Val) : (Val.list xs).Unique ↔ ∀ x ∈ xs, x.Unique := by
  rw [Val.Unique]
  induction xs with
  | nil => simp [Val.Unique.goList]
  | cons x xs ih => simp [Val.Unique.goList, ih]

@[simp] theorem unique_dict (kvs : Dict) :
    (Val.dict kvs).Unique ↔ (keys kvs).Nodup ∧ ∀ kv ∈ kvs, kv.2.Unique := by
  have h : Val.Unique.goDict kvs ↔ ∀ kv ∈ kvs, kv.2.Unique := by
    induction kvs with
    | nil => simp [Val.Unique.goDict]
    | cons kv kvs ih => simp [Val.Unique.goDict, ih]
  rw [Val.Unique, h]

@[simp] theorem canonicalizeValue_list (xs : List Val) :
    canonicalizeValue (.list xs) = .arr (xs.map canonicalizeValue) := by
  rw [canonicalizeValue]
  induction xs with
  | nil => rfl
  | cons x xs ih =>
    injection ih with ih
    rw [canonicalizeValue.goList, ih, List.map_cons]

def canonicalizeMembers (kvs : Dict) : List (PyStr × Json) :=
  kvs.map (fun kv => (kv.1,canonicalizeValue kv.2))

@[simp] theorem canonicalizeValue_dict (kvs : Dict) :
    canonicalizeValue (.dict kvs) = .obj (sortOn Prod.fst (canonicalizeMembers kvs)) := by
  have h : canonicalizeValue.goDict kvs = canonicalizeMembers kvs := by
    induction kvs with
    | nil => rfl
    | cons kv kvs ih => rw [canonicalizeValue.goDict, ih]; rfl
  rw [canonicalizeValue, h]

theorem number_text {s t : PyStr} (hs : NumberText s) (ht : NumberText t) (h : hs.num = ht.num) :
    s = t := congrArg NumText.text h

theorem value_str {v : Val} {s : PyStr} (h : canonicalizeValue v = .str s) : v = .str s := by
  cases v with
  | str t =>
    injection h with h
    rw [h]
  | list xs => rw [canonicalizeValue_list] at h; cases h
  | dict kvs => rw [canonicalizeValue_dict] at h; cases h
  | _ => cases h

/-- Only a datetime and the object with its text are written alike. -/
theorem value_tagged {v : Val} {tag text : PyStr} (h : canonicalizeValue v = tagged tag text) :
    (∃ d, v = .datetime d ∧ tag = py "$dt" ∧ text = d.isoformat) ∨
      ∃ kvs, v = .dict kvs ∧ isTag tag text kvs = true := by
  cases v with
  | datetime d =>
    injection h with h
    injection h with h _
    injection h with hk hs
    injection hs with hs
    exact .inl ⟨d, rfl, hk.symm, hs.symm⟩
  | dict kvs =>
    rw [canonicalizeValue_dict] at h
    injection h with h
    have hp := List.perm_singleton.mp ((sortOn_perm Prod.fst _).symm.trans (List.Perm.of_eq h))
    have hlen : kvs.length = 1 := by
      have := congrArg List.length hp
      rwa [canonicalizeMembers, List.length_map] at this
    obtain ⟨kv, rfl⟩ := List.length_eq_one_iff.mp hlen
    obtain ⟨k, v⟩ := kv
    injection hp with hp _
    injection hp with hk hv
    cases hk
    cases value_str hv
    exact .inr ⟨_, rfl, by simp [isTag]⟩
  | list xs => rw [canonicalizeValue_list] at h; cases h
  | _ => cases h

structure Val.Similar (v w : Val) : Prop where
  unique : v.Unique ∧ w.Unique
  same : canonicalizeValue v = canonicalizeValue w
  clear : v.confused w = false

/-- What it takes for two values to be similar, one level down. -/
inductive Val.View : Val → Val → Prop
  | refl (v : Val) : View v v
  | list {xs ys : List Val} (h : List.Forall₂ Similar xs ys) : View (.list xs) (.list ys)
  | dict {xs ys : Dict} (hkeys : (keys xs).Perm (keys ys))
      (h : Matched Similar xs ys) : View (.dict xs) (.dict ys)

theorem confused_list {xs ys : List Val} (h : Val.confused.goList xs ys = false) :
    ∀ p ∈ xs.zip ys, p.1.confused p.2 = false := by
  induction xs generalizing ys with
  | nil => simp
  | cons x xs ih =>
    cases ys with
    | nil => simp
    | cons y ys =>
      rw [Val.confused.goList, Bool.or_eq_false_iff] at h
      intro p hp
      rcases List.mem_cons.mp hp with rfl | hp
      · exact h.1
      · exact ih h.2 p hp

theorem confused_dict {xs ys : Dict} (h : Val.confused.goDict xs ys = false) :
    ∀ k x y, (k,x) ∈ xs → ys.lookup k = some y → x.confused y = false := by
  induction xs with
  | nil => simp
  | cons kv xs ih =>
    rw [Val.confused.goDict, Bool.or_eq_false_iff] at h
    intro k x y hx hy
    rcases List.mem_cons.mp hx with rfl | hx
    · have h1 := h.1
      rw [hy] at h1
      exact h1
    · exact ih h.2 k x y hx hy

theorem similar_list {xs ys : List Val} (hx : ∀ x ∈ xs, x.Unique) (hy : ∀ y ∈ ys, y.Unique)
    (hs : xs.map canonicalizeValue = ys.map canonicalizeValue)
    (hc : ∀ p ∈ xs.zip ys, p.1.confused p.2 = false) : List.Forall₂ Val.Similar xs ys := by
  induction xs generalizing ys with
  | nil =>
    cases ys with
    | nil => exact .nil
    | cons y ys => cases hs
  | cons x xs ih =>
    cases ys with
    | nil => cases hs
    | cons y ys =>
      injection hs with h hs
      exact .cons ⟨⟨hx x (by simp), hy y (by simp)⟩, h, hc (x,y) (by simp)⟩
        (ih (fun z hz => hx z (by simp [hz])) (fun z hz => hy z (by simp [hz])) hs
          (fun p hp => hc p (by simp [hp])))

theorem similar_members {xs ys : Dict} (hx : (Val.dict xs).Unique) (hy : (Val.dict ys).Unique)
    (hp : (canonicalizeMembers xs).Perm (canonicalizeMembers ys))
    (hc : Val.confused.goDict xs ys = false) : Matched Val.Similar xs ys := by
  intro k
  rw [unique_dict] at hx hy
  have hnodup : ((canonicalizeMembers xs).map Prod.fst).Nodup := by
    rw [canonicalizeMembers, List.map_map]
    exact hx.1
  have hlook : (xs.lookup k).map canonicalizeValue = (ys.lookup k).map canonicalizeValue := by
    rw [← lookup_map, ← lookup_map]
    exact lookup_perm hp hnodup k
  cases hxk : xs.lookup k with
  | none =>
    cases hyk : ys.lookup k with
    | none => exact .inl ⟨rfl, rfl⟩
    | some y =>
      rw [hxk, hyk] at hlook
      cases hlook
  | some x =>
    cases hyk : ys.lookup k with
    | none =>
      rw [hxk, hyk] at hlook
      cases hlook
    | some y =>
      rw [hxk, hyk] at hlook
      have hmx := (lookup_some hx.1).mp hxk
      have hmy := (lookup_some hy.1).mp hyk
      exact .inr ⟨x, y, rfl, rfl, ⟨hx.2 _ hmx, hy.2 _ hmy⟩, Option.some.inj hlook,
        confused_dict hc k x y hmx hyk⟩

theorem members_keys (xs : Dict) : (canonicalizeMembers xs).map Prod.fst = keys xs := by
  rw [canonicalizeMembers, List.map_map]
  rfl

theorem Val.Similar.view {v w : Val} (h : v.Similar w) : View v w := by
  obtain ⟨⟨hv, hw⟩, hs, hc⟩ := h
  cases v with
  | null =>
    cases w with
    | null => exact .refl _
    | list ys => rw [canonicalizeValue_list] at hs; cases hs
    | dict ys => rw [canonicalizeValue_dict] at hs; cases hs
    | _ => cases hs
  | bool b =>
    cases w with
    | bool c =>
      injection hs with hs
      rw [hs]
      exact .refl _
    | list ys => rw [canonicalizeValue_list] at hs; cases hs
    | dict ys => rw [canonicalizeValue_dict] at hs; cases hs
    | _ => cases hs
  | int i =>
    cases w with
    | int j =>
      injection hs with hs
      rw [intText_inj (number_text _ _ hs)]
      exact .refl _
    | float g =>
      injection hs with hs
      exact absurd (number_text _ _ hs) (intText_ne_float i g)
    | list ys => rw [canonicalizeValue_list] at hs; cases hs
    | dict ys => rw [canonicalizeValue_dict] at hs; cases hs
    | _ => cases hs
  | float f =>
    cases w with
    | float g =>
      injection hs with hs
      rw [floatText_inj (number_text _ _ hs)]
      exact .refl _
    | int j =>
      injection hs with hs
      exact absurd (number_text _ _ hs).symm (intText_ne_float j f)
    | list ys => rw [canonicalizeValue_list] at hs; cases hs
    | dict ys => rw [canonicalizeValue_dict] at hs; cases hs
    | _ => cases hs
  | str s =>
    rw [value_str hs.symm]
    exact .refl _
  | datetime d =>
    rcases value_tagged hs.symm with ⟨e, rfl, _, he⟩ | ⟨kvs, rfl, ht⟩
    · rw [DateTime.isoformat_inj he]
      exact .refl _
    · rw [Val.confused, ht] at hc
      cases hc
  | list xs =>
    cases w with
    | list ys =>
      rw [canonicalizeValue_list, canonicalizeValue_list] at hs
      injection hs with hs
      exact .list (similar_list ((unique_list xs).mp hv) ((unique_list ys).mp hw) hs (confused_list hc))
    | dict ys => rw [canonicalizeValue_list, canonicalizeValue_dict] at hs; cases hs
    | _ => rw [canonicalizeValue_list] at hs; cases hs
  | dict xs =>
    cases w with
    | dict ys =>
      rw [canonicalizeValue_dict, canonicalizeValue_dict] at hs
      injection hs with hs
      have hp := perm_of_sortOn hs
      refine .dict ?_ (similar_members hv hw hp hc)
      rw [← members_keys, ← members_keys]
      exact hp.map Prod.fst
    | datetime e =>
      rcases value_tagged hs with ⟨_, he, _⟩ | ⟨kvs, he, ht⟩
      · cases he
      · cases he
        rw [Val.confused, ht] at hc
        cases hc
    | list ys => rw [canonicalizeValue_list, canonicalizeValue_dict] at hs; cases hs
    | _ => rw [canonicalizeValue_dict] at hs; cases hs

/-- What holds of each value and itself, and carries over from the elements to
lists and from the members to dicts, holds of similar values. -/
theorem Val.Similar.ind {P : Val → Val → Prop} (refl : ∀ v, P v v)
    (list : ∀ xs ys, List.Forall₂ P xs ys → P (.list xs) (.list ys))
    (dict : ∀ xs ys : Dict, (keys xs).Perm (keys ys) → Matched P xs ys → P (.dict xs) (.dict ys))
    (v w : Val) (h : v.Similar w) : P v w := by
  induction v using Val.ind generalizing w with
  | list xs ih =>
    cases h.view with
    | refl => exact refl _
    | list hs =>
      have hboth := (List.forall₂_and_left _ _).mpr ⟨ih, hs⟩
      exact list _ _ (hboth.imp (fun x y hxy => hxy.1 y hxy.2))
  | dict xs ih =>
    cases h.view with
    | refl => exact refl _
    | dict hkeys hs => exact dict _ _ hkeys (hs.imp ih)
  | _ =>
    cases h.view
    exact refl _

end Uru.Filter
