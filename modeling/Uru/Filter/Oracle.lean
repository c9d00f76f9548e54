import Uru.Filter.Ast

/-!
# The in-memory oracle

`compile_python`, the predicate that every store re-checks its rows with. It
walks the tree from left to right and stops as soon as the answer is known. A
comparison that Python refuses, and a stored datetime without an instant in
UTC, raise; the answer is `none` then. A record is given by what the compiler
resolves on it: a value for each system key, null when there is none, and the
metadata dict, empty when there is none. A path that is neither a system key
nor a metadata path does not narrow the records, as in the split mode that
the stores use.
-/

set_option autoImplicit false

namespace Uru.Filter

open Uru.Lib

structure Record where
  system : SystemKey → Val
  metadata : Dict

inductive PathKind
  | system (k : SystemKey)
  | metadata (segs : List PyStr)
  | unknown
deriving DecidableEq

def pathKind (path : List PyStr) : PathKind :=
  match path with
  | [] => .unknown
  | [s] =>
    match SystemKey.ofName s with
    | some k => .system k
    | none => if s = py "metadata" then .metadata [] else .unknown
  | s::segs => if s = py "metadata" then .metadata segs else .unknown

def Val.isNull : Val → Bool
  | .null => true
  | _ => false

def Val.truthy : Val → Bool
  | .null => false
  | .bool b => b
  | .int i => i ≠ 0
  | .float f => f.value ≠ .fin 0
  | .str s => s ≠ []
  | .datetime _ => true
  | .list xs => !xs.isEmpty
  | .dict kvs => !kvs.isEmpty

def Operand.truthy : Operand → Bool
  | .atom (.val v) => v.truthy
  | .atom (.date _) => true
  | .tuple xs => !xs.isEmpty

def Val.number : Val → Option NumValue
  | .bool b => some (.fin (if b then 1 else 0))
  | .int i => some (.fin i)
  | .float f => some f.value
  | _ => none

def DateTime.instant (d : DateTime) (o : Offset) : ℤ := d.clock.civil.toMicros-o.micros

/-- Datetimes with the same offset are compared by their fields, others by
their instants. A naive datetime equals no aware one. -/
def DateTime.pyEq (a b : DateTime) : Bool :=
  if a.offset = b.offset then a.clock = b.clock
  else
    match a.offset, b.offset with
    | some o, some p => a.instant o = b.instant p
    | _, _ => false

def pyEq (a b : Val) : Bool :=
  match a, b with
  | .null, .null => true
  | .str s, .str t => s = t
  | .datetime d, .datetime e => d.pyEq e
  | .list xs, .list ys => goList xs ys
  | .dict xs, .dict ys => xs.length = ys.length && goDict xs ys
  | a, b =>
    match a.number, b.number with
    | some m, some n => m.eq n
    | _, _ => false
where
  goList : List Val → List Val → Bool
    | [], [] => true
    | x::xs, y::ys => pyEq x y && goList xs ys
    | _, _ => false
  goDict : Dict → Dict → Bool
    | [], _ => true
    | (k,x)::xs, ys =>
      (match ys.lookup k with
        | some y => pyEq x y
        | none => false) && goDict xs ys

example : pyEq (.list [.null]) (.list []) = false := by simp [pyEq, pyEq.goList]

/-- The answer of an order comparison for operands that are less, equal or
greater. -/
def Op.holds (op : Op) (lt eq gt : Bool) : Option Bool :=
  match op with
  | .gt => some gt
  | .gte => some (gt || eq)
  | .lt => some lt
  | .lte => some (lt || eq)
  | _ => none

/-- `>`, `>=`, `<` and `<=` on values; `none` where Python raises `TypeError`. -/
def pyCompare (op : Op) (a b : Val) : Option Bool :=
  match a, b with
  | .str s, .str t => op.holds (s < t) (s = t) (t < s)
  | .datetime d, .datetime e =>
    if d.offset = e.offset then
      op.holds (d.clock.fields < e.clock.fields) (d.clock = e.clock) (e.clock.fields < d.clock.fields)
    else
      match d.offset, e.offset with
      | some o, some p =>
        op.holds (d.instant o < e.instant p) (d.instant o = e.instant p) (e.instant p < d.instant o)
      | _, _ => none
  | .list xs, .list ys => goList op xs ys
  | a, b =>
    match a.number, b.number with
    | some m, some n => op.holds (m.lt n) (m.eq n) (n.lt m)
    | _, _ => none
where
  goList (op : Op) : List Val → List Val → Option Bool
    | [], [] => op.holds false true false
    | [], _::_ => op.holds true false false
    | _::_, [] => op.holds false false true
    | x::xs, y::ys => if pyEq x y then goList op xs ys else pyCompare op x y

example : pyCompare .gt (.list [.null]) (.list []) = some true := by
  simp [pyCompare, pyCompare.goList, Op.holds]

def Val.sameType : Val → Val → Bool
  | .null, .null | .bool _, .bool _ | .int _, .int _ | .float _, .float _ | .str _, .str _
  | .datetime _, .datetime _ | .list _, .list _ | .dict _, .dict _ => true
  | _, _ => false

def Val.isNumber : Val → Bool
  | .int _ | .float _ => true
  | _ => false

def comparable (stored operand : Val) : Bool :=
  if operand.isNumber then stored.isNumber else stored.sameType operand

/-- `==` or an order comparison after `_align_dt`, which brings a pair of
datetimes to UTC and raises where one of them has no instant there. -/
def aligned (compare : Val → Val → Option Bool) : Val → Val → Option Bool
  | .datetime d, .datetime e => do
    let u ← d.toUtc
    let v ← e.toUtc
    compare (.datetime u.aware) (.datetime v.aware)
  | a, b => compare a b

def eqAligned : Val → Val → Option Bool := aligned (fun a b => some (pyEq a b))

def systemEq (stored value : Val) : Option Bool :=
  if stored.isNull || !comparable stored value then some false else eqAligned stored value

def systemNe (stored value : Val) : Option Bool :=
  if stored.isNull || !comparable stored value then some true
  else (eqAligned stored value).map (fun b => !b)

def systemIn (stored : Val) (values : List Val) : Option Bool :=
  if stored.isNull then some false
  else Formula.anyOf
    (values.map (fun v => if comparable stored v then eqAligned stored v else some false))

def systemNin (stored : Val) (values : List Val) : Option Bool :=
  if stored.isNull then some true
  else (Formula.anyOf
    (values.map (fun v => if comparable stored v then eqAligned stored v else some false))).map
      (fun b => !b)

def systemRange (op : Op) (stored value : Val) : Option Bool :=
  if stored.isNull || !comparable stored value then some false
  else aligned (pyCompare op) stored value

def Atom.value : Atom → Val
  | .val v => v
  | .date t => t.val

def compileSystemClause (stored : Val) (op : Op) (operand : Operand) : Option Bool :=
  match op, operand with
  | .exists_, operand => some operand.truthy
  | .in_, .tuple xs => systemIn stored (xs.map Atom.value)
  | .nin, .tuple xs => systemNin stored (xs.map Atom.value)
  | .in_, _ | .nin, _ => none
  | .eq, .tuple _ => some false
  | .ne, .tuple _ => some true
  | op, .tuple _ => op.holds false false false
  | .ne, .atom (.val .null) => some (!stored.isNull)
  | _, .atom (.val .null) => some stored.isNull
  | .ne, .atom a => systemNe stored a.value
  | .eq, .atom a => systemEq stored a.value
  | op, .atom a => systemRange op stored a.value

example : compileSystemClause .null .eq (.val .null) = some true := by
  simp [compileSystemClause, Operand.val, Val.isNull]

/-- `_md_dig`: descend one mapping for each segment; `none` is the marker of
an absent path. -/
def mdDig : Dict → List PyStr → Option Val
  | blob, [] => some (.dict blob)
  | blob, [seg] => blob.lookup seg
  | blob, seg::segs =>
    match blob.lookup seg with
    | some (.dict blob) => mdDig blob segs
    | _ => none

def jsonable : Val → Val
  | .datetime d => .str d.isoformat
  | .list xs => .list (goList xs)
  | .dict kvs => .dict (goDict kvs)
  | v => v
where
  goList : List Val → List Val
    | [] => []
    | x::xs => jsonable x::goList xs
  goDict : Dict → Dict
    | [] => []
    | (k,x)::xs => (k,jsonable x)::goDict xs

def Atom.jsonable : Atom → Val
  | .val v => Filter.jsonable v
  | .date t => .str t.isoformat

/-- `_json_eq`: equality of JSON values, where a bool is no number. -/
def jsonEq (a b : Val) : Bool :=
  match a, b with
  | .bool a, .bool b => a = b
  | .bool _, _ | _, .bool _ => false
  | .dict xs, .dict ys => ys.all (fun y => (keys xs).contains y.1) && goDict xs ys
  | .list xs, .list ys => goList xs ys
  | a, b => pyEq a b
where
  goList : List Val → List Val → Bool
    | [], [] => true
    | x::xs, y::ys => jsonEq x y && goList xs ys
    | _, _ => false
  goDict : Dict → Dict → Bool
    | [], _ => true
    | (k,x)::xs, ys =>
      (match ys.lookup k with
        | some y => jsonEq x y
        | none => false) && goDict xs ys

def mdIsNull : Option Val → Bool
  | none => true
  | some v => v.isNull

def mdContains (node : Option Val) (target : Val) : Bool :=
  match node with
  | none => false
  | some (.list xs) => xs.any (fun x => jsonEq (jsonable x) target)
  | some v => jsonEq (jsonable v) target

def exactArrayEq (node : Option Val) (expected : List Val) : Bool :=
  match node with
  | some (.list xs) => jsonEq (jsonable (.list xs)) (.list expected)
  | _ => false

def mdObjectEq (node : Option Val) (expected : Val) : Bool :=
  match node with
  | some (.dict kvs) => jsonEq (jsonable (.dict kvs)) expected
  | _ => false

def mdRangeCompare (op : Op) (node : Option Val) (operand : Val) : Option Bool :=
  match node with
  | none => some false
  | some v => if comparable v operand then pyCompare op v operand else some false

/-- `_md_date_compare`: the stored text is parsed, and excluded when it does
not parse. -/
def mdDateCompare (op : Op) (node : Option Val) (t : UtcTime) : Option Bool :=
  match node with
  | some (.str s) =>
    match fromisoformat s with
    | none => some false
    | some d => do
      let u ← d.toUtc
      if op = .eq then some (u = t) else pyCompare op u.val t.val
  | _ => some false

def mdEq (node : Option Val) : Operand → Option Bool
  | .atom (.date t) => mdDateCompare .eq node t
  | .tuple xs => some (exactArrayEq node (xs.map Atom.jsonable))
  | .atom (.val (.dict kvs)) => some (mdObjectEq node (jsonable (.dict kvs)))
  | .atom (.val v) => some (mdContains node (jsonable v))

def Operand.jsonable : Operand → Val
  | .atom a => a.jsonable
  | .tuple xs => .list (xs.map Atom.jsonable)

def compileMetadataClause (blob : Dict) (segs : List PyStr) (op : Op) (operand : Operand) :
    Option Bool :=
  if segs = [] then
    if op = .eq then some (jsonEq (jsonable (.dict blob)) operand.jsonable) else some true
  else
    let node := mdDig blob segs
    match op, operand with
    | .exists_, operand => some (if operand.truthy then node.isSome else !node.isSome)
    | .in_, .tuple xs => some (xs.any (fun a => mdContains node a.jsonable))
    | .nin, .tuple xs => some (!xs.any (fun a => mdContains node a.jsonable))
    | .in_, _ | .nin, _ => none
    | .eq, .atom (.val .null) => some (mdIsNull node)
    | .ne, .atom (.val .null) => some (!mdIsNull node)
    | .eq, operand => mdEq node operand
    | .ne, operand => (mdEq node operand).map (fun b => !b)
    | op, .atom (.date t) => mdDateCompare op node t
    | op, .atom (.val v) => mdRangeCompare op node v
    | op, .tuple _ => op.holds false false false

def compileClause (c : FilterClause) (r : Record) : Option Bool :=
  match pathKind c.path with
  | .system k => compileSystemClause (r.system k) c.op c.operand
  | .metadata segs => compileMetadataClause r.metadata segs c.op c.operand
  | .unknown => some true

def compilePython (ast : Ast) (r : Record) : Option Bool := ast.run (fun c => compileClause c r)

end Uru.Filter
