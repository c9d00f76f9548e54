import Uru.Filter.Oracle

/-!
# What a document means

The meaning of a filter document on a record, read off the document itself.
A field is what the record holds at the path of a predicate. Siblings hold
together, a bare value is an equality, a bare list an equality of arrays, a
null matches null and missing, and a field-level `$not` denies the conjunction
of the operators in it. The comparisons of values are those of the oracle.
-/

set_option autoImplicit false

namespace Uru.Filter

open Uru.Lib

inductive Field
  | system (stored : Val)
  | node (n : Option Val)
  | blob (d : Dict)
  | unknown

def fieldAt (r : Record) (path : List PyStr) : Field :=
  match pathKind path with
  | .system k => .system (r.system k)
  | .metadata [] => .blob r.metadata
  | .metadata segs => .node (mdDig r.metadata segs)
  | .unknown => .unknown

/-- A literal operand, with a `$date` read as its instant. A `$date` without
an instant equals nothing; no lowered filter has one. -/
def literal (v : Val) : Atom :=
  match soleDate v with
  | some (.str s) => (((fromisoformat s).bind DateTime.toUtc).map Atom.date).getD (.val v)
  | _ => .val v

def Field.equals (fld : Field) (a : Atom) : Option Bool :=
  match fld, a with
  | .system s, .val .null => some s.isNull
  | .system s, a => systemEq s a.value
  | .node n, .val .null => some (mdIsNull n)
  | .node n, a => mdEq n (.atom a)
  | .blob d, a => some (jsonEq (jsonable (.dict d)) a.jsonable)
  | .unknown, _ => some true

def Field.differs (fld : Field) (a : Atom) : Option Bool :=
  match fld with
  | .blob _ | .unknown => some true
  | fld => (fld.equals a).map (fun b => !b)

def Field.isArray (fld : Field) (xs : List Val) : Option Bool :=
  match fld with
  | .system _ => some false
  | .node n => some (exactArrayEq n (xs.map jsonable))
  | .blob _ => some false
  | .unknown => some true

def Field.isOneOf (fld : Field) (as : List Atom) : Option Bool :=
  match fld with
  | .system s => systemIn s (as.map Atom.value)
  | .node n => some (as.any (fun a => mdContains n a.jsonable))
  | .blob _ | .unknown => some true

def Field.isNoneOf (fld : Field) (as : List Atom) : Option Bool :=
  match fld with
  | .blob _ | .unknown => some true
  | fld => (fld.isOneOf as).map (fun b => !b)

def Field.compares (fld : Field) (op : Op) (a : Atom) : Option Bool :=
  match fld, a with
  | .system s, .val .null => some s.isNull
  | .system s, a => systemRange op s a.value
  | .node n, .date t => mdDateCompare op n t
  | .node n, .val v => mdRangeCompare op n v
  | .blob _, _ | .unknown, _ => some true

def Field.exists_ (fld : Field) (wanted : Bool) : Option Bool :=
  match fld with
  | .system _ => some wanted
  | .node n => some (n.isSome == wanted)
  | .blob _ | .unknown => some true

def ifSet {α : Type} (test : Option α → Option Bool) : Option (Option α) → List (Option Bool)
  | none => []
  | some a => [test a]

def atomOr {α : Type} (f : α → Val) (a : Option α) : Atom := .val ((a.map f).getD .null)

def atoms {α : Type} (f : α → Val) (xs : Option (List α)) : List Atom :=
  (xs.getD []).map (fun a => .val (f a))

def StringOps.Fields.denote (fld : Field) (o : StringOps.Fields) : List (Option Bool) :=
  ifSet (fun a => fld.equals (atomOr .str a)) o.eq++
    ifSet (fun a => fld.differs (atomOr .str a)) o.ne++
    ifSet (fun xs => fld.isOneOf (atoms .str xs)) o.in_++
    ifSet (fun xs => fld.isNoneOf (atoms .str xs)) o.nin++
    ifSet (fun b => fld.exists_ (b.getD false)) o.exists_

def DateOps.Fields.denote (fld : Field) (o : DateOps.Fields) : List (Option Bool) :=
  ifSet (fun a => fld.equals (atomOr UtcTime.val a)) o.eq++
    ifSet (fun a => fld.differs (atomOr UtcTime.val a)) o.ne++
    ifSet (fun a => fld.compares .gt (atomOr UtcTime.val a)) o.gt++
    ifSet (fun a => fld.compares .gte (atomOr UtcTime.val a)) o.gte++
    ifSet (fun a => fld.compares .lt (atomOr UtcTime.val a)) o.lt++
    ifSet (fun a => fld.compares .lte (atomOr UtcTime.val a)) o.lte++
    ifSet (fun xs => fld.isOneOf (atoms UtcTime.val xs)) o.in_++
    ifSet (fun xs => fld.isNoneOf (atoms UtcTime.val xs)) o.nin

def denied (tests : List (Option Bool)) : Option Bool := (Formula.allOf tests).map (fun b => !b)

/-- All the tests of a submodel. A null `$not` denies nothing at all, which no
record satisfies; no lowered filter has one. -/
def Ops.denote {F : Type} (tests : F → List (Option Bool)) : Ops F → List (Option Bool)
  | .plain f => tests f
  | .notNull f => tests f++[denied []]
  | .notOps f inner => tests f++[denied (inner.denote tests)]

def DateSpec.denote (fld : Field) : DateSpec → List (Option Bool)
  | .null => [fld.equals (.val .null)]
  | .scalar t => [fld.equals (.val t.val)]
  | .ops o => o.denote (DateOps.Fields.denote fld)

def StringSpec.denote (fld : Field) : StringSpec → List (Option Bool)
  | .null => [fld.equals (.val .null)]
  | .scalar s => [fld.equals (.val (.str s))]
  | .list xs => [fld.isArray (xs.map .str)]
  | .ops o => o.denote (StringOps.Fields.denote fld)

def SystemFields.denote (fields : SystemFields) (r : Record) : SystemKey → List (Option Bool)
  | .date k => ((fields.dates k).map (DateSpec.denote (fieldAt r [(SystemKey.date k).name]))).getD []
  | .text k => ((fields.strings k).map (StringSpec.denote (fieldAt r [(SystemKey.text k).name]))).getD []

def elements : Val → List Val
  | .list xs => xs
  | _ => []

def denoteOperator (fld : Field) (key : PyStr) (operand : Val) : Option Bool :=
  match Op.ofKey key, operand with
  | some .not, .dict kvs => denied (go kvs)
  | some .eq, v => fld.equals (literal v)
  | some .ne, v => fld.differs (literal v)
  | some .in_, v => fld.isOneOf ((elements v).map literal)
  | some .nin, v => fld.isNoneOf ((elements v).map literal)
  | some .exists_, v => fld.exists_ v.truthy
  | some op, v => fld.compares op (literal v)
  | none, _ => some true
where
  go : Dict → List (Option Bool)
    | [] => []
    | (k,v)::kvs => denoteOperator fld k v::go kvs

def denotePredicate (fld : Field) : Val → List (Option Bool)
  | .list xs => [fld.isArray xs]
  | .dict kvs =>
    if kvs.any (fun kv => isOperatorKey kv.1) && (soleDate (.dict kvs)).isNone then
      denoteOperator.go fld kvs
    else [fld.equals (literal (.dict kvs))]
  | v => [fld.equals (.val v)]

def denoteBlob (r : Record) : Option Dict → List (Option Bool)
  | none => []
  | some d => [some (jsonEq (jsonable (.dict r.metadata)) (jsonable (.dict d)))]

def denoteFolded (r : Record) (folded : Dict) : List (Option Bool) :=
  folded.flatMap (fun kv => denotePredicate (fieldAt r (splitDots kv.1)) kv.2)

def RecallFilter.denote : RecallFilter → Record → Option Bool
  | .mk system metadata folded and_ or_ nor_ not_, r =>
    Formula.allOf (SystemKey.all.flatMap (system.denote r)++denoteBlob r metadata++
      denoteFolded r folded++branches Formula.allOf and_ r++branches Formula.anyOf or_ r++
      branches (fun xs => (Formula.anyOf xs).map (fun b => !b)) nor_ r++inner not_ r)
where
  branches (join : List (Option Bool) → Option Bool) :
      Option (List RecallFilter) → Record → List (Option Bool)
    | none, _ => []
    | some fs, r => [join (all fs r)]
  all : List RecallFilter → Record → List (Option Bool)
    | [], _ => []
    | f::fs, r => RecallFilter.denote f r::all fs r
  inner : Option RecallFilter → Record → List (Option Bool)
    | none, _ => []
    | some f, r => [(RecallFilter.denote f r).map (fun b => !b)]

end Uru.Filter
