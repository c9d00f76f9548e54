import Uru.Lib.Formula
import Uru.Filter.Model

/-!
# The canonical filter tree

A document is lowered to a tree of clauses. Every sibling predicate of a
document becomes a child of one conjunction, and the tree is then normalized:
nested nodes of the same operator are flattened, and a node around a single
logical child is dropped. Lowering fails, as the Python code does, where it
meets a null that it cannot iterate or a date that has no instant in UTC.
-/

set_option autoImplicit false

namespace Uru.Filter

open Uru.Lib

/-- An element of an ordered operand: a value, or the carrier of a `$date`
literal. -/
inductive Atom
  | val (v : Val)
  | date (t : UtcTime)

inductive Operand
  | atom (a : Atom)
  | tuple (xs : List Atom)

def Operand.val (v : Val) : Operand := .atom (.val v)

structure FilterClause where
  path : List PyStr
  op : Op
  operand : Operand

/-- `".".join(path)` -/
def pathStr : List PyStr → PyStr
  | [] => []
  | [s] => s
  | s::segs => s++point '.' ::pathStr segs

def FilterClause.key (c : FilterClause) : PyStr := pathStr c.path

structure CompiledFilter (T : Type) where
  predicate : T
  consumedKeys : List PyStr

abbrev Ast := Formula FilterClause

def clause (path : List PyStr) (op : Op) (operand : Operand) : Ast := .leaf ⟨path, op, operand⟩

inductive PyError
  | typeError | attributeError | valueError | overflowError
deriving DecidableEq

def negate : List Ast → Ast
  | [a] => .node .not [a]
  | inner => .node .not [.node .and inner]

def lowerField {α : Type} (path : List PyStr) (op : Op) (f : α → Val) :
    Option (Option α) → List Ast
  | none => []
  | some none => [clause path op (.val .null)]
  | some (some a) => [clause path op (.val (f a))]

def lowerListField {α : Type} (path : List PyStr) (op : Op) (f : α → Val) :
    Option (Option (List α)) → Except PyError (List Ast)
  | none => .ok []
  | some none => .error .typeError
  | some (some xs) => .ok [clause path op (.tuple (xs.map (fun a => .val (f a))))]

def StringOps.Fields.lower (path : List PyStr) (o : StringOps.Fields) :
    Except PyError (List Ast) := do
  let ins ← lowerListField path .in_ .str o.in_
  let nins ← lowerListField path .nin .str o.nin
  return lowerField path .eq .str o.eq++lowerField path .ne .str o.ne++ins++nins++
    lowerField path .exists_ .bool o.exists_

def UtcTime.val (t : UtcTime) : Val := .datetime t.aware

def DateOps.Fields.lower (path : List PyStr) (o : DateOps.Fields) :
    Except PyError (List Ast) := do
  let ins ← lowerListField path .in_ UtcTime.val o.in_
  let nins ← lowerListField path .nin UtcTime.val o.nin
  return lowerField path .eq UtcTime.val o.eq++lowerField path .ne UtcTime.val o.ne++
    lowerField path .gt UtcTime.val o.gt++lowerField path .gte UtcTime.val o.gte++
    lowerField path .lt UtcTime.val o.lt++lowerField path .lte UtcTime.val o.lte++ins++nins

/-- `_lower_ops_submodel`, over the fields of either submodel. A `$not` set to
null is taken for a submodel, which raises. -/
def lowerOpsSubmodel {F : Type} (lower : F → Except PyError (List Ast)) :
    Ops F → Except PyError (List Ast)
  | .plain f => lower f
  | .notNull f => do
    let _ ← lower f
    .error .attributeError
  | .notOps f inner => do
    let out ← lower f
    let inner ← lowerOpsSubmodel lower inner
    return out++[negate inner]

def DateSpec.lower (path : List PyStr) : DateSpec → Except PyError (List Ast)
  | .null => .ok [clause path .eq (.val .null)]
  | .ops o => lowerOpsSubmodel (DateOps.Fields.lower path) o
  | .scalar t => .ok [clause path .eq (.val t.val)]

def StringSpec.lower (path : List PyStr) : StringSpec → Except PyError (List Ast)
  | .null => .ok [clause path .eq (.val .null)]
  | .ops o => lowerOpsSubmodel (StringOps.Fields.lower path) o
  | .list xs => .ok [clause path .eq (.tuple (xs.map (fun s => .val (.str s))))]
  | .scalar s => .ok [clause path .eq (.val (.str s))]

def lowerSystemKey (fields : SystemFields) : SystemKey → Except PyError (List Ast)
  | .date k => ((fields.dates k).map (DateSpec.lower [(SystemKey.date k).name])).getD (.ok [])
  | .text k => ((fields.strings k).map (StringSpec.lower [(SystemKey.text k).name])).getD (.ok [])

def makeDateLiteral : Val → Except PyError Atom
  | .str s =>
    match fromisoformat s with
    | none => .error .valueError
    | some d =>
      match d.toUtc with
      | none => .error .overflowError
      | some t => .ok (.date t)
  | _ => .error .typeError

def lowerScalarOperand (v : Val) : Except PyError Atom :=
  match soleDate v with
  | some raw => makeDateLiteral raw
  | none => .ok (.val v)

def lowerOperandList : List Val → Except PyError (List Atom)
  | [] => .ok []
  | v::vs => do
    let a ← lowerScalarOperand v
    let as ← lowerOperandList vs
    return a::as

def lowerOperator (path : List PyStr) (key : PyStr) (operand : Val) : Except PyError Ast :=
  match Op.ofKey key, operand with
  | none, _ => .error .valueError
  | some .not, .dict kvs => (go kvs).map negate
  | some .not, _ => .error .attributeError
  | some .in_, .list xs => (lowerOperandList xs).map (fun as => clause path .in_ (.tuple as))
  | some .nin, .list xs => (lowerOperandList xs).map (fun as => clause path .nin (.tuple as))
  | some .in_, _ | some .nin, _ => .error .typeError
  | some .exists_, v => .ok (clause path .exists_ (.val v))
  | some op, v => (lowerScalarOperand v).map (fun a => clause path op (.atom a))
where
  go : Dict → Except PyError (List Ast)
    | [] => .ok []
    | (k,v)::kvs => do
      let a ← lowerOperator path k v
      let as ← go kvs
      return a::as

def lowerMetadataOperatorExpr (path : List PyStr) (kvs : Dict) : Except PyError (List Ast) :=
  lowerOperator.go path kvs

def lowerMetadataPredicate (path : List PyStr) : Val → Except PyError (List Ast)
  | .list xs => .ok [clause path .eq (.tuple (xs.map .val))]
  | .dict kvs =>
    if kvs.isEmpty then .ok [clause path .eq (.val (.dict []))]
    else if kvs.any (fun kv => isOperatorKey kv.1) then
      match soleDate (.dict kvs) with
      | some raw => (makeDateLiteral raw).map (fun a => [clause path .eq (.atom a)])
      | none => lowerMetadataOperatorExpr path kvs
    else .ok [clause path .eq (.val (.dict kvs))]
  | v => .ok [clause path .eq (.val v)]

def splitDots : PyStr → List PyStr
  | [] => [[]]
  | c::s =>
    if c = point '.' then []::splitDots s
    else
      match splitDots s with
      | [] => [[c]]
      | seg::segs => (c::seg)::segs

/-- `_normalize`: flatten nodes of the same operator, drop a node around one
logical child, and keep a single clause in a conjunction. -/
def spliced (op : Connective) : Ast → List Ast
  | .node op' fs => if op' = op then fs else [.node op' fs]
  | a => [a]

def collapsed (op : Connective) : List Ast → Ast
  | [.leaf c] => .node .and [.leaf c]
  | [.node op' fs] => .node op' fs
  | fs => .node op fs

def normalize : Ast → Ast
  | .leaf c => .leaf c
  | .node .not fs => .node .not (normalizeAll fs)
  | .node op fs => collapsed op ((normalizeAll fs).flatMap (spliced op))
where
  normalizeAll : List Ast → List Ast
    | [] => []
    | f::fs => normalize f::normalizeAll fs

def lowerSystem (fields : SystemFields) : List SystemKey → Except PyError (List Ast)
  | [] => .ok []
  | k::ks => do
    let as ← lowerSystemKey fields k
    let bs ← lowerSystem fields ks
    return as++bs

def lowerFolded : Dict → Except PyError (List Ast)
  | [] => .ok []
  | (key,predicate)::kvs => do
    let as ← lowerMetadataPredicate (splitDots key) predicate
    let bs ← lowerFolded kvs
    return as++bs

def lowerBlob : Option Dict → List Ast
  | none => []
  | some d => [clause [py "metadata"] .eq (.val (.dict d))]

def RecallFilter.parseToAst : RecallFilter → Except PyError Ast
  | .mk system metadata folded and_ or_ nor_ not_ => do
    let keys ← lowerSystem system SystemKey.all
    let preds ← lowerFolded folded
    let ands ← branches .and and_
    let ors ← branches .or or_
    let nors ← branches .or nor_
    let nots ← inner not_
    return normalize (.node .and (keys++lowerBlob metadata++preds++ands++ors++
      nors.map (fun a => .node .not [a])++nots))
where
  branches (op : Connective) : Option (List RecallFilter) → Except PyError (List Ast)
    | none => .ok []
    | some fs => (all fs).map (fun as => [.node op as])
  all : List RecallFilter → Except PyError (List Ast)
    | [] => .ok []
    | f::fs => do
      let a ← RecallFilter.parseToAst f
      let as ← all fs
      return a::as
  inner : Option RecallFilter → Except PyError (List Ast)
    | none => .ok []
    | some f => f.parseToAst.map (fun a => [.node .not [a]])

end Uru.Filter
