import Uru.Lib.Slots
import Uru.Filter.Ast

/-!
# Validating and dumping recall filter documents

`model_validate` folds the `metadata.<path>` keys of a document onto the
carrier, has pydantic read each field under its alias or its name, and then
walks the metadata. A field given under both is an extra key. `model_dump`
writes the set fields under their aliases and the folded predicates flat.
What pydantic itself decides, the reading of a datetime and the JSON form of a
value, is a parameter.
-/

set_option autoImplicit false

namespace Uru.Filter

open Uru.Lib

def Val.IsJson : Val → Prop
  | .float (.finite _) => True
  | .float _ => False
  | .datetime _ => False
  | .list xs => goList xs
  | .dict kvs => goDict kvs
  | _ => True
where
  goList : List Val → Prop
    | [] => True
    | x::xs => IsJson x ∧ goList xs
  goDict : Dict → Prop
    | [] => True
    | (_,x)::xs => IsJson x ∧ goDict xs

/-- `parse` reads a datetime that is not one already, `text` is the JSON form
of an instant, and `toJson` that of a free-form value. -/
structure Pydantic where
  parse : Val → Option DateTime
  text : UtcTime → PyStr
  toJson : Val → Val
  parse_text : ∀ t, ∃ d, parse (.str (text t)) = some d ∧ d.toUtc = some t
  toJson_json : ∀ v, v.IsJson → toJson v = v

inductive Mode
  | python | json
deriving DecidableEq

namespace Pydantic

variable (P : Pydantic)

def datetime : Val → Option UtcTime
  | .datetime d => d.toUtc
  | v => (P.parse v).bind DateTime.toUtc

def showDatetime : Mode → UtcTime → Val
  | .python, t => t.val
  | .json, t => .str (P.text t)

def showValue : Mode → Val → Val
  | .python, v => v
  | .json, v => P.toJson v

end Pydantic

def readStr : Val → Option PyStr
  | .str s => some s
  | _ => none

def readList {α : Type} (read : Val → Option α) : Val → Option (List α)
  | .list xs => xs.mapM read
  | _ => none

/-- The value of an operator field, `none` for an explicit null. -/
inductive OpValue (α : Type)
  | scalar (x : Option α)
  | many (x : Option (List α))
  | flag (x : Option Bool)

def OpValue.scalar? {α : Type} : OpValue α → Option (Option α)
  | .scalar x => some x
  | _ => none

def OpValue.many? {α : Type} : OpValue α → Option (Option (List α))
  | .many x => some x
  | _ => none

def OpValue.flag? {α : Type} : OpValue α → Option (Option Bool)
  | .flag x => some x
  | _ => none

def Op.field : Op → PyStr
  | .eq => py "eq"
  | .ne => py "ne"
  | .gt => py "gt"
  | .gte => py "gte"
  | .lt => py "lt"
  | .lte => py "lte"
  | .in_ => py "in_"
  | .nin => py "nin"
  | .exists_ => py "exists"
  | .and => py "and_"
  | .or => py "or_"
  | .nor => py "nor_"
  | .not => py "not_"
  | .date => py "date"

structure Submodel (α F : Type) where
  ops : List Op
  build : (Op → Option (OpValue α)) → F
  values : F → Op → Option (OpValue α)

def stringOps : Submodel PyStr StringOps.Fields where
  ops := [.eq,.ne,.in_,.nin,.exists_]
  build f :=
    { eq := (f .eq).bind OpValue.scalar?
      ne := (f .ne).bind OpValue.scalar?
      in_ := (f .in_).bind OpValue.many?
      nin := (f .nin).bind OpValue.many?
      exists_ := (f .exists_).bind OpValue.flag? }
  values o
    | .eq => o.eq.map .scalar
    | .ne => o.ne.map .scalar
    | .in_ => o.in_.map .many
    | .nin => o.nin.map .many
    | .exists_ => o.exists_.map .flag
    | _ => none

def dateOps : Submodel UtcTime DateOps.Fields where
  ops := [.eq,.ne,.gt,.gte,.lt,.lte,.in_,.nin]
  build f :=
    { eq := (f .eq).bind OpValue.scalar?
      ne := (f .ne).bind OpValue.scalar?
      gt := (f .gt).bind OpValue.scalar?
      gte := (f .gte).bind OpValue.scalar?
      lt := (f .lt).bind OpValue.scalar?
      lte := (f .lte).bind OpValue.scalar?
      in_ := (f .in_).bind OpValue.many?
      nin := (f .nin).bind OpValue.many? }
  values o
    | .eq => o.eq.map .scalar
    | .ne => o.ne.map .scalar
    | .gt => o.gt.map .scalar
    | .gte => o.gte.map .scalar
    | .lt => o.lt.map .scalar
    | .lte => o.lte.map .scalar
    | .in_ => o.in_.map .many
    | .nin => o.nin.map .many
    | _ => none

section Submodel

variable {α F : Type}

def readValue (read : Val → Option α) : Op → Val → Option (OpValue α)
  | .in_, .null | .nin, .null => some (.many none)
  | .in_, v | .nin, v => (readList read v).map (fun xs => .many (some xs))
  | .exists_, .null => some (.flag none)
  | .exists_, .bool b => some (.flag (some b))
  | .exists_, _ => none
  | _, .null => some (.scalar none)
  | _, v => (read v).map (fun x => .scalar (some x))

def showOpValue (shown : α → Val) : OpValue α → Val
  | .scalar x => x.elim .null shown
  | .many x => x.elim .null (fun xs => .list (xs.map shown))
  | .flag x => x.elim .null .bool

namespace Submodel

def opOf (M : Submodel α F) (k : PyStr) : Option Op :=
  (M.ops++[Op.not]).find? (fun op => op.key = k ∨ op.field = k)

inductive Entry (α F : Type)
  | value (v : OpValue α)
  | inner (o : Option (Ops F))

def Entry.value? : Entry α F → Option (OpValue α)
  | .value v => some v
  | .inner _ => none

def Entry.inner? : Entry α F → Option (Option (Ops F))
  | .value _ => none
  | .inner o => some o

/-- The submodel of the entries; a field that occurs twice is an extra key. -/
def assemble (M : Submodel α F) (es : List (Op × Entry α F)) : Option (Ops F) :=
  if (es.map Prod.fst).Nodup then
    let fields := M.build (fun op => (Slots.lookup es op).bind Entry.value?)
    match (Slots.lookup es Op.not).bind Entry.inner? with
    | none => some (.plain fields)
    | some none => some (.notNull fields)
    | some (some inner) => some (.notOps fields inner)
  else none

def read (M : Submodel α F) (reads : Val → Option α) : Val → Option (Ops F)
  | .dict kvs => (go kvs).bind M.assemble
  | _ => none
where
  go : Dict → Option (List (Op × Entry α F))
    | [] => some []
    | (k,v)::kvs => do
      let op ← M.opOf k
      let e ← entry op v
      let es ← go kvs
      return (op,e)::es
  entry : Op → Val → Option (Entry α F)
    | .not, .null => some (.inner none)
    | .not, .dict kvs => ((go kvs).bind M.assemble).map (fun o => .inner (some o))
    | .not, _ => none
    | op, v => (readValue reads op v).map .value

def emit (M : Submodel α F) (shown : α → Val) (fields : F) (inner : Option Val) : Dict :=
  (Slots.emit (M.ops++[Op.not]) (fun op =>
    if op = .not then inner else (M.values fields op).map (showOpValue shown))).map
      (fun e => (e.1.key,e.2))

def dump (M : Submodel α F) (shown : α → Val) : Ops F → Dict
  | .plain fields => M.emit shown fields none
  | .notNull fields => M.emit shown fields (some .null)
  | .notOps fields inner => M.emit shown fields (some (.dict (dump M shown inner)))

end Submodel

end Submodel

/-- `_check_depth` counts the values on the longest way into the document. -/
def depth : Val → ℕ
  | .list xs => goList xs+1
  | .dict kvs => goDict kvs+1
  | _ => 1
where
  goList : List Val → ℕ
    | [] => 0
    | x::xs => max (depth x) (goList xs)
  goDict : Dict → ℕ
    | [] => 0
    | (_,x)::xs => max (depth x) (goDict xs)

def maxFilterDepth : ℕ := 100

/-- The fields of the document model, in the order of their definition. -/
inductive Slot
  | system (k : SystemKey)
  | metadata | and_ | or_ | nor_ | not_ | carrier
deriving DecidableEq

namespace Slot

def wire : Slot → PyStr
  | system k => k.name
  | metadata => py "metadata"
  | and_ => Op.and.key
  | or_ => Op.or.key
  | nor_ => Op.nor.key
  | not_ => Op.not.key
  | carrier => py "__folded_predicates__"

def field : Slot → PyStr
  | system k => k.name
  | metadata => py "metadata"
  | and_ => Op.and.field
  | or_ => Op.or.field
  | nor_ => Op.nor.field
  | not_ => Op.not.field
  | carrier => py "folded_predicates_"

def all : List Slot := SystemKey.all.map system++[metadata,and_,or_,nor_,not_,carrier]

def ofKey (k : PyStr) : Option Slot := all.find? (fun s => s.wire = k ∨ s.field = k)

end Slot

def isPath (k : PyStr) : Bool := (py "metadata.").isPrefixOf k

/-- `_fold_dot_paths`: the flat predicates of a document. -/
def foldDotPaths (kvs : Dict) : Dict := kvs.filter (fun kv => isPath kv.1)

/-- A validated model with the fields that are set, `some none` for those that
are set to null. -/
inductive FilterModel
  | mk (system : SystemFields) (metadata : Option (Option Dict)) (folded : Dict)
      (and_ or_ nor_ : Option (Option (List FilterModel))) (not_ : Option (Option FilterModel))

def FilterModel.filter : FilterModel → RecallFilter
  | .mk s m folded a o n t => .mk s (m.getD none) folded (branches a) (branches o) (branches n) (inner t)
where
  branches : Option (Option (List FilterModel)) → Option (List RecallFilter)
    | some (some bs) => some (all bs)
    | _ => none
  all : List FilterModel → List RecallFilter
    | [] => []
    | b::bs => b.filter::all bs
  inner : Option (Option FilterModel) → Option RecallFilter
    | some (some b) => some b.filter
    | _ => none

inductive Slot.Entry
  | date (x : DateSpec)
  | text (x : StringSpec)
  | blob (x : Option Dict)
  | branches (x : Option (List FilterModel))
  | inner (x : Option FilterModel)
  | raw (v : Val)

namespace Slot.Entry

def date? : Slot.Entry → Option DateSpec
  | .date x => some x
  | _ => none

def text? : Slot.Entry → Option StringSpec
  | .text x => some x
  | _ => none

def blob? : Slot.Entry → Option (Option Dict)
  | .blob x => some x
  | _ => none

def branches? : Slot.Entry → Option (Option (List FilterModel))
  | .branches x => some x
  | _ => none

def inner? : Slot.Entry → Option (Option FilterModel)
  | .inner x => some x
  | _ => none

end Slot.Entry

namespace FilterModel

def build (f : Slot → Option Slot.Entry) (folded : Dict) : FilterModel :=
  .mk
    { dates := fun k => (f (.system (.date k))).bind Slot.Entry.date?
      strings := fun k => (f (.system (.text k))).bind Slot.Entry.text? }
    ((f .metadata).bind Slot.Entry.blob?) folded ((f .and_).bind Slot.Entry.branches?)
    ((f .or_).bind Slot.Entry.branches?) ((f .nor_).bind Slot.Entry.branches?)
    ((f .not_).bind Slot.Entry.inner?)

def assemble (es : List (Slot × Slot.Entry)) : Option FilterModel :=
  if (es.map Prod.fst).Nodup then
    match Slots.lookup es .carrier with
    | none => some (build (Slots.lookup es) [])
    | some (.raw (.dict d)) => some (build (Slots.lookup es) d)
    | some _ => none
  else none

/-- Folded predicates take the place of a carrier under its alias. -/
def finish (kvs : Dict) (es : List (Slot × Slot.Entry)) : Option FilterModel :=
  assemble (if foldDotPaths kvs = [] then es else es++[(.carrier,.raw (.dict (foldDotPaths kvs)))])

end FilterModel

namespace Pydantic

variable (P : Pydantic)

def readDateSpec : Val → Option DateSpec
  | .null => some .null
  | .dict kvs => (dateOps.read P.datetime (.dict kvs)).map .ops
  | v => (P.datetime v).map .scalar

def readStringSpec : Val → Option StringSpec
  | .null => some .null
  | .str s => some (.scalar s)
  | .list xs => (xs.mapM readStr).map .list
  | .dict kvs => (stringOps.read readStr (.dict kvs)).map .ops
  | _ => none

def read : Val → Option FilterModel
  | .dict kvs => (go (foldDotPaths kvs ≠ []) kvs).bind (FilterModel.finish kvs)
  | _ => none
where
  go (folds : Bool) : Dict → Option (List (Slot × Slot.Entry))
    | [] => some []
    | (k,v)::kvs =>
      if isPath k || (folds && k = Slot.carrier.wire) then go folds kvs
      else do
        let s ← Slot.ofKey k
        let e ← entry s v
        let es ← go folds kvs
        return (s,e)::es
  entry : Slot → Val → Option Slot.Entry
    | .system (.date _), v => (P.readDateSpec v).map .date
    | .system (.text _), v => (readStringSpec v).map .text
    | .metadata, .null => some (.blob none)
    | .metadata, .dict d => some (.blob (some d))
    | .metadata, _ => none
    | .not_, .null => some (.inner none)
    | .not_, .dict kvs =>
      ((go (foldDotPaths kvs ≠ []) kvs).bind (FilterModel.finish kvs)).map (fun b => .inner (some b))
    | .not_, _ => none
    | .carrier, v => some (.raw v)
    | _, .null => some (.branches none)
    | _, .list xs => (all xs).map (fun bs => .branches (some bs))
    | _, _ => none
  all : List Val → Option (List FilterModel)
    | [] => some []
    | x::xs => do
      let b ← read x
      let bs ← all xs
      return b::bs

def modelValidate (doc : Val) : Option FilterModel :=
  if depth doc ≤ maxFilterDepth then (P.read doc).filter (fun b => b.filter.accepted) else none

def showDateSpec (m : Mode) : DateSpec → Val
  | .null => .null
  | .scalar t => P.showDatetime m t
  | .ops o => .dict (dateOps.dump (P.showDatetime m) o)

def showStringSpec : StringSpec → Val
  | .null => .null
  | .scalar s => .str s
  | .list xs => .list (xs.map .str)
  | .ops o => .dict (stringOps.dump .str o)

def showItems (m : Mode) (kvs : Dict) : Dict := kvs.map (fun kv => (kv.1,P.showValue m kv.2))

local instance lawful_texts : LawfulBEq PyStr := inferInstance

def update (d more : Dict) : Dict :=
  more.foldl (fun d kv =>
    if kv.1 ∈ keys d then d.map (fun old => if old.1 = kv.1 then kv else old) else d++[kv]) d

/-- `model_dump` by alias and without unset fields; the carrier is dropped and
its predicates are written flat. -/
def dump (m : Mode) : FilterModel → Dict
  | .mk system metadata folded a o n t =>
    update ((Slots.emit Slot.all (fun
      | .system (.date k) => (system.dates k).map (P.showDateSpec m)
      | .system (.text k) => (system.strings k).map showStringSpec
      | .metadata => metadata.map (fun d => d.elim .null (fun d => .dict (P.showItems m d)))
      | .and_ => branches a
      | .or_ => branches o
      | .nor_ => branches n
      | .not_ => inner t
      | .carrier => none)).map (fun e => (e.1.wire,e.2))) (P.showItems m folded)
where
  branches : Option (Option (List FilterModel)) → Option Val
    | none => none
    | some none => some .null
    | some (some bs) => some (.list (all bs))
  all : List FilterModel → List Val
    | [] => []
    | b::bs => .dict (dump m b)::all bs
  inner : Option (Option FilterModel) → Option Val
    | none => none
    | some none => some .null
    | some (some b) => some (.dict (dump m b))

end Pydantic

end Uru.Filter
