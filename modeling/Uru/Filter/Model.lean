import Uru.Filter.Value

/-!
# Recall filter documents

A `RecallFilter` as pydantic builds it: the typed system keys, the bare
metadata blob, the carrier of the folded `metadata.<path>` predicates and the
logical operators. Pydantic has checked the types and brought every datetime
of a system key to UTC, so the fields have these types here. What remains is
the grammar of the free-form metadata, which is walked after that. A field
that the caller may set to null holds `some none` then, and `none` when it is
not among `model_fields_set`.
-/

set_option autoImplicit false

namespace Uru.Filter

/-- The operator vocabulary, with `Op.ofKey` reading the wire literals. -/
inductive Op
  | eq | ne | gt | gte | lt | lte | in_ | nin | exists_ | and | or | nor | not | date
deriving DecidableEq

def Op.key : Op → PyStr
  | .eq => py "$eq"
  | .ne => py "$ne"
  | .gt => py "$gt"
  | .gte => py "$gte"
  | .lt => py "$lt"
  | .lte => py "$lte"
  | .in_ => py "$in"
  | .nin => py "$nin"
  | .exists_ => py "$exists"
  | .and => py "$and"
  | .or => py "$or"
  | .nor => py "$nor"
  | .not => py "$not"
  | .date => py "$date"

def Op.all : List Op :=
  [.eq,.ne,.gt,.gte,.lt,.lte,.in_,.nin,.exists_,.and,.or,.nor,.not,.date]

def Op.ofKey (s : PyStr) : Option Op := Op.all.find? (fun op => op.key = s)

inductive DateKey
  | occurredAt | createdAt | sourceTimestamp
deriving DecidableEq

inductive StringKey
  | sourceType | sourceName | sourceUrl | externalId | contentType | source | title
deriving DecidableEq

inductive SystemKey
  | date (k : DateKey)
  | text (k : StringKey)
deriving DecidableEq

def SystemKey.name : SystemKey → PyStr
  | .date .occurredAt => py "occurred_at"
  | .date .createdAt => py "created_at"
  | .date .sourceTimestamp => py "source_timestamp"
  | .text .sourceType => py "source_type"
  | .text .sourceName => py "source_name"
  | .text .sourceUrl => py "source_url"
  | .text .externalId => py "external_id"
  | .text .contentType => py "content_type"
  | .text .source => py "source"
  | .text .title => py "title"

def DateKey.all : List DateKey := [.occurredAt,.createdAt,.sourceTimestamp]

def StringKey.all : List StringKey :=
  [.sourceType,.sourceName,.sourceUrl,.externalId,.contentType,.source,.title]

/-- `_SYSTEM_KEY_FIELDS`, in the order in which they are lowered. -/
def SystemKey.all : List SystemKey := DateKey.all.map .date++StringKey.all.map .text

def SystemKey.ofName (s : PyStr) : Option SystemKey := SystemKey.all.find? (fun k => k.name = s)

structure StringOps.Fields where
  eq : Option (Option PyStr)
  ne : Option (Option PyStr)
  in_ : Option (Option (List PyStr))
  nin : Option (Option (List PyStr))
  exists_ : Option (Option Bool)

structure DateOps.Fields where
  eq : Option (Option UtcTime)
  ne : Option (Option UtcTime)
  gt : Option (Option UtcTime)
  gte : Option (Option UtcTime)
  lt : Option (Option UtcTime)
  lte : Option (Option UtcTime)
  in_ : Option (Option (List UtcTime))
  nin : Option (Option (List UtcTime))

/-- A submodel and the state of its `$not` field: not set, set to null, or an
inner submodel. -/
inductive Ops (F : Type)
  | plain (fields : F)
  | notNull (fields : F)
  | notOps (fields : F) (inner : Ops F)

abbrev StringOps := Ops StringOps.Fields

abbrev DateOps := Ops DateOps.Fields

inductive DateSpec
  | null
  | scalar (t : UtcTime)
  | ops (o : DateOps)

inductive StringSpec
  | null
  | scalar (s : PyStr)
  | list (xs : List PyStr)
  | ops (o : StringOps)

structure SystemFields where
  dates : DateKey → Option DateSpec
  strings : StringKey → Option StringSpec

inductive RecallFilter
  | mk (system : SystemFields) (metadata : Option Dict) (folded : Dict)
      (and_ or_ nor_ : Option (List RecallFilter)) (not_ : Option RecallFilter)

theorem RecallFilter.ind {P : RecallFilter → Prop}
    (mk : ∀ s m fo a o n t, (∀ fs, a = some fs → ∀ f ∈ fs, P f) →
      (∀ fs, o = some fs → ∀ f ∈ fs, P f) → (∀ fs, n = some fs → ∀ f ∈ fs, P f) →
      (∀ f, t = some f → P f) → P (.mk s m fo a o n t)) : ∀ f, P f
  | .mk s m fo a o n t => mk s m fo a o n t (goOption a) (goOption o) (goOption n) (goInner t)
where
  goList : ∀ fs : List RecallFilter, ∀ f ∈ fs, P f
    | [], _, h => absurd h List.not_mem_nil
    | g::gs, f, h => (List.mem_cons.mp h).elim
        (fun he => he ▸ RecallFilter.ind mk g) (goList gs f)
  goOption : ∀ o : Option (List RecallFilter), ∀ fs, o = some fs → ∀ f ∈ fs, P f
    | none, _, h => nomatch h
    | some gs, _, h => Option.some.inj h ▸ goList gs
  goInner : ∀ o : Option RecallFilter, ∀ f, o = some f → P f
    | none, _, h => nomatch h
    | some g, _, h => Option.some.inj h ▸ RecallFilter.ind mk g

def isOperatorKey (k : PyStr) : Bool := k.head? = some (point '$')

def soleDate : Val → Option Val
  | .dict [(k,v)] => if k = py "$date" then some v else none
  | _ => none

def dateParses : Val → Bool
  | .str s => (fromisoformat s).isSome
  | _ => false

def checkLiteralOperand (v : Val) : Bool := ((soleDate v).map dateParses).getD true

def noNestedOperator : Val → Bool
  | .dict kvs => go kvs
  | _ => true
where
  go : Dict → Bool
    | [] => true
    | (k,v)::kvs => !isOperatorKey k && noNestedOperator v && go kvs

def walkOperator (key : PyStr) (operand : Val) : Bool :=
  match Op.ofKey key, operand with
  | some .in_, .list xs => xs.all checkLiteralOperand
  | some .nin, .list xs => xs.all checkLiteralOperand
  | some .exists_, .bool _ => true
  | some .not, .dict kvs => !kvs.isEmpty && kvs.all (fun kv => isOperatorKey kv.1) && go kvs
  | some .eq, v | some .ne, v | some .gt, v | some .gte, v | some .lt, v | some .lte, v =>
    checkLiteralOperand v
  | _, _ => false
where
  go : Dict → Bool
    | [] => true
    | (k,v)::kvs => walkOperator k v && go kvs

def walkPredicate : Val → Bool
  | .dict kvs =>
    if kvs.isEmpty then true
    else if kvs.any (fun kv => isOperatorKey kv.1) then
      kvs.all (fun kv => isOperatorKey kv.1) &&
        match soleDate (.dict kvs) with
        | some v => dateParses v
        | none => kvs.all (fun kv => walkOperator kv.1 kv.2)
    else noNestedOperator (.dict kvs)
  | _ => true

/-- The validators that run on the built model do not raise, in the document
and in every document nested in it. -/
def RecallFilter.accepted : RecallFilter → Bool
  | .mk _ metadata folded and_ or_ nor_ not_ =>
    (metadata.getD []).all (fun kv => walkPredicate kv.2) &&
      folded.all (fun kv => walkPredicate kv.2) &&
      branches and_ && branches or_ && branches nor_ && inner not_
where
  branches : Option (List RecallFilter) → Bool
    | none => true
    | some [] => false
    | some (f::fs) => RecallFilter.accepted f && acceptedAll fs
  acceptedAll : List RecallFilter → Bool
    | [] => true
    | f::fs => RecallFilter.accepted f && acceptedAll fs
  inner : Option RecallFilter → Bool
    | none => true
    | some f => RecallFilter.accepted f

end Uru.Filter
