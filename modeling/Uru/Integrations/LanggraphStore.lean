import Mathlib.Data.Char
import Mathlib.Data.List.Lex
import Mathlib.Data.List.Nodup
import Mathlib.Order.Lattice
import Mathlib.Tactic
import Uru.Lib.Record
import Uru.Lib.SortOn

/-!
# The LangGraph store

A store of items named by a namespace and a key, kept as documents. The name of
an item is packed into the external id of its document. Writing a name forgets
the document under its external id first, so that remembering always makes a
new one; every operation is a check of its arguments, of the length of the external
id among them, and then what it does.
-/

set_option autoImplicit false

namespace Uru.Integrations.LanggraphStore
open Uru.Lib

section Names

abbrev Text := List Char

abbrev Namespace := List Text

inductive Error where
  | baseValidator
  | namespaceEmpty
  | segmentEmpty
  | segmentContainsSeparator (segment : Text)
  | keyEmpty
  | externalIdLength (got : ℕ)
  deriving DecidableEq

/-- The separator, and the functions from elsewhere: the framework's check of a namespace, the two
digests as texts, the rendering of a value, and the value that stands for what a field lacks. -/
structure Setting (ν : Type) where
  namespaceSep : Char := '/'
  validateNamespace : Namespace → Bool
  sha1 : Text → Text
  sha256 : Text → Text
  valueToContent : Record Text ν → Text
  null : ν

def checkSegments (sep : Char) : Namespace → Except Error Unit
  | [] => .ok ()
  | segment::rest =>
    if segment = [] then .error .segmentEmpty
    else if sep ∈ segment then .error (.segmentContainsSeparator segment)
    else checkSegments sep rest

def flattenNamespace (sep : Char) (ns : Namespace) : Except Error Text :=
  if ns = [] then .error .namespaceEmpty
  else do
    checkSegments sep ns
    return [sep].intercalate ns

def EXTERNAL_ID_MAX_LEN : ℕ := 512

variable {ν : Type} (c : Setting ν)

def compositeExternalId (flatNamespace key : Text) : Text :=
  let raw := flatNamespace++[':',':']++key
  if raw.length ≤ EXTERNAL_ID_MAX_LEN then raw
  else 'h'::c.sha1 flatNamespace++[':',':']++key

def packed (ns : Namespace) (key : Text) : Text :=
  compositeExternalId c ([c.namespaceSep].intercalate ns) key

/-- A document with a longer external id cannot be made. -/
def checkExternalId (e : Text) : Except Error Unit :=
  if EXTERNAL_ID_MAX_LEN < e.length then .error (.externalIdLength e.length) else .ok ()

def checkSeparator (sep : Char) (ns : Namespace) : Except Error Unit :=
  match ns.find? (fun segment => decide (sep ∈ segment)) with
  | some segment => .error (.segmentContainsSeparator segment)
  | none => .ok ()

def validateLgNamespace (ns : Namespace) : Except Error Unit :=
  if c.validateNamespace ns then checkSeparator c.namespaceSep ns else .error .baseValidator

def checkKey (key : Text) : Except Error Unit :=
  if key = [] then .error .keyEmpty else .ok ()

def externalId (ns : Namespace) (key : Text) : Except Error Text := do
  validateLgNamespace c ns
  let flat ← flattenNamespace c.namespaceSep ns
  return compositeExternalId c flat key

end Names

section Documents

structure Item (ν : Type) where
  segments : Namespace
  key : Text
  value : Record Text ν

/-- A document of the store's namespace; one that another program wrote has no item. -/
structure Document (ν : Type) where
  id : ℕ
  externalId : Option Text
  checksum : Text
  failed : Bool
  item : Option (Item ν)

/-- The documents, the one created last first. -/
structure Store (ν : Type) where
  documents : List (Document ν)
  nextId : ℕ
  seenNamespaces : List Namespace

variable {ν : Type}

def Store.getDocumentByExternalId (s : Store ν) (e : Text) : Option (Document ν) :=
  s.documents.find? (fun d => d.externalId = some e)

def Store.getDocumentByChecksum (s : Store ν) (checksum : Text) : Option (Document ν) :=
  s.documents.find? (fun d => d.checksum = checksum && !d.failed)

/-- With no session in the metadata. -/
def checksumDedupApplies (existing : Document ν) (e : Text) : Bool :=
  existing.externalId = some e

def Store.added (s : Store ν) (checksum : Text) (item : Item ν) (e : Text) : Store ν :=
  { s with
    documents := ⟨s.nextId,some e,checksum,false,some item⟩::s.documents
    nextId := s.nextId+1 }

def Store.createDocument (s : Store ν) (checksum : Text) (item : Item ν) (e : Text) :
    Except Error (Store ν) := do
  checkExternalId e
  return s.added checksum item e

def Store.remember (s : Store ν) (checksum : Text) (item : Item ν) (e : Text) :
    Except Error (Store ν) :=
  match s.getDocumentByExternalId e with
  | some existing =>
    .ok { s with
      documents := s.documents.map (fun d =>
        if d.id = existing.id then ⟨d.id,some e,checksum,false,some item⟩ else d) }
  | none =>
    match s.getDocumentByChecksum checksum with
    | some existing =>
      if checksumDedupApplies existing e then .ok s else s.createDocument checksum item e
    | none => s.createDocument checksum item e

def Store.forget (s : Store ν) (id : ℕ) : Store ν :=
  { s with documents := s.documents.filter (fun d => d.id ≠ id) }

def Store.forgetExternalId (s : Store ν) (e : Text) : Store ν :=
  match s.getDocumentByExternalId e with
  | some existing => s.forget existing.id
  | none => s

def addSeen (seen : List Namespace) (ns : Namespace) : List Namespace :=
  if ns ∈ seen then seen else ns::seen

def Store.saw (s : Store ν) (ns : Namespace) : Store ν :=
  { s with seenNamespaces := addSeen s.seenNamespaces ns }

end Documents

section Calls

variable {ν : Type} (c : Setting ν)

def newExternalId (ns : Namespace) (key : Text) : Except Error Text := do
  validateLgNamespace c ns
  checkKey key
  let flat ← flattenNamespace c.namespaceSep ns
  return compositeExternalId c flat key

/-- Where remembering fails, the document under the external id has been forgotten. -/
def Store.aput (s : Store ν) (ns : Namespace) (key : Text) (value : Record Text ν) :
    Store ν × Except Error Unit :=
  match newExternalId c ns key with
  | .error x => (s,.error x)
  | .ok e =>
    match (s.forgetExternalId e).remember (c.sha256 (c.valueToContent value)) ⟨ns,key,value⟩
      e with
    | .error x => (s.forgetExternalId e,.error x)
    | .ok s' => (s'.saw ns,.ok ())

/-- The stored namespace must be the one asked for. -/
def Store.aget (s : Store ν) (ns : Namespace) (key : Text) : Except Error (Option (Item ν)) := do
  let e ← externalId c ns key
  return (s.getDocumentByExternalId e).bind (fun d => d.item.bind (fun item =>
    if item.segments = ns then some item else none))

def Store.adelete (s : Store ν) (ns : Namespace) (key : Text) : Store ν × Except Error Unit :=
  match externalId c ns key with
  | .error x => (s,.error x)
  | .ok e => (s.forgetExternalId e,.ok ())

def wildcard : Text := ['*']

def segmentMatches (x : Text × Text) : Bool := decide (x.2 = wildcard) || decide (x.1 = x.2)

def hasPrefix (ns pre : Namespace) : Bool :=
  decide (pre.length ≤ ns.length) && ((ns.take pre.length).zip pre).all segmentMatches

def hasSuffix (ns suf : Namespace) : Bool :=
  decide (suf.length ≤ ns.length) &&
    ((ns.drop (ns.length-suf.length)).zip suf).all segmentMatches

def matchesFilter [DecidableEq ν] (value : Record Text ν) (filter : List (Text × ν)) : Bool :=
  filter.all (fun f => decide ((value.get f.1).getD c.null = f.2))

def slice {α : Type} (l : List α) (limit offset : ℕ) : List α := (l.drop offset).take limit

def found [DecidableEq ν] (pre : Namespace) (filter : List (Text × ν)) (item : Item ν) : Bool :=
  hasPrefix item.segments pre && matchesFilter c item.value filter

/-- Without a query: the documents are listed up to a bound, and the loop stops when it has
enough. -/
def Store.asearch [DecidableEq ν] (s : Store ν) (pre : Namespace) (filter : List (Text × ν))
    (limit offset : ℕ) : List (Item ν) :=
  let documents := s.documents.take (max (limit+offset) 100)
  let results := ((documents.filterMap Document.item).filter (found c pre filter)).take
    (limit+offset)
  slice results limit offset

def trimmed (maxDepth : Option ℕ) (ns : Namespace) : Namespace :=
  match maxDepth with
  | some n => ns.take n
  | none => ns

/-- The distinct namespaces among some, in the order of their joined texts. -/
def arranged (nss : List Namespace) (pre suf : Namespace) (maxDepth : Option ℕ) :
    List Namespace :=
  sortOn (fun ns => [c.namespaceSep].intercalate ns) (((nss.map (trimmed maxDepth)).filter
    (fun ns => hasPrefix ns pre && hasSuffix ns suf)).dedup)

def Store.alistNamespaces (s : Store ν) (pre suf : Namespace) (maxDepth : Option ℕ)
    (limit offset : ℕ) : List Namespace :=
  let documents := s.documents.take (max (limit*8+offset) 200)
  slice (arranged c ((documents.filterMap Document.item).map Item.segments++s.seenNamespaces)
    pre suf maxDepth) limit offset

inductive Op (ν : Type) where
  | get (ns : Namespace) (key : Text)
  | put (ns : Namespace) (key : Text) (value : Option (Record Text ν))
  | search (pre : Namespace) (filter : List (Text × ν)) (limit offset : ℕ)
  | listNamespaces (pre suf : Namespace) (maxDepth : Option ℕ) (limit offset : ℕ)

inductive Result (ν : Type) where
  | item (item : Option (Item ν))
  | none
  | items (items : List (Item ν))
  | namespaces (nss : List Namespace)

def Store.step [DecidableEq ν] (s : Store ν) : Op ν → Store ν × Except Error (Result ν)
  | .get ns key => (s,(s.aget c ns key).map Result.item)
  | .put ns key none => (s.adelete c ns key).map id (fun r => r.map (fun _ => .none))
  | .put ns key (some value) => (s.aput c ns key value).map id (fun r => r.map (fun _ => .none))
  | .search pre filter limit offset => (s,.ok (.items (s.asearch c pre filter limit offset)))
  | .listNamespaces pre suf maxDepth limit offset =>
    (s,.ok (.namespaces (s.alistNamespaces c pre suf maxDepth limit offset)))

/-- The first operation that fails ends the batch, with the results of those before it lost and
their effects kept. -/
def Store.abatch [DecidableEq ν] (s : Store ν) :
    List (Op ν) → Store ν × Except Error (List (Result ν))
  | [] => (s,.ok [])
  | op::ops =>
    match s.step c op with
    | (s',.error e) => (s',.error e)
    | (s',.ok r) => ((s'.abatch ops).1,(s'.abatch ops).2.map (fun rs => r::rs))

end Calls

section Memory

variable {ν : Type} (c : Setting ν)

def Item.named (ns : Namespace) (key : Text) (item : Item ν) : Bool :=
  decide (item.segments = ns ∧ item.key = key)

structure Memory (ν : Type) where
  items : List (Item ν)
  seen : List Namespace

def nameCheck (ns : Namespace) : Except Error Unit := do
  validateLgNamespace c ns
  discard (flattenNamespace c.namespaceSep ns)

def putCheck (ns : Namespace) (key : Text) : Except Error Unit := do
  validateLgNamespace c ns
  checkKey key
  discard (flattenNamespace c.namespaceSep ns)
  checkExternalId (packed c ns key)

def Op.check : Op ν → Except Error Unit
  | .get ns _ => nameCheck c ns
  | .put ns _ none => nameCheck c ns
  | .put ns key (some _) => putCheck c ns key
  | _ => .ok ()

def Memory.after (m : Memory ν) : Op ν → Memory ν
  | .put ns key none => { m with items := m.items.filter (fun i => !i.named ns key) }
  | .put ns key (some value) =>
    ⟨⟨ns,key,value⟩::m.items.filter (fun i => !i.named ns key),addSeen m.seen ns⟩
  | _ => m

def Memory.answer [DecidableEq ν] (m : Memory ν) : Op ν → Result ν
  | .get ns key => .item (m.items.find? (Item.named ns key))
  | .put .. => .none
  | .search pre filter limit offset =>
    .items (slice (m.items.filter (found c pre filter)) limit offset)
  | .listNamespaces pre suf maxDepth limit offset =>
    .namespaces (slice (arranged c (m.items.map Item.segments++m.seen) pre suf maxDepth)
      limit offset)

/-- Nothing happens where the check fails. -/
def checked {σ α : Type} (check : Except Error Unit) (before after : σ) (answer : α) :
    σ × Except Error α :=
  match check with
  | .error e => (before,.error e)
  | .ok _ => (after,.ok answer)

def Memory.step [DecidableEq ν] (m : Memory ν) (op : Op ν) : Memory ν × Except Error (Result ν) :=
  checked (op.check c) m (m.after op) (m.answer c op)

def Memory.batch [DecidableEq ν] (m : Memory ν) :
    List (Op ν) → Memory ν × Except Error (List (Result ν))
  | [] => (m,.ok [])
  | op::ops =>
    match m.step c op with
    | (m',.error e) => (m',.error e)
    | (m',.ok r) => ((m'.batch ops).1,(m'.batch ops).2.map (fun rs => r::rs))

end Memory

section Kept

variable {ν : Type} (c : Setting ν)

/-- No two documents share an id or an external id, and an item is under its packed name. -/
structure Kept (s : Store ν) : Prop where
  ids : (s.documents.map Document.id).Nodup
  fresh : ∀ d ∈ s.documents, d.id < s.nextId
  external : ∀ d ∈ s.documents, ∀ d' ∈ s.documents, ∀ e,
    d.externalId = some e → d'.externalId = some e → d.id = d'.id
  items : ∀ d ∈ s.documents, ∀ i, d.item = some i → d.externalId = some (packed c i.segments i.key)
  lengths : ∀ d ∈ s.documents, ∀ e, d.externalId = some e → e.length ≤ EXTERNAL_ID_MAX_LEN

def Store.written (s : Store ν) (ns : Namespace) (key : Text) (value : Record Text ν) : Store ν :=
  ((s.forgetExternalId (packed c ns key)).added (c.sha256 (c.valueToContent value))
    ⟨ns,key,value⟩ (packed c ns key)).saw ns

variable {c}

theorem flatten_ok {sep : Char} {ns : Namespace} {flat : Text}
    (h : flattenNamespace sep ns = .ok flat) : flat = [sep].intercalate ns := by
  unfold flattenNamespace at h
  split_ifs at h
  cases hs : checkSegments sep ns with
  | error x =>
    rw [hs] at h
    cases h
  | ok u =>
    rw [hs] at h
    cases h
    rfl

theorem externalId_check (ns : Namespace) (key : Text) :
    externalId c ns key = (nameCheck c ns).map (fun _ => packed c ns key) := by
  unfold externalId nameCheck
  cases hv : validateLgNamespace c ns with
  | error x => rfl
  | ok u =>
    cases hf : flattenNamespace c.namespaceSep ns with
    | error x => rfl
    | ok flat =>
      rw [packed, ← flatten_ok hf]
      rfl

theorem aget_eq (s : Store ν) (ns : Namespace) (key : Text) :
    s.aget c ns key = (nameCheck c ns).map (fun _ =>
      (s.getDocumentByExternalId (packed c ns key)).bind (fun d => d.item.bind (fun item =>
        if item.segments = ns then some item else none))) := by
  unfold Store.aget
  rw [externalId_check]
  cases nameCheck c ns with
  | error x => rfl
  | ok u => rfl

theorem adelete_eq (s : Store ν) (ns : Namespace) (key : Text) : s.adelete c ns key =
    checked (nameCheck c ns) s (s.forgetExternalId (packed c ns key)) () := by
  unfold Store.adelete
  rw [externalId_check]
  cases nameCheck c ns with
  | error x => rfl
  | ok u => rfl

theorem get_some {s : Store ν} {e : Text} {d : Document ν}
    (h : s.getDocumentByExternalId e = some d) : d ∈ s.documents ∧ d.externalId = some e := by
  unfold Store.getDocumentByExternalId at h
  have hd := List.find?_some h
  exact ⟨List.mem_of_find?_eq_some h, of_decide_eq_true hd⟩

theorem get_none {s : Store ν} {e : Text} :
    s.getDocumentByExternalId e = none ↔ ∀ d ∈ s.documents, d.externalId ≠ some e := by
  simp [Store.getDocumentByExternalId]

/-- Forgetting the document found removes exactly what is under the external id. -/
theorem forgotten_documents {s : Store ν} (h : Kept c s) (e : Text) :
    (s.forgetExternalId e).documents = s.documents.filter (fun d => d.externalId ≠ some e) := by
  unfold Store.forgetExternalId
  cases hd : s.getDocumentByExternalId e with
  | none =>
    symm
    apply List.filter_eq_self.mpr
    exact fun d hd' => decide_eq_true (get_none.mp hd d hd')
  | some d =>
    obtain ⟨hmem, hext⟩ := get_some hd
    show s.documents.filter (fun d' => d'.id ≠ d.id) = _
    apply List.filter_congr
    intro d' hd'
    apply decide_eq_decide.mpr
    apply not_congr
    constructor
    · intro hid
      rw [List.inj_on_of_nodup_map h.ids hd' hmem hid]
      exact hext
    · exact fun hext' => h.external d' hd' d hmem e hext' hext

/-- After that nothing stands in the way of a new document. -/
theorem remember_new {s : Store ν} {e : Text} (h : s.getDocumentByExternalId e = none)
    (checksum : Text) (item : Item ν) :
    s.remember checksum item e = s.createDocument checksum item e := by
  unfold Store.remember
  rw [h]
  cases hd : s.getDocumentByChecksum checksum with
  | none => rfl
  | some d =>
    have hne := get_none.mp h d (List.mem_of_find?_eq_some hd)
    simp [checksumDedupApplies, hne]

theorem forgotten_none {s : Store ν} (h : Kept c s) (e : Text) :
    (s.forgetExternalId e).getDocumentByExternalId e = none := by
  rw [get_none, forgotten_documents h]
  intro d hd
  exact of_decide_eq_true (List.mem_filter.mp hd).2

/-- There is nothing to forget under an external id that is too long. -/
theorem forgotten_long {s : Store ν} (h : Kept c s) {e : Text} (he : EXTERNAL_ID_MAX_LEN < e.length) :
    s.forgetExternalId e = s := by
  have hnone : s.getDocumentByExternalId e = none :=
    get_none.mpr (fun d hd hext => absurd (h.lengths d hd e hext) (not_le.mpr he))
  rw [Store.forgetExternalId, hnone]

theorem newExternalId_check (ns : Namespace) (key : Text) :
    putCheck c ns key = (newExternalId c ns key).bind checkExternalId := by
  unfold newExternalId putCheck
  cases hv : validateLgNamespace c ns with
  | error x => rfl
  | ok u =>
    cases hkey : checkKey key with
    | error x => rfl
    | ok u =>
      cases hf : flattenNamespace c.namespaceSep ns with
      | error x => rfl
      | ok flat =>
        rw [packed, ← flatten_ok hf]
        rfl

theorem newExternalId_ok {ns : Namespace} {key e : Text} (h : newExternalId c ns key = .ok e) :
    e = packed c ns key := by
  unfold newExternalId at h
  cases hv : validateLgNamespace c ns with
  | error x =>
    rw [hv] at h
    cases h
  | ok u =>
    cases hkey : checkKey key with
    | error x =>
      rw [hv, hkey] at h
      cases h
    | ok u =>
      cases hf : flattenNamespace c.namespaceSep ns with
      | error x =>
        rw [hv, hkey, hf] at h
        cases h
      | ok flat =>
        rw [hv, hkey, hf] at h
        cases h
        rw [packed, ← flatten_ok hf]

theorem aput_eq {s : Store ν} (h : Kept c s) (ns : Namespace) (key : Text) (value : Record Text ν) :
    s.aput c ns key value = checked (putCheck c ns key) s (s.written c ns key value) () := by
  unfold Store.aput
  rw [newExternalId_check]
  cases hnew : newExternalId c ns key with
  | error x => rfl
  | ok e =>
    have he := newExternalId_ok hnew
    subst he
    dsimp only [Except.bind]
    rw [remember_new (forgotten_none h _)]
    unfold Store.createDocument checkExternalId
    split_ifs with hlen
    · show (s.forgetExternalId _,_) = (s,_)
      rw [forgotten_long h hlen]
    · rfl

theorem forgotten_next (s : Store ν) (e : Text) : (s.forgetExternalId e).nextId = s.nextId := by
  unfold Store.forgetExternalId
  cases s.getDocumentByExternalId e with
  | none => rfl
  | some d => rfl

/-- Writing puts one document in place of what was under its external id. -/
theorem written_documents {s : Store ν} (h : Kept c s) (ns : Namespace) (key : Text)
    (value : Record Text ν) :
    (s.written c ns key value).documents =
      ⟨s.nextId,some (packed c ns key),c.sha256 (c.valueToContent value),false,
        some ⟨ns,key,value⟩⟩::
        s.documents.filter (fun d => d.externalId ≠ some (packed c ns key)) := by
  unfold Store.written
  rw [← forgotten_documents h, ← forgotten_next s]
  rfl

theorem forgotten_seen (s : Store ν) (e : Text) :
    (s.forgetExternalId e).seenNamespaces = s.seenNamespaces := by
  unfold Store.forgetExternalId
  cases s.getDocumentByExternalId e with
  | none => rfl
  | some d => rfl

theorem forgotten_kept {s : Store ν} (h : Kept c s) (e : Text) : Kept c (s.forgetExternalId e) := by
  have hmem : ∀ d ∈ (s.forgetExternalId e).documents, d ∈ s.documents := by
    rw [forgotten_documents h]
    exact fun d hd => (List.mem_filter.mp hd).1
  constructor
  · rw [forgotten_documents h]
    exact h.ids.sublist ((List.filter_sublist).map Document.id)
  · rw [forgotten_next]
    exact fun d hd => h.fresh d (hmem d hd)
  · exact fun d hd d' hd' => h.external d (hmem d hd) d' (hmem d' hd')
  · exact fun d hd => h.items d (hmem d hd)
  · exact fun d hd => h.lengths d (hmem d hd)

theorem written_kept {s : Store ν} (h : Kept c s) {ns : Namespace} {key : Text}
    (hlen : (packed c ns key).length ≤ EXTERNAL_ID_MAX_LEN) (value : Record Text ν) :
    Kept c (s.written c ns key value) := by
  have hnext : (s.written c ns key value).nextId = s.nextId+1 := by
    show (s.forgetExternalId _).nextId+1 = _
    rw [forgotten_next]
  have hold : ∀ d ∈ s.documents.filter (fun d => d.externalId ≠ some (packed c ns key)),
      d ∈ s.documents ∧ d.externalId ≠ some (packed c ns key) := by
    intro d hd
    rw [List.mem_filter] at hd
    exact ⟨hd.1, of_decide_eq_true hd.2⟩
  constructor
  · rw [written_documents h, List.map_cons, List.nodup_cons]
    refine ⟨fun hmem => ?_, h.ids.sublist ((List.filter_sublist).map Document.id)⟩
    obtain ⟨d, hd, hid⟩ := List.mem_map.mp hmem
    exact Nat.ne_of_lt (h.fresh d (hold d hd).1) hid
  · intro d hd
    rw [hnext]
    rw [written_documents h, List.mem_cons] at hd
    rcases hd with rfl | hd
    · exact Nat.lt_succ_self _
    · exact Nat.lt_succ_of_lt (h.fresh d (hold d hd).1)
  · intro d hd d' hd' e he he'
    rw [written_documents h, List.mem_cons] at hd hd'
    rcases hd with rfl | hd
    · rcases hd' with rfl | hd'
      · rfl
      · exact absurd (he'.trans he.symm) (hold d' hd').2
    · rcases hd' with rfl | hd'
      · exact absurd (he.trans he'.symm) (hold d hd).2
      · exact h.external d (hold d hd).1 d' (hold d' hd').1 e he he'
  · intro d hd i hi
    rw [written_documents h, List.mem_cons] at hd
    rcases hd with rfl | hd
    · cases hi
      rfl
    · exact h.items d (hold d hd).1 i hi
  · intro d hd e he
    rw [written_documents h, List.mem_cons] at hd
    rcases hd with rfl | hd
    · cases he
      exact hlen
    · exact h.lengths d (hold d hd).1 e he

theorem written_seen (s : Store ν) (ns : Namespace) (key : Text)
    (value : Record Text ν) :
    (s.written c ns key value).seenNamespaces = addSeen s.seenNamespaces ns := by
  show addSeen (s.forgetExternalId _).seenNamespaces ns = _
  rw [forgotten_seen]

theorem get_iff {s : Store ν} (h : Kept c s) {e : Text} {d : Document ν} :
    s.getDocumentByExternalId e = some d ↔ d ∈ s.documents ∧ d.externalId = some e := by
  refine ⟨get_some, ?_⟩
  rintro ⟨hd, hext⟩
  cases hget : s.getDocumentByExternalId e with
  | none => exact absurd hext (get_none.mp hget d hd)
  | some d' =>
    obtain ⟨hd', hext'⟩ := get_some hget
    rw [List.inj_on_of_nodup_map h.ids hd hd' (h.external d hd d' hd' e hext hext')]

def Store.after (c : Setting ν) (s : Store ν) : Op ν → Store ν
  | .put ns key none => s.forgetExternalId (packed c ns key)
  | .put ns key (some value) => s.written c ns key value
  | _ => s

def Store.answer [DecidableEq ν] (c : Setting ν) (s : Store ν) : Op ν → Result ν
  | .get ns key =>
    .item ((s.getDocumentByExternalId (packed c ns key)).bind (fun d =>
      d.item.bind (fun item => if item.segments = ns then some item else none)))
  | .put .. => .none
  | .search pre filter limit offset => .items (s.asearch c pre filter limit offset)
  | .listNamespaces pre suf maxDepth limit offset =>
    .namespaces (s.alistNamespaces c pre suf maxDepth limit offset)

/-- An operation is its check, and then what it does. -/
theorem step_eq [DecidableEq ν] {s : Store ν} (h : Kept c s) (op : Op ν) :
    s.step c op = checked (op.check c) s (s.after c op) (s.answer c op) := by
  cases op with
  | get ns key =>
    dsimp only [Store.step, Op.check]
    rw [aget_eq]
    cases nameCheck c ns with
    | error e => rfl
    | ok u => rfl
  | put ns key value =>
    cases value with
    | none =>
      dsimp only [Store.step, Op.check]
      rw [adelete_eq]
      cases nameCheck c ns with
      | error e => rfl
      | ok u => rfl
    | some value =>
      dsimp only [Store.step, Op.check]
      rw [aput_eq h]
      cases putCheck c ns key with
      | error e => rfl
      | ok u => rfl
  | search pre filter limit offset => rfl
  | listNamespaces pre suf maxDepth limit offset => rfl

theorem putCheck_length {ns : Namespace} {key : Text} (h : putCheck c ns key = .ok ()) :
    (packed c ns key).length ≤ EXTERNAL_ID_MAX_LEN := by
  rw [newExternalId_check] at h
  cases hnew : newExternalId c ns key with
  | error x =>
    rw [hnew] at h
    cases h
  | ok e =>
    rw [hnew, newExternalId_ok hnew] at h
    dsimp only [Except.bind] at h
    unfold checkExternalId at h
    split_ifs at h with hlen
    exact not_lt.mp hlen

theorem after_kept {s : Store ν} (h : Kept c s) {op : Op ν} (hop : op.check c = .ok ()) :
    Kept c (s.after c op) := by
  cases op with
  | get ns key => exact h
  | put ns key value =>
    cases value with
    | none => exact forgotten_kept h _
    | some value => exact written_kept h (putCheck_length hop) value
  | search pre filter limit offset => exact h
  | listNamespaces pre suf maxDepth limit offset => exact h

end Kept

end Uru.Integrations.LanggraphStore
