import Uru.Filter.Calendar
import Uru.Lib.Listing
import Uru.Lib.Machine

/-!
# Expiry of sessions

`expire_sessions` reads the documents of a namespace page by page, keeps for
each session the latest effective time, and then forgets the sessions whose
latest time is before the cutoff. `forget_session` reads the documents once
more, page by page, and forgets those of the session one at a time. Each call
of the storage is one event; between two calls other clients insert and remove
documents. A listing comes in the order of creation, newest first, rows with
equal keys in any arrangement.
-/

set_option autoImplicit false

namespace Uru.Storage.SessionExpiry

open Uru.Filter Uru.Lib Uru.Lib.Machine

abbrev Uuid := ℕ

abbrev Session := Uuid × Uuid

structure Document where
  id : Uuid
  namespaceId : Uuid
  sessionId : Option Uuid
  sourceTimestamp : Option DateTime
  createdAt : Option DateTime
deriving DecidableEq

namespace Document

def session (d : Document) : Option Session := d.sessionId.map (fun sid => (d.namespaceId,sid))

def effective (d : Document) : Option DateTime := d.sourceTimestamp <|> d.createdAt

def fresh (cutoff : DateTime) (d : Document) : Bool :=
  d.effective.any (fun t => cutoff.micros ≤ t.micros)

end Document

/-- A session with documents whose times are all before the cutoff. -/
def Lapsed (cutoff : DateTime) (docs : List Document) (p : Session) : Prop :=
  (∃ d ∈ docs, d.session = some p ∧ d.effective.isSome) ∧
    ∀ d ∈ docs, d.session = some p → d.fresh cutoff = false

instance (cutoff : DateTime) (docs : List Document) : DecidablePred (Lapsed cutoff docs) :=
  fun p => inferInstanceAs (Decidable ((∃ d ∈ docs, d.session = some p ∧ d.effective.isSome) ∧
    ∀ d ∈ docs, d.session = some p → d.fresh cutoff = false))

/-- The table of documents with every id that was ever given out. -/
structure Store where
  documents : List Document
  used : List Uuid
  known : ∀ d ∈ documents, d.id ∈ used
  unique : (documents.map Document.id).Nodup

namespace Store

def rows (store : Store) (ns : Uuid) : List Document :=
  store.documents.filter (fun d => d.namespaceId = ns)

/-- A document under a new id. -/
def insert (store : Store) (d : Document) (h : d.id ∉ store.used) : Store where
  documents := d::store.documents
  used := d.id::store.used
  known := by
    intro e he
    rcases List.mem_cons.mp he with rfl | he
    · exact List.mem_cons_self
    · exact List.mem_cons_of_mem _ (store.known e he)
  unique := by
    rw [List.map_cons, List.nodup_cons]
    refine ⟨fun hm => ?_, store.unique⟩
    obtain ⟨e, he, hid⟩ := List.mem_map.mp hm
    exact h (hid ▸ store.known e he)

def addressed (ns id : Uuid) (d : Document) : Bool := d.id = id ∧ d.namespaceId = ns

def remove (store : Store) (ns id : Uuid) : Store where
  documents := store.documents.filter (fun d => !addressed ns id d)
  used := store.used
  known := fun d hd => store.known d (List.mem_of_mem_filter hd)
  unique := store.unique.sublist (List.filter_sublist.map _)

theorem eq_of_id {store : Store} {d e : Document} (hd : d ∈ store.documents)
    (he : e ∈ store.documents) (h : d.id = e.id) : d = e :=
  List.inj_on_of_nodup_map store.unique hd he h

theorem mem_remove {store : Store} {ns id : Uuid} {d : Document}
    (hd : d ∈ (store.remove ns id).documents) : d ∈ store.documents :=
  List.mem_of_mem_filter hd

theorem mem_rows {store : Store} {ns : Uuid} {d : Document} :
    d ∈ store.rows ns ↔ d ∈ store.documents ∧ d.namespaceId = ns := by
  rw [rows, List.mem_filter, decide_eq_true_eq]

theorem mem_rows_session {store : Store} {p : Session} {d : Document} (hd : d ∈ store.documents)
    (hp : d.session = some p) : d ∈ store.rows p.1 := by
  obtain ⟨sid, -, rfl⟩ := Option.map_eq_some_iff.mp hp
  exact mem_rows.mpr ⟨hd, rfl⟩

end Store

abbrev Latest := List (Uuid × UtcTime)

def record (sid : Uuid) (ts : UtcTime) : Latest → Latest
  | [] => [(sid,ts)]
  | (t,prev)::rest =>
    if t = sid then (t,if prev.fields < ts.fields then ts else prev)::rest
    else (t,prev)::record sid ts rest

/-- One turn of the loop over a page; `none` where `_to_utc` raises. -/
def note (latest : Latest) (d : Document) : Option Latest :=
  match d.sessionId, d.effective with
  | some sid, some t => t.toUtc.map (fun ts => record sid ts latest)
  | _, _ => some latest

def noteAll (latest : Latest) (docs : List Document) : Option Latest := docs.foldlM note latest

def lapsing (before : DateTime) (latest : Latest) : List Uuid :=
  (latest.filter (fun p => p.2.civil.toMicros < before.micros)).map Prod.fst

inductive Phase
  | scan (ns : Uuid) (rest : List Uuid) (offset : ℕ) (latest : Latest)
  | select (ns : Uuid) (rest : List Uuid) (sid : Uuid) (todo : List Uuid) (offset : ℕ)
      (matching : List Uuid)
  | delete (ns : Uuid) (rest : List Uuid) (sid : Uuid) (todo : List Uuid) (id : Uuid)
      (ids : List Uuid)
  | returned
  | raised

/-- The rows of the scan of the present namespace so far are kept in `pages`. -/
structure State where
  store : Store
  phase : Phase
  pages : List Document
  expired : ℕ

inductive Event
  | inserted (d : Document)
  | removed (ns id : Uuid)
  | listed (l : List Document)
  | listFails
  | forgotten
  | forgetFails (gone : Bool)

def pageSize : ℕ := 500

namespace State

def advance (s : State) : List Uuid → State
  | [] => { s with phase := .returned }
  | ns::rest => { s with phase := .scan ns rest 0 [], pages := [] }

def resume (s : State) (ns : Uuid) (rest : List Uuid) : List Uuid → State
  | [] => s.advance rest
  | sid::todo => { s with phase := .select ns rest sid todo 0 [] }

/-- On to the next document of the session; after the last one the session is
counted. -/
def forget (s : State) (ns : Uuid) (rest : List Uuid) (sid : Uuid) (todo : List Uuid) :
    List Uuid → State
  | [] => { s with expired := s.expired+1 }.resume ns rest todo
  | id::ids => { s with phase := .delete ns rest sid todo id ids }

def scanned (s : State) (before : DateTime) (ns : Uuid) (rest : List Uuid) (offset : ℕ)
    (latest : Latest) (page : List Document) : State :=
  match noteAll latest page with
  | none => { s with phase := .raised }
  | some latest =>
    if page.length < pageSize then
      { s with pages := s.pages++page }.resume ns rest (lapsing before latest)
    else { s with phase := .scan ns rest (offset+pageSize) latest, pages := s.pages++page }

def selected (s : State) (ns : Uuid) (rest : List Uuid) (sid : Uuid) (todo : List Uuid) (offset : ℕ)
    (matching : List Uuid) (page : List Document) : State :=
  let matching := matching++(page.filter (fun d => d.sessionId = some sid)).map Document.id
  if page.length < pageSize then s.forget ns rest sid todo matching
  else { s with phase := .select ns rest sid todo (offset+pageSize) matching }

end State

section Step

variable {κ : Type} [LinearOrder κ] (key : Option DateTime → κ) (before : DateTime)

def Newest (d e : Document) : Prop := key e.createdAt ≤ key d.createdAt

instance : DecidableRel (Newest key) := fun d e =>
  inferInstanceAs (Decidable (key e.createdAt ≤ key d.createdAt))

instance : IsTrans Document (Newest key) := ⟨fun _ _ _ h h' => le_trans (α := κ) h' h⟩

instance : Std.Total (Newest key) := ⟨fun d e => le_total (key e.createdAt) (key d.createdAt)⟩

/-- The rows of a namespace as a listing may arrange them. -/
def Listed (store : Store) (ns : Uuid) (l : List Document) : Prop :=
  Arranged (Newest key) (store.rows ns) l

instance (store : Store) (ns : Uuid) : DecidablePred (Listed key store ns) := fun l =>
  inferInstanceAs (Decidable (l.Perm (store.rows ns) ∧ l.Pairwise (Newest key)))

def page (l : List Document) (offset : ℕ) : List Document := (l.drop offset).take pageSize

def step (s : State) : Event → Option State
  | .inserted d => if h : d.id ∉ s.store.used then some { s with store := s.store.insert d h } else none
  | .removed ns id => some { s with store := s.store.remove ns id }
  | .listed l =>
    match s.phase with
    | .scan ns rest offset latest =>
      if Listed key s.store ns l then some (s.scanned before ns rest offset latest (page l offset))
      else none
    | .select ns rest sid todo offset matching =>
      if Listed key s.store ns l then some (s.selected ns rest sid todo offset matching (page l offset))
      else none
    | _ => none
  | .listFails =>
    match s.phase with
    | .scan .. => some { s with phase := .raised }
    | .select ns rest _ todo _ _ => some (s.resume ns rest todo)
    | _ => none
  | .forgotten =>
    match s.phase with
    | .delete ns rest sid todo id ids =>
      some ({ s with store := s.store.remove ns id }.forget ns rest sid todo ids)
    | _ => none
  | .forgetFails gone =>
    match s.phase with
    | .delete ns rest _ todo id _ =>
      some ({ s with store := if gone then s.store.remove ns id else s.store }.resume ns rest todo)
    | _ => none

end Step

def start (namespaces : List Uuid) (store : Store) : State :=
  { store := store, phase := .returned, pages := [], expired := 0 : State }.advance namespaces

end Uru.Storage.SessionExpiry
