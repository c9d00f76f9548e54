import Uru.Storage.SessionLatest

/-!
# Deletions and fresh documents

At each deletion the session of the document has no document at or after the
cutoff, when two things hold: the last page of the scan leaves no such document
unread among the rows that its offset passes over, and after the scan none is
inserted into a session that waits to be forgotten.
-/

set_option autoImplicit false

namespace Uru.Storage.SessionExpiry

open Uru.Filter Uru.Lib Uru.Lib.Machine

variable {κ : Type} [LinearOrder κ] {key : Option DateTime → κ} {before : DateTime}

def Still (before : DateTime) (store : Store) (p : Session) : Prop :=
  ∀ d ∈ store.documents, d.session = some p → d.fresh before = false

instance (before : DateTime) (store : Store) : DecidablePred (Still before store) :=
  fun p => inferInstanceAs (Decidable (∀ d ∈ store.documents, d.session = some p → d.fresh before = false))

def Owned (store : Store) (p : Session) (ids : List Uuid) : Prop :=
  ∀ id ∈ ids, id ∈ store.used ∧ ∀ d ∈ store.documents, d.id = id → d.session = some p

namespace State

/-- The sessions that wait to be forgotten, the one in progress included. -/
def awaiting (s : State) : List Session :=
  match s.phase with
  | .select ns _ sid todo _ _ => (sid::todo).map (fun t => (ns,t))
  | .delete ns _ sid todo _ _ => (sid::todo).map (fun t => (ns,t))
  | _ => []

/-- The documents that `expire_sessions` deletes with an event. -/
def deletes (s : State) (e : Event) : List Document :=
  match e, s.phase with
  | .forgotten, .delete ns _ _ _ id _ => s.store.documents.filter (Store.addressed ns id)
  | .forgetFails true, .delete ns _ _ _ id _ => s.store.documents.filter (Store.addressed ns id)
  | _, _ => []

end State

/-- Each document deleted is of a session without a document at or after the
cutoff. -/
def Harmless (before : DateTime) (s : State) (e : Event) : Prop :=
  ∀ d ∈ s.deletes e, ∃ p ∈ d.session, Still before s.store p

instance (before : DateTime) (s : State) (e : Event) : Decidable (Harmless before s e) :=
  inferInstanceAs (Decidable (∀ d ∈ s.deletes e, ∃ p ∈ d.session, Still before s.store p))

/-- On the last page of a scan: of the rows passed over, none is at or after the
cutoff in a session that the pages show as lapsed. On an insertion: the document
is not at or after the cutoff in a session that waits to be forgotten. -/
def Timely (before : DateTime) (s : State) : Event → Prop
  | .listed l =>
    match s.phase with
    | .scan _ _ offset _ => (page l offset).length < pageSize →
        ∀ d ∈ l.take offset, ∀ p ∈ d.session, Lapsed before (s.pages++page l offset) p →
          d.fresh before = false
    | _ => True
  | .inserted d => ∀ p ∈ s.awaiting, d.session = some p → d.fresh before = false
  | _ => True

instance (before : DateTime) : ∀ s e, Decidable (Timely before s e)
  | ⟨_,.scan _ _ offset _,pages,_⟩, .listed l =>
    inferInstanceAs (Decidable ((page l offset).length < pageSize →
      ∀ d ∈ l.take offset, ∀ p ∈ d.session, Lapsed before (pages++page l offset) p →
        d.fresh before = false))
  | ⟨_,.select ..,_,_⟩, .listed _ | ⟨_,.delete ..,_,_⟩, .listed _ | ⟨_,.returned,_,_⟩, .listed _
  | ⟨_,.raised,_,_⟩, .listed _ => isTrue trivial
  | s, .inserted d =>
    inferInstanceAs (Decidable (∀ p ∈ s.awaiting, d.session = some p → d.fresh before = false))
  | _, .removed _ _ | _, .listFails | _, .forgotten | _, .forgetFails _ => isTrue trivial

theorem still_remove {store : Store} {p : Session} (h : Still before store p) (ns id : Uuid) :
    Still before (store.remove ns id) p :=
  fun d hd => h d (Store.mem_remove hd)

theorem owned_remove {store : Store} {p : Session} {ids : List Uuid} (h : Owned store p ids)
    (ns id : Uuid) : Owned (store.remove ns id) p ids :=
  fun i hi => ⟨(h i hi).1, fun d hd => (h i hi).2 d (Store.mem_remove hd)⟩

theorem still_insert {store : Store} {p : Session} {d : Document} {hid : d.id ∉ store.used}
    (h : Still before store p) (hd : d.session = some p → d.fresh before = false) :
    Still before (store.insert d hid) p := by
  intro e he hp
  rcases List.mem_cons.mp he with rfl | he
  · exact hd hp
  · exact h e he hp

theorem owned_insert {store : Store} {p : Session} {ids : List Uuid} {d : Document}
    {hid : d.id ∉ store.used} (h : Owned store p ids) : Owned (store.insert d hid) p ids := by
  refine fun i hi => ⟨List.mem_cons_of_mem _ (h i hi).1, fun e he hei => ?_⟩
  rcases List.mem_cons.mp he with rfl | he
  · exact absurd (hei ▸ (h i hi).1) hid
  · exact (h i hi).2 e he hei

theorem owned_matching {store : Store} {ns sid : Uuid} {ids : List Uuid} {rows : List Document}
    (h : Owned store (ns,sid) ids) (hrows : ∀ d ∈ rows, d ∈ store.rows ns) :
    Owned store (ns,sid)
      (ids++(rows.filter (fun d => d.sessionId = some sid)).map Document.id) := by
  intro i hi
  rcases List.mem_append.mp hi with hi | hi
  · exact h i hi
  · obtain ⟨d, hd, rfl⟩ := List.mem_map.mp hi
    obtain ⟨hd, hs⟩ := List.mem_filter.mp hd
    obtain ⟨hmem, hns⟩ := Store.mem_rows.mp (hrows d hd)
    refine ⟨store.known d hmem, fun e he hid => ?_⟩
    rw [Store.eq_of_id he hmem hid, Document.session, of_decide_eq_true hs, ← hns]
    rfl

theorem mem_page {l : List Document} {offset : ℕ} {d : Document} (h : d ∈ page l offset) : d ∈ l :=
  List.mem_of_mem_drop (List.mem_of_mem_take h)

/-- A short page is the last one: it ends the listing. -/
theorem mem_of_short {l : List Document} {offset : ℕ} (h : (page l offset).length < pageSize) :
    ∀ d, d ∈ l ↔ d ∈ l.take offset ∨ d ∈ page l offset := by
  have hwhole : page l offset = l.drop offset := by
    refine List.take_of_length_le ?_
    rw [page, List.length_take] at h
    omega
  intro d
  rw [hwhole, ← List.mem_append, List.take_append_drop]

theorem listed_mem {store : Store} {ns : Uuid} {l : List Document} (h : Listed key store ns l)
    {d : Document} : d ∈ l ↔ d ∈ store.rows ns := h.1.mem_iff

/-- While the scan runs the table of latest times is that of the pages; after it
no waiting session has a document at or after the cutoff, and the ids collected
are of the session. -/
def Sound (before : DateTime) (s : State) : Prop :=
  match s.phase with
  | .scan ns _ _ latest => Tallied s.pages latest ∧ ∀ d ∈ s.pages, d.namespaceId = ns
  | .select ns _ sid todo _ matching =>
    (∀ t ∈ sid::todo, Still before s.store (ns,t)) ∧ Owned s.store (ns,sid) matching
  | .delete ns _ sid todo id ids =>
    (∀ t ∈ sid::todo, Still before s.store (ns,t)) ∧ Owned s.store (ns,sid) (id::ids)
  | .returned => True
  | .raised => True

theorem sound_advance (s : State) (rest : List Uuid) : Sound before (s.advance rest) := by
  cases rest with
  | nil => trivial
  | cons ns rest => exact ⟨tallied_nil, fun d hd => absurd hd List.not_mem_nil⟩

theorem sound_resume {s : State} {ns : Uuid} {todo : List Uuid} (rest : List Uuid)
    (h : ∀ t ∈ todo, Still before s.store (ns,t)) : Sound before (s.resume ns rest todo) := by
  cases todo with
  | nil => exact sound_advance s rest
  | cons sid todo => exact ⟨h, by simp [Owned]⟩

theorem sound_forget {s : State} {ns sid : Uuid} {todo ids : List Uuid} (rest : List Uuid)
    (h : ∀ t ∈ sid::todo, Still before s.store (ns,t)) (hids : Owned s.store (ns,sid) ids) :
    Sound before (s.forget ns rest sid todo ids) := by
  cases ids with
  | nil => exact sound_resume rest (fun t ht => h t (List.mem_cons_of_mem _ ht))
  | cons id ids => exact ⟨h, hids⟩

theorem sound_scanned {s : State} {ns : Uuid} {rest : List Uuid} {offset : ℕ} {latest : Latest}
    {l : List Document} (hp : s.phase = .scan ns rest offset latest) (hs : Sound before s)
    (hl : Listed key s.store ns l) (hok : Timely before s (.listed l)) :
    Sound before (s.scanned before ns rest offset latest (page l offset)) := by
  rw [Sound, hp] at hs
  rw [Timely, hp] at hok
  obtain ⟨htally, hns⟩ := hs
  unfold State.scanned
  split
  · trivial
  · next latest' hnote =>
    have htally' := tallied_noteAll htally hnote
    have hns' : ∀ d ∈ s.pages++page l offset, d.namespaceId = ns := by
      intro d hd
      rcases List.mem_append.mp hd with hd | hd
      · exact hns d hd
      · exact (Store.mem_rows.mp ((listed_mem hl).mp (mem_page hd))).2
    by_cases hshort : (page l offset).length < pageSize
    · rw [if_pos hshort]
      refine sound_resume rest (fun sid hsid d hd hsession => ?_)
      have hlapsed := (mem_lapsing htally' hns' before).mp hsid
      have hdl := (listed_mem hl).mpr (Store.mem_rows_session hd hsession)
      rcases (mem_of_short hshort d).mp hdl with hover | hpage
      · exact hok hshort d hover (ns,sid) hsession hlapsed
      · exact hlapsed.2 d (List.mem_append_right _ hpage) hsession
    · rw [if_neg hshort]
      exact ⟨htally', hns'⟩

theorem sound_selected {s : State} {ns sid : Uuid} {rest todo matching : List Uuid} {offset : ℕ}
    {l : List Document} (hp : s.phase = .select ns rest sid todo offset matching)
    (hs : Sound before s) (hl : Listed key s.store ns l) :
    Sound before (s.selected ns rest sid todo offset matching (page l offset)) := by
  rw [Sound, hp] at hs
  have hrows : ∀ d ∈ page l offset, d ∈ s.store.rows ns := fun d hd => (listed_mem hl).mp (mem_page hd)
  have howned := owned_matching hs.2 hrows
  unfold State.selected
  split
  · exact sound_forget rest hs.1 howned
  · exact ⟨hs.1, howned⟩

theorem sound_write {s : State} {store : Store} (hs : Sound before s)
    (hstill : ∀ p ∈ s.awaiting, Still before s.store p → Still before store p)
    (howned : ∀ p ids, Owned s.store p ids → Owned store p ids) :
    Sound before { s with store := store } := by
  unfold Sound at hs ⊢
  unfold State.awaiting at hstill
  cases hp : s.phase with
  | scan => simpa only [hp] using hs
  | select ns rest sid todo offset matching =>
    simp only [hp] at hs hstill ⊢
    exact ⟨fun t ht => hstill (ns,t) (List.mem_map_of_mem ht) (hs.1 t ht), howned _ _ hs.2⟩
  | delete ns rest sid todo id ids =>
    simp only [hp] at hs hstill ⊢
    exact ⟨fun t ht => hstill (ns,t) (List.mem_map_of_mem ht) (hs.1 t ht), howned _ _ hs.2⟩
  | returned => trivial
  | raised => trivial

/-- One event keeps the invariant. -/
theorem sound_step (s : State) (e : Event) (t : State) (hs : Sound before s)
    (hok : Timely before s e) (h : step key before s e = some t) : Sound before t := by
  cases e with
  | inserted d =>
    rw [step] at h
    split at h
    · cases h
      exact sound_write hs (fun p hp hstill => still_insert hstill (hok p hp))
        (fun p ids hids => owned_insert hids)
    · cases h
  | removed ns id =>
    cases h
    exact sound_write hs (fun p _ hstill => still_remove hstill ns id)
      (fun p ids hids => owned_remove hids ns id)
  | listed l =>
    rw [step] at h
    split at h
    · next hp =>
      obtain ⟨hl, ht⟩ := Option.ite_none_right_eq_some.mp h
      cases ht
      exact sound_scanned hp hs hl hok
    · next hp =>
      obtain ⟨hl, ht⟩ := Option.ite_none_right_eq_some.mp h
      cases ht
      exact sound_selected hp hs hl
    · cases h
  | listFails =>
    rw [step] at h
    split at h
    · cases h
      trivial
    · next hp =>
      cases h
      rw [Sound, hp] at hs
      exact sound_resume _ (fun t ht => hs.1 t (List.mem_cons_of_mem _ ht))
    · cases h
  | forgotten =>
    rw [step] at h
    split at h
    · next hp =>
      cases h
      rw [Sound, hp] at hs
      exact sound_forget _ (fun t ht => still_remove (hs.1 t ht) _ _)
        (owned_remove (fun i hi => hs.2 i (List.mem_cons_of_mem _ hi)) _ _)
    · cases h
  | forgetFails gone =>
    rw [step] at h
    split at h
    · next hp =>
      cases h
      rw [Sound, hp] at hs
      refine sound_resume _ (fun t ht => ?_)
      have hstill := hs.1 t (List.mem_cons_of_mem _ ht)
      cases gone with
      | true => exact still_remove hstill _ _
      | false => exact hstill
    · cases h

theorem sound_harmless (s : State) (e : Event) (hs : Sound before s) : Harmless before s e := by
  have hdelete : ∀ {ns rest sid todo id ids}, s.phase = .delete ns rest sid todo id ids →
      ∀ d ∈ s.store.documents.filter (Store.addressed ns id), ∃ p ∈ d.session, Still before s.store p := by
    intro ns rest sid todo id ids hp d hd
    rw [Sound, hp] at hs
    obtain ⟨hmem, haddr⟩ := List.mem_filter.mp hd
    have hid : d.id = id := (of_decide_eq_true haddr).1
    exact ⟨(ns,sid), (hs.2 id List.mem_cons_self).2 d hmem hid, hs.1 sid List.mem_cons_self⟩
  unfold Harmless State.deletes
  split
  · next hp => exact hdelete hp
  · next hp => exact hdelete hp
  · simp

/-- Along every run of timely events, with any writes of other clients and any
failures, each deletion is harmless. -/
theorem timely_harmless (namespaces : List Uuid) (store : Store) (es : List Event)
    (hm : Meets (step key before) (Timely before) (start namespaces store) es) :
    Meets (step key before) (Harmless before) (start namespaces store) es :=
  meets_of_invariant sound_step (fun s e hs _ => sound_harmless s e hs) es
    _ (sound_advance _ namespaces) hm

end Uru.Storage.SessionExpiry
