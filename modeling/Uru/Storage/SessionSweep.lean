import Uru.Storage.SessionSafety

/-!
# A sweep without other clients

With no writes of others and no failures, and with every row that an offset
passes over read on an earlier page, `expire_sessions` returns, whatever
arrangements the listings come in. It has deleted the documents of the lapsed
sessions and no others, and has counted each of these sessions once.
-/

set_option autoImplicit false

namespace Uru.Storage.SessionExpiry

open Uru.Filter Uru.Lib Uru.Lib.Machine

def Quiet : Event → Prop
  | .listed _ => True
  | .forgotten => True
  | _ => False

/-- On the last page, the rows passed over that the scan looks for were on the
pages before. -/
def Covers (s : State) : Event → Prop
  | .listed l =>
    match s.phase with
    | .scan _ _ offset _ => (page l offset).length < pageSize →
        ∀ d ∈ l.take offset, d.session ≠ none → d ∈ s.pages
    | .select _ _ sid _ offset matching => (page l offset).length < pageSize →
        ∀ d ∈ l.take offset, d.sessionId = some sid → d.id ∈ matching
    | _ => True
  | _ => True

def kept (docs : List Document) (gone : Finset Session) : List Document :=
  docs.filter (fun d => d.session.all (fun p => p ∉ gone))

def lapsedSessions (before : DateTime) (namespaces : List Uuid) (docs : List Document) :
    Finset Session :=
  (docs.filterMap Document.session).toFinset.filter
    (fun p => p.1 ∈ namespaces ∧ Lapsed before docs p)

section Sets

variable {before : DateTime} {docs : List Document}

theorem mem_lapsedSessions {namespaces : List Uuid} {p : Session} :
    p ∈ lapsedSessions before namespaces docs ↔ p.1 ∈ namespaces ∧ Lapsed before docs p := by
  rw [lapsedSessions, Finset.mem_filter, List.mem_toFinset, List.mem_filterMap]
  refine and_iff_right_of_imp (fun h => ?_)
  obtain ⟨d, hd, hp, -⟩ := h.2.1
  exact ⟨d, hd, hp⟩

theorem mem_kept {gone : Finset Session} {d : Document} :
    d ∈ kept docs gone ↔ d ∈ docs ∧ ∀ p, d.session = some p → p ∉ gone := by
  rw [kept, List.mem_filter, Option.all_eq_true]
  simp only [decide_eq_true_eq]

theorem kept_empty : kept docs ∅ = docs := by
  refine List.filter_eq_self.mpr (fun d _ => ?_)
  cases d.session with
  | none => rfl
  | some p => simp

theorem kept_insert (gone : Finset Session) (p : Session) :
    (kept docs gone).filter (fun d => d.session ≠ some p) = kept docs (insert p gone) := by
  rw [kept, kept, List.filter_filter]
  refine List.filter_congr (fun d _ => ?_)
  cases d.session with
  | none => rfl
  | some q =>
    rw [Option.all_some, Option.all_some, Bool.eq_iff_iff]
    simp [not_or]

theorem lapsed_congr {xs ys : List Document} {p : Session}
    (h : ∀ d, d.session = some p → (d ∈ xs ↔ d ∈ ys)) : Lapsed before xs p ↔ Lapsed before ys p := by
  have hmono : ∀ {xs ys : List Document}, (∀ d, d.session = some p → (d ∈ xs ↔ d ∈ ys)) →
      Lapsed before xs p → Lapsed before ys p := by
    rintro xs ys h ⟨⟨d, hd, hp, ht⟩, hold⟩
    exact ⟨⟨d, (h d hp).mp hd, hp, ht⟩, fun e he hep => hold e ((h e hep).mpr he) hep⟩
  exact ⟨hmono h, hmono (fun d hp => (h d hp).symm)⟩

/-- Among the documents kept, a session lapsed if it did before and is not gone. -/
theorem lapsed_kept {gone : Finset Session} {p : Session} :
    Lapsed before (kept docs gone) p ↔ p ∉ gone ∧ Lapsed before docs p := by
  by_cases hp : p ∈ gone
  · refine iff_of_false ?_ (fun h => h.1 hp)
    rintro ⟨⟨d, hd, hdp, -⟩, -⟩
    exact (mem_kept.mp hd).2 p hdp hp
  · rw [and_iff_right hp]
    refine lapsed_congr (fun d hdp => ?_)
    rw [mem_kept, and_iff_left]
    intro q hq
    rw [hdp] at hq
    cases hq
    exact hp

end Sets

section Loops

variable {κ : Type} [LinearOrder κ] {key : Option DateTime → κ} {before : DateTime}
  {P : State → Prop}

theorem exists_listed (key : Option DateTime → κ) (store : Store) (ns : Uuid) :
    ∃ l, Listed key store ns l := exists_arranged (store.rows ns)

theorem step_scan {s t : State} {e : Event} {ns : Uuid} {rest : List Uuid} {offset : ℕ}
    {latest : Latest} (hp : s.phase = .scan ns rest offset latest) (hq : Quiet e)
    (h : step key before s e = some t) : ∃ l, e = .listed l ∧ Listed key s.store ns l ∧
      t = s.scanned before ns rest offset latest (page l offset) := by
  cases e with
  | listed l =>
    simp only [step, hp] at h
    obtain ⟨hl, ht⟩ := Option.ite_none_right_eq_some.mp h
    exact ⟨l, rfl, hl, (Option.some.inj ht).symm⟩
  | forgotten =>
    simp only [step, hp] at h
    cases h
  | _ => exact hq.elim

theorem step_select {s t : State} {e : Event} {ns sid : Uuid} {rest todo matching : List Uuid}
    {offset : ℕ} (hp : s.phase = .select ns rest sid todo offset matching) (hq : Quiet e)
    (h : step key before s e = some t) : ∃ l, e = .listed l ∧ Listed key s.store ns l ∧
      t = s.selected ns rest sid todo offset matching (page l offset) := by
  cases e with
  | listed l =>
    simp only [step, hp] at h
    obtain ⟨hl, ht⟩ := Option.ite_none_right_eq_some.mp h
    exact ⟨l, rfl, hl, (Option.some.inj ht).symm⟩
  | forgotten =>
    simp only [step, hp] at h
    cases h
  | _ => exact hq.elim

theorem step_delete {s t : State} {e : Event} {ns sid id : Uuid} {rest todo ids : List Uuid}
    (hp : s.phase = .delete ns rest sid todo id ids) (hq : Quiet e)
    (h : step key before s e = some t) :
    t = { s with store := s.store.remove ns id }.forget ns rest sid todo ids := by
  cases e with
  | listed l =>
    simp only [step, hp] at h
    cases h
  | forgotten =>
    simp only [step, hp] at h
    exact (Option.some.inj h).symm
  | _ => exact hq.elim

theorem page_full {store : Store} {ns : Uuid} {l : List Document} {offset : ℕ}
    (hl : Listed key store ns l) (h : ¬ (page l offset).length < pageSize) :
    (store.rows ns).length-(offset+pageSize) < (store.rows ns).length-offset := by
  rw [page, List.length_take, List.length_drop, hl.1.length_eq] at h
  unfold pageSize at *
  omega

/-- The loop over the ids: the documents of the session are deleted, and the
session is counted. -/
theorem forget_inevitable {ns sid : Uuid} {rest todo : List Uuid} {docs : List Document} {n : ℕ}
    (hnext : ∀ s : State, s.store.documents = docs.filter (fun d => d.session ≠ some (ns,sid)) →
      s.expired = n+1 → Inevitable (step key before) Quiet Covers P (s.resume ns rest todo))
    (ids removed : List Uuid) (s : State)
    (hdocs : s.store.documents =
      docs.filter (fun d => d.session = some (ns,sid) → d.id ∉ removed))
    (hall : ∀ d ∈ docs, d.session = some (ns,sid) → d.id ∈ removed ∨ d.id ∈ ids)
    (honly : ∀ id ∈ ids, ∀ d ∈ docs, d.id = id → d.session = some (ns,sid))
    (hn : s.expired = n) :
    Inevitable (step key before) Quiet Covers P (s.forget ns rest sid todo ids) := by
  induction ids generalizing removed s with
  | nil =>
    refine hnext _ ?_ (congrArg (·+1) hn)
    rw [hdocs]
    refine List.filter_congr (fun d hd => ?_)
    rw [decide_eq_decide]
    refine imp_congr_right (fun hp => iff_of_false (fun h => ?_) id)
    exact (hall d hd hp).elim h List.not_mem_nil
  | cons id ids ih =>
    have hp : (s.forget ns rest sid todo (id::ids)).phase = .delete ns rest sid todo id ids := rfl
    refine .next ⟨.forgotten, _, trivial, rfl⟩ (fun e t hq _ h => ?_)
    rw [step_delete hp hq h]
    refine ih (id::removed) _ ?_ ?_ (fun i hi => honly i (List.mem_cons_of_mem _ hi)) hn
    · change s.store.documents.filter _ = _
      rw [hdocs, List.filter_filter]
      refine List.filter_congr (fun d hd => ?_)
      rw [Bool.eq_iff_iff]
      simp only [Store.addressed, Bool.and_eq_true, Bool.not_eq_true', decide_eq_false_iff_not,
        decide_eq_true_eq, List.mem_cons, not_or]
      constructor
      · rintro ⟨hne, hold⟩ hsession
        refine ⟨fun hid => hne ⟨hid, ?_⟩, hold hsession⟩
        obtain ⟨r, -, hr⟩ := Option.map_eq_some_iff.mp hsession
        exact congrArg Prod.fst hr
      · intro hnew
        refine ⟨fun ⟨hid, _⟩ => ?_, fun hsession => (hnew hsession).2⟩
        exact (hnew (honly id List.mem_cons_self d hd hid)).1 hid
    · intro d hd hsession
      rcases hall d hd hsession with hold | hnew
      · exact .inl (List.mem_cons_of_mem _ hold)
      · rcases List.mem_cons.mp hnew with rfl | hnew
        · exact .inl List.mem_cons_self
        · exact .inr hnew

/-- The pages of `forget_session`: the ids of all documents of the session are
collected, and of no others. -/
theorem select_inevitable {ns sid : Uuid} {rest todo : List Uuid} {store : Store} {n : ℕ}
    (hnext : ∀ (s : State) (ids : List Uuid), s.store = store → s.expired = n →
      (∀ d ∈ store.documents, d.session = some (ns,sid) → d.id ∈ ids) →
      Owned store (ns,sid) ids →
      Inevitable (step key before) Quiet Covers P (s.forget ns rest sid todo ids))
    (offset : ℕ) (matching : List Uuid) (s : State)
    (hp : s.phase = .select ns rest sid todo offset matching) (hs : s.store = store)
    (hn : s.expired = n) (howned : Owned store (ns,sid) matching) :
    Inevitable (step key before) Quiet Covers P s := by
  induction hm : (store.rows ns).length-offset using Nat.strong_induction_on
    generalizing offset matching s with
  | _ m ih =>
    obtain ⟨l₀, hl₀⟩ := exists_listed key s.store ns
    have hcan : step key before s (.listed l₀) =
        some (s.selected ns rest sid todo offset matching (page l₀ offset)) := by
      simp only [step, hp, if_pos hl₀]
    refine .next ⟨.listed l₀, _, trivial, hcan⟩ (fun e t hq hok h => ?_)
    obtain ⟨l, rfl, hl, rfl⟩ := step_select hp hq h
    rw [Covers, hp] at hok
    rw [hs] at hl
    have hrows : ∀ d ∈ page l offset, d ∈ store.rows ns :=
      fun d hd => (listed_mem hl).mp (mem_page hd)
    have howned' := owned_matching howned hrows
    unfold State.selected
    by_cases hshort : (page l offset).length < pageSize
    · rw [if_pos hshort]
      refine hnext s _ hs hn (fun d hd hsession => ?_) howned'
      have hsid : d.sessionId = some sid := by
        obtain ⟨r, hr, he⟩ := Option.map_eq_some_iff.mp hsession
        cases he
        exact hr
      rw [List.mem_append]
      have hdl := (listed_mem hl).mpr (Store.mem_rows_session hd hsession)
      rcases (mem_of_short hshort d).mp hdl with hover | hpage
      · exact .inl (hok hshort d hover hsid)
      · exact .inr (List.mem_map_of_mem (List.mem_filter.mpr ⟨hpage, decide_eq_true hsid⟩))
    · rw [if_neg hshort]
      exact ih _ (hm ▸ page_full hl hshort) _ _ _ rfl hs hn howned' rfl

/-- The loop over the lapsed sessions of a namespace. -/
theorem resume_inevitable {ns : Uuid} {rest : List Uuid} {docs : List Document}
    {target : Finset Session}
    (hnext : ∀ s : State, s.store.documents = kept docs target → s.expired = target.card →
      Inevitable (step key before) Quiet Covers P (s.advance rest))
    (todo : List Uuid) (gone : Finset Session) (s : State)
    (hdocs : s.store.documents = kept docs gone) (hn : s.expired = gone.card)
    (hnodup : todo.Nodup) (hnew : ∀ t ∈ todo, (ns,t) ∉ gone)
    (htarget : ∀ p, p ∈ target ↔ p ∈ gone ∨ p.1 = ns ∧ p.2 ∈ todo) :
    Inevitable (step key before) Quiet Covers P (s.resume ns rest todo) := by
  induction todo generalizing gone s with
  | nil =>
    have he : target = gone := Finset.ext (fun p => by simp [htarget])
    rw [he] at hnext
    exact hnext s hdocs hn
  | cons sid todo ih =>
    obtain ⟨hsid, hnodup⟩ := List.nodup_cons.mp hnodup
    have hcard : (insert (ns,sid) gone).card = gone.card+1 :=
      Finset.card_insert_of_notMem (hnew sid List.mem_cons_self)
    refine select_inevitable ?_ 0 [] _ rfl rfl hn (by simp [Owned])
    intro u ids hu hnu hall howned
    have hall' : u.store.documents = s.store.documents.filter
        (fun d => d.session = some (ns,sid) → d.id ∉ ([] : List Uuid)) := by
      rw [hu]
      exact (List.filter_eq_self.mpr (fun d _ => by simp)).symm
    refine forget_inevitable ?_ ids [] u hall' ?_ ?_ hnu
    · intro v hv hnv
      refine ih (insert (ns,sid) gone) v ?_ (hnv.trans hcard.symm) hnodup ?_ ?_
      · rw [hv, hdocs, kept_insert]
      · intro t ht hmem
        rcases Finset.mem_insert.mp hmem with he | hmem
        · cases he
          exact hsid ht
        · exact hnew t (List.mem_cons_of_mem _ ht) hmem
      · intro p
        rw [htarget, Finset.mem_insert, List.mem_cons]
        constructor
        · rintro (hg | ⟨rfl, rfl | ht⟩)
          · exact .inl (.inr hg)
          · exact .inl (.inl rfl)
          · exact .inr ⟨rfl, ht⟩
        · rintro ((rfl | hg) | ⟨rfl, ht⟩)
          · exact .inr ⟨rfl, .inl rfl⟩
          · exact .inl hg
          · exact .inr ⟨rfl, .inr ht⟩
    · exact fun d hd hsession => .inr (hall d hd hsession)
    · exact fun i hi => (howned i hi).2

/-- The pages of the scan: the sessions picked are the lapsed ones of the
namespace. -/
theorem scan_inevitable {ns : Uuid} {rest : List Uuid} {store : Store} {n : ℕ}
    (hutc : ∀ d ∈ store.rows ns, d.sessionId ≠ none → ∀ t, d.effective = some t → hasUtc t)
    (hnext : ∀ (s : State) (todo : List Uuid), s.store = store → s.expired = n → todo.Nodup →
      (∀ sid, sid ∈ todo ↔ Lapsed before store.documents (ns,sid)) →
      Inevitable (step key before) Quiet Covers P (s.resume ns rest todo))
    (offset : ℕ) (latest : Latest) (s : State) (hp : s.phase = .scan ns rest offset latest)
    (hs : s.store = store) (hn : s.expired = n) (htally : Tallied s.pages latest)
    (hpages : ∀ d ∈ s.pages, d ∈ store.rows ns) :
    Inevitable (step key before) Quiet Covers P s := by
  induction hm : (store.rows ns).length-offset using Nat.strong_induction_on
    generalizing offset latest s with
  | _ m ih =>
    obtain ⟨l₀, hl₀⟩ := exists_listed key s.store ns
    have hcan : step key before s (.listed l₀) =
        some (s.scanned before ns rest offset latest (page l₀ offset)) := by
      simp only [step, hp, if_pos hl₀]
    refine .next ⟨.listed l₀, _, trivial, hcan⟩ (fun e t hq hok h => ?_)
    obtain ⟨l, rfl, hl, rfl⟩ := step_scan hp hq h
    rw [Covers, hp] at hok
    rw [hs] at hl
    have hpage : ∀ d ∈ page l offset, d ∈ store.rows ns :=
      fun d hd => (listed_mem hl).mp (mem_page hd)
    obtain ⟨latest', hnote⟩ := noteAll_isSome (fun d hd => hutc d (hpage d hd)) latest
    have htally' := tallied_noteAll htally hnote
    have hpages' : ∀ d ∈ s.pages++page l offset, d ∈ store.rows ns := by
      intro d hd
      exact (List.mem_append.mp hd).elim (hpages d) (hpage d)
    unfold State.scanned
    rw [hnote]
    by_cases hshort : (page l offset).length < pageSize
    · simp only [if_pos hshort]
      refine hnext _ _ hs hn (lapsing_nodup htally' before) (fun sid => ?_)
      rw [mem_lapsing htally' (fun d hd => (Store.mem_rows.mp (hpages' d hd)).2)]
      refine lapsed_congr (fun d hsession => ⟨fun hd => (Store.mem_rows.mp (hpages' d hd)).1, fun hd => ?_⟩)
      rw [List.mem_append]
      have hdl := (listed_mem hl).mpr (Store.mem_rows_session hd hsession)
      refine ((mem_of_short hshort d).mp hdl).imp_left (fun hover => hok hshort d hover ?_)
      rw [hsession]
      exact Option.some_ne_none _
    · simp only [if_neg hshort]
      exact ih _ (hm ▸ page_full hl hshort) _ _ _ rfl hs hn htally' hpages' rfl

/-- The loop over the namespaces. -/
theorem advance_inevitable {namespaces : List Uuid} {docs : List Document}
    (hutc : ∀ d ∈ docs, d.namespaceId ∈ namespaces → d.sessionId ≠ none →
      ∀ t, d.effective = some t → hasUtc t)
    (hnext : ∀ s : State, s.phase = .returned →
      s.store.documents = kept docs (lapsedSessions before namespaces docs) →
      s.expired = (lapsedSessions before namespaces docs).card → P s)
    (rest finished : List Uuid) (hrest : namespaces = finished++rest) (s : State)
    (hdocs : s.store.documents = kept docs (lapsedSessions before finished docs))
    (hn : s.expired = (lapsedSessions before finished docs).card) :
    Inevitable (step key before) Quiet Covers P (s.advance rest) := by
  induction rest generalizing finished s with
  | nil =>
    rw [List.append_nil] at hrest
    subst hrest
    exact .reached (hnext _ rfl hdocs hn)
  | cons ns rest ih =>
    replace hdocs : (s.advance (ns::rest)).store.documents =
      kept docs (lapsedSessions before finished docs) := hdocs
    refine scan_inevitable ?_ ?_ 0 [] _ rfl rfl hn tallied_nil
      (fun d hd => absurd hd List.not_mem_nil)
    · intro d hd
      obtain ⟨hmem, hns⟩ := Store.mem_rows.mp hd
      rw [hdocs] at hmem
      refine hutc d (mem_kept.mp hmem).1 ?_
      rw [hns, hrest]
      exact List.mem_append_right _ List.mem_cons_self
    · intro u todo hu hnu hnodup htodo
      rw [hdocs] at htodo
      refine resume_inevitable
        (ih (finished++[ns]) (by rw [hrest, List.append_assoc]; rfl)) todo _ u (hu ▸ hdocs) hnu hnodup ?_ ?_
      · exact fun t ht => (lapsed_kept.mp ((htodo t).mp ht)).1
      · rintro ⟨m, t⟩
        rw [mem_lapsedSessions, mem_lapsedSessions, htodo, lapsed_kept, mem_lapsedSessions,
          List.mem_append, List.mem_singleton]
        constructor
        · rintro ⟨hfin | rfl, hl⟩
          · exact .inl ⟨hfin, hl⟩
          · by_cases hfin : m ∈ finished
            · exact .inl ⟨hfin, hl⟩
            · exact .inr ⟨rfl, fun h => hfin h.1, hl⟩
        · rintro (⟨hfin, hl⟩ | ⟨rfl, -, hl⟩)
          · exact ⟨.inl hfin, hl⟩
          · exact ⟨.inr rfl, hl⟩

end Loops

section Boundaries

variable {κ : Type} [LinearOrder κ] {key : Option DateTime → κ} {before : DateTime}
  {P : State → Prop}

/-- No page boundary falls between two rows with equal keys. -/
def Clear (key : Option DateTime → κ) (s : State) : Event → Prop
  | .listed l =>
    match s.phase with
    | .scan _ _ offset _ => ∀ d ∈ l.take offset, ∀ e ∈ l.drop offset, ¬ Newest key e d
    | .select _ _ _ _ offset _ => ∀ d ∈ l.take offset, ∀ e ∈ l.drop offset, ¬ Newest key e d
    | _ => True
  | _ => True

/-- The pages of a loop in progress hold the rows before its offset. -/
def Read (key : Option DateTime → κ) (s : State) : Prop :=
  match s.phase with
  | .scan ns _ offset _ => ∃ l, Listed key s.store ns l ∧ ∀ d ∈ l.take offset, d ∈ s.pages
  | .select ns _ sid _ offset matching =>
    ∃ l, Listed key s.store ns l ∧ ∀ d ∈ l.take offset, d.sessionId = some sid → d.id ∈ matching
  | _ => True

theorem store_rows_nodup (store : Store) (ns : Uuid) : (store.rows ns).Nodup :=
  (List.Nodup.of_map _ store.unique).filter _

theorem read_advance (s : State) (rest : List Uuid) : Read key (s.advance rest) := by
  cases rest with
  | nil => trivial
  | cons ns rest =>
    obtain ⟨l, hl⟩ := exists_listed key s.store ns
    exact ⟨l, hl, by simp⟩

theorem read_resume (s : State) (ns : Uuid) (rest todo : List Uuid) :
    Read key (s.resume ns rest todo) := by
  cases todo with
  | nil => exact read_advance s rest
  | cons sid todo =>
    obtain ⟨l, hl⟩ := exists_listed key s.store ns
    exact ⟨l, hl, by simp⟩

theorem read_forget (s : State) (ns : Uuid) (rest : List Uuid) (sid : Uuid) (todo ids : List Uuid) :
    Read key (s.forget ns rest sid todo ids) := by
  cases ids with
  | nil => exact read_resume _ ns rest todo
  | cons id ids => trivial

/-- The rows up to the end of a page are those before it and those on it. -/
theorem take_page {l : List Document} {offset : ℕ} {d : Document}
    (h : d ∈ l.take (offset+pageSize)) : d ∈ l.take offset ∨ d ∈ page l offset := by
  rw [List.take_add, List.mem_append] at h
  exact h

theorem read_step (s : State) (e : Event) (t : State) (hs : Read key s) (hq : Quiet e)
    (hc : Clear key s e) (h : step key before s e = some t) : Read key t := by
  cases hp : s.phase with
  | scan ns rest offset latest =>
    obtain ⟨l, rfl, hl, rfl⟩ := step_scan hp hq h
    simp only [Read, hp] at hs
    simp only [Clear, hp] at hc
    obtain ⟨m, hm, hread⟩ := hs
    unfold State.scanned
    split
    · trivial
    · split
      · exact read_resume _ ns rest _
      · refine ⟨l, hl, fun d hd => List.mem_append.mpr ((take_page hd).imp_left (fun hd => ?_))⟩
        exact hread d (mem_take_of_clear (store_rows_nodup s.store ns) hl hm hc d hd)
  | select ns rest sid todo offset matching =>
    obtain ⟨l, rfl, hl, rfl⟩ := step_select hp hq h
    simp only [Read, hp] at hs
    simp only [Clear, hp] at hc
    obtain ⟨m, hm, hread⟩ := hs
    unfold State.selected
    split
    · exact read_forget s ns rest sid todo _
    · refine ⟨l, hl, fun d hd hsid => List.mem_append.mpr ((take_page hd).imp (fun hd => ?_) (fun hd => ?_))⟩
      · exact hread d (mem_take_of_clear (store_rows_nodup s.store ns) hl hm hc d hd) hsid
      · exact List.mem_map_of_mem (List.mem_filter.mpr ⟨hd, decide_eq_true hsid⟩)
  | delete ns rest sid todo id ids =>
    rw [step_delete hp hq h]
    exact read_forget _ ns rest sid todo ids
  | returned => cases e <;> simp [step, hp, Quiet] at h hq
  | raised => cases e <;> simp [step, hp, Quiet] at h hq

theorem clear_covers (s : State) (e : Event) (t : State) (hs : Read key s) (hq : Quiet e)
    (hc : Clear key s e) (h : step key before s e = some t) : Covers s e := by
  cases hp : s.phase with
  | scan ns rest offset latest =>
    obtain ⟨l, rfl, hl, -⟩ := step_scan hp hq h
    simp only [Read, hp] at hs
    simp only [Clear, hp] at hc
    simp only [Covers, hp]
    obtain ⟨m, hm, hread⟩ := hs
    exact fun _ d hd _ => hread d (mem_take_of_clear (store_rows_nodup s.store ns) hl hm hc d hd)
  | select ns rest sid todo offset matching =>
    obtain ⟨l, rfl, hl, -⟩ := step_select hp hq h
    simp only [Read, hp] at hs
    simp only [Clear, hp] at hc
    simp only [Covers, hp]
    obtain ⟨m, hm, hread⟩ := hs
    exact fun _ d hd => hread d (mem_take_of_clear (store_rows_nodup s.store ns) hl hm hc d hd)
  | _ => cases e <;> simp [Covers, hp]

/-- A sweep whose page boundaries are clear reads every row. -/
theorem inevitable_of_clear {s : State} (hs : Read key s)
    (h : Inevitable (step key before) Quiet Covers P s) :
    Inevitable (step key before) Quiet (Clear key) P s :=
  inevitable_of_condition read_step clear_covers hs h

end Boundaries

section Exact

variable {κ : Type} [LinearOrder κ]

/-- The state after a complete sweep: the lapsed sessions of the namespaces are
gone, everything else is there, and the number counts these sessions. -/
def Swept (before : DateTime) (namespaces : List Uuid) (docs : List Document) (s : State) : Prop :=
  s.phase = .returned ∧ s.store.documents = kept docs (lapsedSessions before namespaces docs) ∧
    s.expired = (lapsedSessions before namespaces docs).card

theorem sweep_complete (key : Option DateTime → κ) {before : DateTime} {namespaces : List Uuid}
    {store : Store} (hutc : ∀ d ∈ store.documents, d.namespaceId ∈ namespaces →
      d.sessionId ≠ none → ∀ t, d.effective = some t → hasUtc t) :
    Inevitable (step key before) Quiet Covers (Swept before namespaces store.documents)
      (start namespaces store) := by
  have hnone : lapsedSessions before [] store.documents = ∅ := by
    refine Finset.eq_empty_of_forall_notMem (fun p hp => ?_)
    exact List.not_mem_nil (mem_lapsedSessions.mp hp).1
  refine advance_inevitable hutc (fun s hp hd hn => ⟨hp, hd, hn⟩) namespaces [] rfl _ ?_ ?_
  · rw [hnone, kept_empty]
  · rw [hnone]
    rfl

/-- It is enough that no page boundary falls between rows with equal keys. -/
theorem clear_sweep_complete (key : Option DateTime → κ) {before : DateTime}
    {namespaces : List Uuid} {store : Store}
    (hutc : ∀ d ∈ store.documents, d.namespaceId ∈ namespaces → d.sessionId ≠ none →
      ∀ t, d.effective = some t → hasUtc t) :
    Inevitable (step key before) Quiet (Clear key) (Swept before namespaces store.documents)
      (start namespaces store) :=
  inevitable_of_clear (read_advance _ namespaces) (sweep_complete key hutc)

/-- In every run of timely events no deletion touches a session with a document
at or after the cutoff. A sweep without other clients and failures, where the
rows that each offset passes over were read before, ends with exactly the lapsed
sessions deleted and counted, if the times have values in UTC. -/
theorem expiry_exact (key : Option DateTime → κ) (before : DateTime) (namespaces : List Uuid)
    (store : Store) :
    (∀ es, Meets (step key before) (Timely before) (start namespaces store) es →
      Meets (step key before) (Harmless before) (start namespaces store) es) ∧
    ((∀ d ∈ store.documents, d.namespaceId ∈ namespaces → d.sessionId ≠ none →
        ∀ t, d.effective = some t → hasUtc t) →
      Inevitable (step key before) Quiet Covers (Swept before namespaces store.documents)
        (start namespaces store)) :=
  ⟨timely_harmless namespaces store, sweep_complete key⟩

end Exact

namespace LateTurn

def day (d : ℕ) (h : (⟨2024,1,d,0,0,0,0⟩ : Civil).Valid) : DateTime := ⟨⟨_, h⟩, none⟩

def cutoff : DateTime := day 15 (by decide)

def old : Document := ⟨1, 0, some 7, none, some (day 1 (by decide))⟩

def late : Document := ⟨2, 0, some 7, none, some (day 20 (by decide))⟩

def store : Store := ⟨[old], [1], by decide, by decide⟩

def events : List Event := [.listed [old],.inserted late,.listed [late,old],.forgotten]

def byTime (t : Option DateTime) : ℤ := t.elim 0 DateTime.micros

/-- A turn that arrives after the scan is deleted with the session. -/
theorem late_turn_deleted :
    ¬ Meets (step byTime cutoff) (Harmless cutoff) (start [0] store) events := by
  decide

def elsewhere : Document := { late with sessionId := some 8 }

def timelyEvents : List Event :=
  [.listed [old],.inserted elsewhere,.listed [elsewhere,old],.forgotten]

theorem expiry_exact_old :
    (run (step byTime cutoff) (start [0] store) timelyEvents).map (fun s =>
      (s.expired,s.store.documents)) = some (1,[elsewhere]) ∧
    Meets (step byTime cutoff) (Harmless cutoff) (start [0] store) timelyEvents ∧
    (run (step byTime cutoff) (start [0] store) [.listed [old],.listed [old],.forgotten]).map
      (fun s => (s.expired,s.store.documents)) = some (1,[]) ∧
    Inevitable (step byTime cutoff) Quiet Covers (Swept cutoff [0] store.documents)
      (start [0] store) := by
  have h := expiry_exact byTime cutoff [0] store
  refine ⟨by decide, h.1 timelyEvents (by decide), by decide, h.2 ?_⟩
  intro d hd _ _ t ht
  obtain rfl := List.mem_singleton.mp hd
  obtain rfl := Option.some.inj ht
  exact ⟨_, rfl⟩

end LateTurn

end Uru.Storage.SessionExpiry
