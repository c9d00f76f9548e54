import Uru.Storage.SessionExpiry

/-!
# The latest time of each session

After the loop over the documents the table of latest times has one entry for
each session with a time, and the entry is the greatest of its times. A session
is picked for deletion exactly when the documents read show it as lapsed.
-/

set_option autoImplicit false

namespace Uru.Storage.SessionExpiry

open Uru.Filter Uru.Lib

theorem record_keys (sid : Uuid) (ts : UtcTime) (l : Latest) (t : Uuid) :
    t ∈ (record sid ts l).map Prod.fst ↔ t = sid ∨ t ∈ l.map Prod.fst := by
  induction l with
  | nil => simp [record]
  | cons x rest ih =>
    obtain ⟨r, prev⟩ := x
    rw [record]
    split
    · next h =>
      subst h
      simp
    · rw [List.map_cons, List.mem_cons, ih, List.map_cons, List.mem_cons]
      tauto

theorem record_nodup {sid : Uuid} {ts : UtcTime} {l : Latest} (h : (l.map Prod.fst).Nodup) :
    ((record sid ts l).map Prod.fst).Nodup := by
  induction l with
  | nil => simp [record]
  | cons x rest ih =>
    obtain ⟨r, prev⟩ := x
    obtain ⟨hr, hrest⟩ := List.nodup_cons.mp h
    rw [record]
    split
    · exact List.nodup_cons.mpr ⟨hr, hrest⟩
    · next hne =>
      refine List.nodup_cons.mpr ⟨fun hm => ?_, ih hrest⟩
      exact ((record_keys sid ts rest r).mp hm).elim hne hr

/-- An entry of the new table is an old one of another session, or the entry of
the session: the new time, if it is later or the first, else the old one. -/
theorem mem_record {sid t : Uuid} {ts u : UtcTime} {l : Latest} (h : (l.map Prod.fst).Nodup)
    (hm : (t,u) ∈ record sid ts l) :
    (t ≠ sid ∧ (t,u) ∈ l) ∨ (t = sid ∧ ((sid ∉ l.map Prod.fst ∧ u = ts) ∨
      ∃ prev, (sid,prev) ∈ l ∧ u = if prev.fields < ts.fields then ts else prev)) := by
  induction l with
  | nil =>
    rw [record, List.mem_singleton] at hm
    cases hm
    exact .inr ⟨rfl, .inl ⟨List.not_mem_nil, rfl⟩⟩
  | cons x rest ih =>
    obtain ⟨r, prev⟩ := x
    obtain ⟨hr, hrest⟩ := List.nodup_cons.mp h
    rw [record] at hm
    by_cases hrs : r = sid
    · rw [if_pos hrs] at hm
      rcases List.mem_cons.mp hm with he | hm
      · cases he
        exact .inr ⟨hrs, .inr ⟨prev, hrs ▸ List.mem_cons_self, rfl⟩⟩
      · refine .inl ⟨fun hts => hr ?_, List.mem_cons_of_mem _ hm⟩
        rw [hrs, ← hts]
        exact List.mem_map.mpr ⟨(t,u), hm, rfl⟩
    · rw [if_neg hrs] at hm
      rcases List.mem_cons.mp hm with he | hm
      · cases he
        exact .inl ⟨hrs, List.mem_cons_self⟩
      · rcases ih hrest hm with ⟨hne, hmem⟩ | ⟨rfl, ⟨hnot, rfl⟩ | ⟨prev, hp, rfl⟩⟩
        · exact .inl ⟨hne, List.mem_cons_of_mem _ hmem⟩
        · refine .inr ⟨rfl, .inl ⟨fun hmem => ?_, rfl⟩⟩
          exact (List.mem_cons.mp hmem).elim (fun he => hrs he.symm) hnot
        · exact .inr ⟨rfl, .inr ⟨prev, List.mem_cons_of_mem _ hp, rfl⟩⟩

/-- A document of a session with its time in UTC. -/
def TimedAt (d : Document) (sid : Uuid) (u : UtcTime) : Prop :=
  d.sessionId = some sid ∧ ∃ t, d.effective = some t ∧ t.toUtc = some u

/-- Each entry is the greatest time of its session, and each session with a
time has an entry. -/
structure Tallied (docs : List Document) (latest : Latest) : Prop where
  nodup : (latest.map Prod.fst).Nodup
  attained : ∀ sid u, (sid,u) ∈ latest → ∃ d ∈ docs, TimedAt d sid u
  greatest : ∀ sid u, (sid,u) ∈ latest → ∀ d ∈ docs, ∀ v, TimedAt d sid v →
    v.civil.toMicros ≤ u.civil.toMicros
  complete : ∀ d ∈ docs, ∀ sid v, TimedAt d sid v → sid ∈ latest.map Prod.fst
  converted : ∀ d ∈ docs, ∀ sid t, d.sessionId = some sid → d.effective = some t →
    ∃ u, t.toUtc = some u

theorem tallied_nil : Tallied [] [] := by
  constructor <;> simp

theorem tallied_other {docs : List Document} {latest : Latest} {d : Document}
    (h : Tallied docs latest) (hd : d.sessionId = none ∨ d.effective = none) :
    Tallied (docs++[d]) latest := by
  have hno : ∀ sid v, ¬ TimedAt d sid v := by
    rintro sid v ⟨hs, t, ht, -⟩
    rcases hd with hd | hd
    · rw [hd] at hs
      cases hs
    · rw [hd] at ht
      cases ht
  constructor
  · exact h.nodup
  · intro sid u hm
    obtain ⟨e, he, hte⟩ := h.attained sid u hm
    exact ⟨e, List.mem_append_left _ he, hte⟩
  · intro sid u hm e he v hte
    rcases List.mem_append.mp he with he | he
    · exact h.greatest sid u hm e he v hte
    · rw [List.mem_singleton.mp he] at hte
      exact absurd hte (hno sid v)
  · intro e he sid v hte
    rcases List.mem_append.mp he with he | he
    · exact h.complete e he sid v hte
    · rw [List.mem_singleton.mp he] at hte
      exact absurd hte (hno sid v)
  · intro e he sid t hs ht
    rcases List.mem_append.mp he with he | he
    · exact h.converted e he sid t hs ht
    · rw [List.mem_singleton.mp he] at hs ht
      rcases hd with hd | hd
      · rw [hd] at hs
        cases hs
      · rw [hd] at ht
        cases ht

theorem tallied_record {docs : List Document} {latest : Latest} {d : Document} {sid : Uuid}
    {t : DateTime} {ts : UtcTime} (h : Tallied docs latest) (hs : d.sessionId = some sid)
    (ht : d.effective = some t) (hu : t.toUtc = some ts) :
    Tallied (docs++[d]) (record sid ts latest) := by
  have hself : ∀ r v, TimedAt d r v ↔ r = sid ∧ v = ts := by
    intro r v
    constructor
    · rintro ⟨hr, t', ht', hv⟩
      rw [hs] at hr
      rw [ht] at ht'
      cases hr
      cases ht'
      rw [hu] at hv
      cases hv
      exact ⟨rfl, rfl⟩
    · rintro ⟨rfl, rfl⟩
      exact ⟨hs, t, ht, hu⟩
  have hd : d ∈ docs++[d] := List.mem_append_right _ List.mem_cons_self
  constructor
  · exact record_nodup h.nodup
  · intro r u hm
    rcases mem_record h.nodup hm with ⟨-, hold⟩ | ⟨rfl, ⟨-, rfl⟩ | ⟨prev, hp, rfl⟩⟩
    · obtain ⟨e, he, hte⟩ := h.attained r u hold
      exact ⟨e, List.mem_append_left _ he, hte⟩
    · exact ⟨d, hd, (hself r u).mpr ⟨rfl, rfl⟩⟩
    · split
      · exact ⟨d, hd, (hself r ts).mpr ⟨rfl, rfl⟩⟩
      · obtain ⟨e, he, hte⟩ := h.attained r prev hp
        exact ⟨e, List.mem_append_left _ he, hte⟩
  · intro r u hm e he v hte
    rcases mem_record h.nodup hm with ⟨hne, hold⟩ | ⟨rfl, ⟨hnot, rfl⟩ | ⟨prev, hp, rfl⟩⟩
    · rcases List.mem_append.mp he with he | he
      · exact h.greatest r u hold e he v hte
      · rw [List.mem_singleton.mp he] at hte
        exact absurd ((hself r v).mp hte).1 hne
    · rcases List.mem_append.mp he with he | he
      · exact absurd (h.complete e he r v hte) hnot
      · rw [List.mem_singleton.mp he] at hte
        rw [((hself r v).mp hte).2]
    · have hle : prev.civil.toMicros ≤
          (if prev.fields < ts.fields then ts else prev).civil.toMicros ∧
          ts.civil.toMicros ≤ (if prev.fields < ts.fields then ts else prev).civil.toMicros := by
        split
        · next hlt => exact ⟨((fields_lt_iff prev ts).mp hlt).le, le_rfl⟩
        · next hge => exact ⟨le_rfl, not_lt.mp (fun hlt => hge ((fields_lt_iff prev ts).mpr hlt))⟩
      rcases List.mem_append.mp he with he | he
      · exact (h.greatest r prev hp e he v hte).trans hle.1
      · rw [List.mem_singleton.mp he] at hte
        rw [((hself r v).mp hte).2]
        exact hle.2
  · intro e he r v hte
    rw [record_keys]
    rcases List.mem_append.mp he with he | he
    · exact .inr (h.complete e he r v hte)
    · rw [List.mem_singleton.mp he] at hte
      exact .inl ((hself r v).mp hte).1
  · intro e he r t' hr ht'
    rcases List.mem_append.mp he with he | he
    · exact h.converted e he r t' hr ht'
    · rw [List.mem_singleton.mp he, ht] at ht'
      cases ht'
      exact ⟨ts, hu⟩

theorem tallied_note {docs : List Document} {latest latest' : Latest} {d : Document}
    (h : Tallied docs latest) (hn : note latest d = some latest') : Tallied (docs++[d]) latest' := by
  unfold note at hn
  split at hn
  · next sid t hs ht =>
    obtain ⟨ts, hu, rfl⟩ := Option.map_eq_some_iff.mp hn
    exact tallied_record h hs ht hu
  · next hno =>
    cases hn
    refine tallied_other h ?_
    rcases hs : d.sessionId with _ | sid
    · exact .inl rfl
    · rcases ht : d.effective with _ | t
      · exact .inr rfl
      · exact absurd ht (hno sid t hs)

theorem tallied_noteAll {docs page : List Document} {latest latest' : Latest}
    (h : Tallied docs latest) (hn : noteAll latest page = some latest') :
    Tallied (docs++page) latest' := by
  induction page generalizing docs latest with
  | nil =>
    cases hn
    rwa [List.append_nil]
  | cons d page ih =>
    rw [noteAll, List.foldlM_cons] at hn
    obtain ⟨mid, hmid, hn⟩ := Option.bind_eq_some_iff.mp hn
    have := ih (tallied_note h hmid) hn
    rwa [List.append_assoc] at this

/-- The loop over a page succeeds when each time in it has a value in UTC. -/
theorem noteAll_isSome {page : List Document}
    (h : ∀ d ∈ page, d.sessionId ≠ none → ∀ t, d.effective = some t → hasUtc t) (latest : Latest) :
    ∃ latest', noteAll latest page = some latest' := by
  induction page generalizing latest with
  | nil => exact ⟨latest, rfl⟩
  | cons d page ih =>
    have hnote : ∃ mid, note latest d = some mid := by
      unfold note
      split
      · next sid t hs ht =>
        obtain ⟨u, hu⟩ := h d List.mem_cons_self (by rw [hs]; exact Option.some_ne_none sid) t ht
        exact ⟨record sid u latest, by rw [hu]; rfl⟩
      · exact ⟨latest, rfl⟩
    obtain ⟨mid, hmid⟩ := hnote
    obtain ⟨latest', hl⟩ := ih (fun e he => h e (List.mem_cons_of_mem _ he)) mid
    refine ⟨latest', ?_⟩
    rw [noteAll, List.foldlM_cons, hmid]
    exact hl

theorem lapsing_nodup {docs : List Document} {latest : Latest} (h : Tallied docs latest)
    (before : DateTime) : (lapsing before latest).Nodup :=
  h.nodup.sublist (List.filter_sublist.map _)

/-- The sessions picked are those that the documents read show as lapsed. -/
theorem mem_lapsing {docs : List Document} {latest : Latest} {ns sid : Uuid}
    (h : Tallied docs latest) (hns : ∀ d ∈ docs, d.namespaceId = ns) (before : DateTime) :
    sid ∈ lapsing before latest ↔ Lapsed before docs (ns,sid) := by
  have hsession : ∀ d ∈ docs, d.session = some (ns,sid) ↔ d.sessionId = some sid := by
    intro d hd
    simp [Document.session, hns d hd]
  have hpicked : sid ∈ lapsing before latest ↔
      ∃ u, (sid,u) ∈ latest ∧ u.civil.toMicros < before.micros := by
    simp [lapsing]
  rw [hpicked]
  constructor
  · rintro ⟨u, hm, hlt⟩
    obtain ⟨d, hd, hs, t, ht, -⟩ := h.attained sid u hm
    refine ⟨⟨d, hd, (hsession d hd).mpr hs, by rw [ht]; rfl⟩, fun e he hes => ?_⟩
    rw [hsession e he] at hes
    unfold Document.fresh
    rcases het : e.effective with _ | t'
    · rfl
    · obtain ⟨v, hv⟩ := h.converted e he sid t' hes het
      have hle := h.greatest sid u hm e he v ⟨hes, t', het, hv⟩
      rw [toUtc_micros hv] at hle
      exact decide_eq_false (not_le.mpr (hle.trans_lt hlt))
  · rintro ⟨⟨d, hd, hs, ht⟩, hold⟩
    rw [hsession d hd] at hs
    obtain ⟨t, ht⟩ := Option.isSome_iff_exists.mp ht
    obtain ⟨v, hv⟩ := h.converted d hd sid t hs ht
    obtain ⟨⟨r, u⟩, hm, hr⟩ := List.mem_map.mp (h.complete d hd sid v ⟨hs, t, ht, hv⟩)
    rw [show r = sid from hr] at hm
    obtain ⟨e, he, hes, t', het, hu⟩ := h.attained sid u hm
    have hfresh := hold e he ((hsession e he).mpr hes)
    rw [Document.fresh, het] at hfresh
    refine ⟨u, hm, ?_⟩
    rw [toUtc_micros hu]
    exact not_le.mp (of_decide_eq_false hfresh)

end Uru.Storage.SessionExpiry
