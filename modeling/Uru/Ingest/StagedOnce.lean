import Uru.Ingest.Staging

/-!
# Which batches are staged exactly once

A batch is staged once when each new document is created and handed over one
time, every input is counted, and ingesting the batch again once its documents
are completed does nothing. That is so exactly when the inputs found new have
identities of their own, no other input of the batch asks for another identity
of their content, and the index on the external id lets them all in.
-/

set_option autoImplicit false

namespace Uru.Ingest

def Document.identity (d : Document) : Option Identity :=
  d.checksum.map (fun c => { checksum := c, externalId := d.externalId, sessionId := d.sessionId })

section canonical

variable (h : Host)

theorem mem_canonical_of {inputs : List DocInput} {d : DocInput} (hd : d ∈ h.canonical inputs) :
    d ∈ inputs := by
  induction inputs with
  | nil => exact hd
  | cons e inputs ih =>
    rcases List.mem_cons.mp hd with rfl | hd
    · exact List.mem_cons_self
    · exact List.mem_cons_of_mem _ (ih (List.mem_of_mem_filter hd))

theorem exists_canonical {inputs : List DocInput} {d : DocInput} (hd : d ∈ inputs) :
    ∃ e ∈ h.canonical inputs, h.identityKey e = h.identityKey d := by
  induction inputs with
  | nil => exact absurd hd List.not_mem_nil
  | cons e inputs ih =>
    by_cases hk : h.identityKey d = h.identityKey e
    · exact ⟨e, List.mem_cons_self, hk.symm⟩
    · have hd : d ∈ inputs := by
        rcases List.mem_cons.mp hd with rfl | hd
        · exact absurd rfl hk
        · exact hd
      obtain ⟨c, hc, hck⟩ := ih hd
      refine ⟨c, List.mem_cons_of_mem _ (List.mem_filter.mpr ⟨hc, ?_⟩), hck⟩
      simpa [hck] using hk

theorem nodup_canonical (inputs : List DocInput) :
    ((h.canonical inputs).map h.identityKey).Nodup := by
  induction inputs with
  | nil => exact List.nodup_nil
  | cons d inputs ih =>
    refine List.nodup_cons.mpr ⟨fun hm => ?_, ?_⟩
    · obtain ⟨e, he, hk⟩ := List.mem_map.mp hm
      simpa [hk] using (List.mem_filter.mp he).2
    · exact ih.sublist (List.filter_sublist.map _)

theorem canonical_eq_self {inputs : List DocInput} (hn : (inputs.map h.identityKey).Nodup) :
    h.canonical inputs = inputs := by
  induction inputs with
  | nil => rfl
  | cons d inputs ih =>
    obtain ⟨hd, hn⟩ := List.nodup_cons.mp hn
    rw [Host.canonical, ih hn, List.filter_eq_self.mpr]
    intro e he
    have hk : h.identityKey e ≠ h.identityKey d := fun hk =>
      hd (List.mem_map.mpr ⟨e, he, hk⟩)
    simpa using hk

theorem canonical_filter {p : DocInput → Bool}
    (hp : ∀ d e, h.identityKey d = h.identityKey e → p d = p e) (inputs : List DocInput) :
    (h.canonical inputs).filter p = h.canonical (inputs.filter p) := by
  induction inputs with
  | nil => rfl
  | cons d inputs ih =>
    by_cases hd : p d = true
    · rw [List.filter_cons_of_pos hd, Host.canonical, Host.canonical, List.filter_cons_of_pos hd,
        ← ih, List.filter_filter, List.filter_filter]
      simp only [Bool.and_comm]
    · rw [List.filter_cons_of_neg hd, Host.canonical, List.filter_cons_of_neg hd, ← ih,
        List.filter_filter]
      refine List.filter_congr (fun e _ => ?_)
      by_cases hk : h.identityKey e = h.identityKey d
      · simp [hp e d hk, Bool.not_eq_true _ ▸ hd]
      · simp [hk]

end canonical

section found

variable (h : Host) (s : Store) (inputs : List DocInput)

def Host.foundNew : List DocInput := inputs.filter (fun d => !h.unchanged s inputs d)

theorem unchanged_congr {d e : DocInput} (hk : h.identityKey d = h.identityKey e) :
    h.unchanged s inputs d = h.unchanged s inputs e := by
  simp only [Host.identityKey, Identity.mk.injEq] at hk
  simp only [Host.unchanged, hk.1, hk.2.1, hk.2.2]

theorem toCreate_eq : h.toCreate s inputs = h.canonical (h.foundNew s inputs) :=
  canonical_filter h (fun d e hk => by rw [unchanged_congr h s inputs hk]) inputs

theorem nodup_toCreate : ((h.toCreate s inputs).map h.identityKey).Nodup := by
  rw [toCreate_eq]
  exact nodup_canonical h _

theorem key_mem_toCreate (d : DocInput) (hd : d ∈ inputs) :
    h.identityKey d ∈ (h.toCreate s inputs).map h.identityKey ↔
      h.unchanged s inputs d = false := by
  rw [toCreate_eq]
  constructor
  · intro hm
    obtain ⟨e, he, hk⟩ := List.mem_map.mp hm
    have hn := (List.mem_filter.mp (mem_canonical_of h he)).2
    rw [← unchanged_congr h s inputs hk]
    simpa using hn
  · intro hn
    have hnew : d ∈ h.foundNew s inputs := List.mem_filter.mpr ⟨hd, by simp [hn]⟩
    obtain ⟨e, he, hk⟩ := exists_canonical h hnew
    exact List.mem_map.mpr ⟨e, he, hk⟩

end found

section creating

variable (h : Host)

def Host.staged : UUID → List DocInput → List Document
  | _, [] => []
  | n, d::ds =>
    { id := n
      content := d.content
      externalId := d.externalId
      status := .pending
      checksum := some (h.sha256 d.content)
      sessionId := h.coerceSessionId d.session }::Host.staged (n+1) ds

structure Store.Admits (s : Store) (ds : List DocInput) : Prop where
  untaken : ∀ d ∈ ds, s.taken d.externalId = false
  apart : ds.Pairwise (fun d e => d.externalId = none ∨ d.externalId ≠ e.externalId)

theorem length_staged (n : UUID) (ds : List DocInput) : (h.staged n ds).length = ds.length := by
  induction ds generalizing n with
  | nil => rfl
  | cons d ds ih => simp [Host.staged, ih]

theorem staged_append (n : UUID) (ds es : List DocInput) :
    h.staged n (ds++es) = h.staged n ds++h.staged (n+ds.length) es := by
  induction ds generalizing n with
  | nil => rfl
  | cons d ds ih =>
    have hn : n+1+ds.length = n+(ds.length+1) := by rw [Nat.add_assoc, Nat.add_comm 1]
    simp [Host.staged, ih, hn]

theorem staged_id {n : UUID} {ds : List DocInput} {d : Document} (hd : d ∈ h.staged n ds) :
    n ≤ d.id := by
  induction ds generalizing n with
  | nil => exact absurd hd List.not_mem_nil
  | cons e ds ih =>
    rcases List.mem_cons.mp hd with rfl | hd
    · exact le_rfl
    · exact le_trans (Nat.le_succ n) (ih hd)

theorem staged_identity (n : UUID) (ds : List DocInput) :
    (h.staged n ds).map Document.identity = ds.map (fun d => some (h.identityKey d)) := by
  induction ds generalizing n with
  | nil => rfl
  | cons d ds ih => simp [Host.staged, ih, Document.identity, Host.identityKey]

theorem taken_insert (s : Store) (d : Document) (hd : d.id = s.next) (x : Option String) :
    (s.insert d hd).taken x = false ↔ s.taken x = false ∧ (x = none ∨ x ≠ d.externalId) := by
  by_cases hx : x = none
  · simp [Store.taken, hx]
  · simp only [Store.taken, Store.insert, List.map_append, List.mem_append, List.map_cons,
      List.map_nil, List.mem_singleton, decide_eq_false_iff_not, hx, not_false_eq_true, ne_eq,
      true_and, false_or, not_or]

theorem admits_cons (s : Store) (d : DocInput) (ds : List DocInput) :
    Store.Admits s (d::ds) ↔
      s.taken d.externalId = false ∧ Store.Admits (s.insert (h.newDocument s d) rfl) ds := by
  constructor
  · intro ha
    obtain ⟨hd, hds⟩ := List.pairwise_cons.mp ha.apart
    refine ⟨ha.untaken d List.mem_cons_self, fun e he => ?_, hds⟩
    refine (taken_insert s _ rfl _).mpr ⟨ha.untaken e (List.mem_cons_of_mem _ he), ?_⟩
    rcases hd e he with hn | hn
    · by_cases hx : e.externalId = none
      · exact .inl hx
      · exact .inr (fun hk => hx (hk.trans hn))
    · exact .inr hn.symm
  · rintro ⟨hd, ha⟩
    have hall := fun e he => (taken_insert s _ rfl _).mp (ha.untaken e he)
    refine ⟨?_, List.pairwise_cons.mpr ⟨fun e he => ?_, ha.apart⟩⟩
    · intro e he
      rcases List.mem_cons.mp he with rfl | he
      · exact hd
      · exact (hall e he).1
    · by_cases hx : d.externalId = none
      · exact .inl hx
      · refine .inr (fun hk => ?_)
        rcases (hall e he).2 with hn | hn
        · exact hx (hk.trans hn)
        · exact hn hk.symm

theorem createAll_of_admits {s : Store} {ds : List DocInput} (ha : Store.Admits s ds) :
    (h.createAll s ds).1.documents = s.documents++h.staged s.next ds ∧
      (h.createAll s ds).2 = some ((ds.map h.identityKey).zip (h.staged s.next ds)) := by
  induction ds generalizing s with
  | nil => exact ⟨(List.append_nil _).symm, rfl⟩
  | cons d ds ih =>
    obtain ⟨hd, ha⟩ := (admits_cons h s d ds).mp ha
    obtain ⟨hdocs, hres⟩ := ih ha
    have hc : h.createDocument s d =
        some (s.insert (h.newDocument s d) rfl, h.newDocument s d) := by
      simp [Host.createDocument, hd]
    rw [Host.createAll, hc]
    simp only [hdocs, hres]
    exact ⟨by simp [Store.insert, Host.staged, Host.newDocument], rfl⟩

theorem admits_of_createAll {s : Store} {ds : List DocInput} {created}
    (hc : (h.createAll s ds).2 = some created) : Store.Admits s ds := by
  induction ds generalizing s created with
  | nil => exact ⟨fun d hd => absurd hd List.not_mem_nil, List.Pairwise.nil⟩
  | cons d ds ih =>
    rw [Host.createAll] at hc
    by_cases hd : s.taken d.externalId = true
    · rw [show h.createDocument s d = none by simp [Host.createDocument, hd]] at hc
      exact absurd hc (by simp)
    · rw [show h.createDocument s d = some (s.insert (h.newDocument s d) rfl, h.newDocument s d)
        by simp [Host.createDocument, hd]] at hc
      obtain ⟨rest, hrest, -⟩ := Option.map_eq_some_iff.mp hc
      exact (admits_cons h s d ds).mpr ⟨Bool.not_eq_true _ ▸ hd, ih hrest⟩

end creating

section handing

variable (h : Host)

theorem lookup_zip_staged {ds : List DocInput} (n : UUID)
    (hn : (ds.map h.identityKey).Nodup) (k : Identity) :
    (((ds.map h.identityKey).zip (h.staged n ds)).lookup k).map Document.identity =
      if k ∈ ds.map h.identityKey then some (some k) else none := by
  induction ds generalizing n with
  | nil => rfl
  | cons d ds ih =>
    obtain ⟨-, hn⟩ := List.nodup_cons.mp hn
    simp only [Host.staged, List.map_cons, List.zip_cons_cons, List.lookup_cons]
    by_cases hk : k = h.identityKey d
    · subst hk
      simp [Document.identity, Host.identityKey]
    · rw [show (k == h.identityKey d) = false from beq_false_of_ne hk]
      simp [ih (n+1) hn, hk]

/-- The results of the staging of the inputs, when the creations are done in
the given order. -/
def Host.results (n : UUID) (order inputs : List DocInput) : List (Option Document) :=
  inputs.map (fun d => ((order.map h.identityKey).zip (h.staged n order)).lookup (h.identityKey d))

theorem results_identity (n : UUID) {order : List DocInput}
    (hn : (order.map h.identityKey).Nodup) (inputs : List DocInput) :
    ((h.results n order inputs).filterMap id).map Document.identity =
      (inputs.filter (fun d => h.identityKey d ∈ order.map h.identityKey)).map
        (fun d => some (h.identityKey d)) := by
  induction inputs with
  | nil => rfl
  | cons d inputs ih =>
    have hl := lookup_zip_staged h n hn (h.identityKey d)
    rw [Host.results, List.map_cons, ← Host.results]
    by_cases hm : h.identityKey d ∈ order.map h.identityKey
    · rw [if_pos hm] at hl
      obtain ⟨doc, hdoc, hid⟩ := Option.map_eq_some_iff.mp hl
      rw [hdoc, List.filterMap_cons_some (by rfl), List.map_cons, ih,
        List.filter_cons_of_pos (by simpa using hm), List.map_cons, hid]
    · rw [if_neg hm, Option.map_eq_none_iff] at hl
      rw [hl, List.filterMap_cons_none (by rfl), ih, List.filter_cons_of_neg (by simpa using hm)]

theorem results_mem {n : UUID} {order inputs : List DocInput} {doc : Document}
    (hd : doc ∈ (h.results n order inputs).filterMap id) : doc ∈ h.staged n order := by
  obtain ⟨r, hr, hdoc⟩ := List.mem_filterMap.mp hd
  obtain ⟨d, -, rfl⟩ := List.mem_map.mp hr
  obtain ⟨l₁, l₂, hl, -⟩ := List.lookup_eq_some_iff.mp hdoc
  have hp : (h.identityKey d,doc) ∈ (order.map h.identityKey).zip (h.staged n order) := by
    rw [hl]
    exact List.mem_append_right _ List.mem_cons_self
  exact (List.of_mem_zip hp).2

/-- The outcomes of the processing change statuses only. -/
theorem mark_all (outcomes : List (UUID × Bool)) (t : Store) :
    ∃ f : Document → Document,
      (outcomes.foldl (fun u o => u.mark o.1 (if o.2 then .failed else .completed)) t).documents =
        t.documents.map f ∧
      (∀ d, f d = { d with status := (f d).status }) ∧
      (∀ d, d.id ∉ outcomes.map Prod.fst → f d = d) ∧
      ((∀ o ∈ outcomes, o.2 = false) → ∀ d, d.status ≠ .failed → (f d).status ≠ .failed) := by
  induction outcomes generalizing t with
  | nil => exact ⟨id, (List.map_id _).symm, fun d => rfl, fun d _ => rfl, fun _ d hd => hd⟩
  | cons o outcomes ih =>
    obtain ⟨f, hf, hsame, hother, hlive⟩ := ih (t.mark o.1 (if o.2 then .failed else .completed))
    refine ⟨fun d => f (setStatus (if o.2 then .failed else .completed) o.1 d), ?_, ?_, ?_, ?_⟩
    · rw [List.foldl_cons, hf]
      exact List.map_map
    · intro d
      refine (hsame _).trans ?_
      by_cases hd : d.id = o.1
      · simp only [setStatus, if_pos hd]
      · simp only [setStatus, if_neg hd]
    · intro d hd
      simp only [List.map_cons, List.mem_cons, not_or] at hd
      simp only [setStatus, if_neg hd.1]
      exact hother d hd.2
    · intro hall d hd
      refine hlive (fun p hp => hall p (List.mem_cons_of_mem _ hp)) _ ?_
      rw [hall o List.mem_cons_self]
      unfold setStatus
      split
      · exact fun hk => nomatch hk
      · exact hd

/-- What an ingestion whose creations all succeed leaves and reports. -/
theorem ingest_of_admits {s : Store} {order : List DocInput} (ha : s.Admits order)
    (fails : ℕ → Bool) (inputs : List DocInput) :
    ∃ f : Document → Document, ∃ r : Report,
      (h.ingestDocuments order fails s inputs).2 = some r ∧
      (h.ingestDocuments order fails s inputs).1.documents =
        s.documents++(h.staged s.next order).map f ∧
      (∀ d, f d = { d with status := (f d).status }) ∧
      ((∀ i, fails i = false) → ∀ d, d.status ≠ .failed → (f d).status ≠ .failed) ∧
      r.handed = (h.results s.next order inputs).filterMap id ∧
      r.summary.processedDocuments+r.summary.skippedDocuments+r.summary.failedDocuments =
        inputs.length := by
  obtain ⟨hdocs, hres⟩ := createAll_of_admits h ha
  have hst : h.stageDocumentsBatch order s inputs =
      ((h.createAll s order).1, some (h.results s.next order inputs)) := by
    rw [Host.stageDocumentsBatch, hres]
    rfl
  set handed := (h.results s.next order inputs).filterMap id with hh
  set outcomes := handed.zipIdx.map (fun p => (p.1.id, fails p.2)) with ho
  obtain ⟨f, hf, hsame, hother, hlive⟩ := mark_all outcomes (h.createAll s order).1
  have hing : h.ingestDocuments order fails s inputs =
      (outcomes.foldl (fun u o => u.mark o.1 (if o.2 then .failed else .completed))
        (h.createAll s order).1, some
        { handed := handed
          summary :=
            { totalDocuments := inputs.length
              processedDocuments := (outcomes.filter (fun o => !o.2)).length
              skippedDocuments := inputs.length-handed.length
              failedDocuments := (outcomes.filter (fun o => o.2)).length } }) := by
    rw [Host.ingestDocuments, hst]
  have hold : s.documents.map f = s.documents := by
    refine (List.map_congr_left (fun d hd => hother d (fun hm => ?_))).trans (List.map_id _)
    obtain ⟨o, hom, hoi⟩ := List.mem_map.mp hm
    obtain ⟨p, hp, rfl⟩ := List.mem_map.mp hom
    have hge := staged_id h (results_mem h (List.fst_mem_of_mem_zipIdx hp))
    exact absurd (s.fresh d hd) (not_lt.mpr (hoi ▸ hge))
  rw [hing]
  refine ⟨f, _, rfl, ?_, hsame, fun hn => hlive (fun o hom => ?_), rfl, ?_⟩
  · rw [hf, hdocs, List.map_append, hold]
  · obtain ⟨p, -, rfl⟩ := List.mem_map.mp hom
    exact hn p.2
  · have hlen : outcomes.length = handed.length := by simp [ho]
    have hsplit := List.length_eq_length_filter_add (l := outcomes) (fun o => o.2)
    have hle : handed.length ≤ inputs.length := by
      refine le_trans (List.length_filterMap_le _ _) ?_
      simp [Host.results]
    simp only
    omega

end handing

section again

variable (h : Host)

theorem get_documents_append {s t : Store} {docs : List Document}
    (hd : t.documents = s.documents++docs) (checksums : List String) (c : String) :
    t.getDocumentsByChecksums checksums c =
      ((docs.filter (fun d => d.status ≠ .failed ∧ ∃ c ∈ checksums, d.checksum = some c)).reverse.find?
        (fun d => d.checksum = some c)).or (s.getDocumentsByChecksums checksums c) := by
  rw [Store.getDocumentsByChecksums, hd, List.filter_append, List.reverse_append,
    List.find?_append, Store.getDocumentsByChecksums]

/-- The input asks for nothing that the document of `d` does not have. -/
def Host.Covers (d e : DocInput) : Prop :=
  (e.externalId = none ∨ e.externalId = d.externalId) ∧
    (h.coerceSessionId e.session = none ∨
      h.coerceSessionId e.session = h.coerceSessionId d.session)

theorem dedup_applies_iff {doc : Document} {d : DocInput}
    (hid : doc.identity = some (h.identityKey d)) (e : DocInput) :
    checksumDedupApplies doc e.externalId (h.coerceSessionId e.session) = true ↔
      h.Covers d e := by
  obtain ⟨c, -, hc⟩ := Option.map_eq_some_iff.mp hid
  simp only [Host.identityKey, Identity.mk.injEq] at hc
  rw [checksumDedupApplies, Host.Covers, hc.2.1, hc.2.2]
  by_cases hx : e.externalId ≠ none ∧ d.externalId ≠ e.externalId
  · rw [if_pos hx]
    simp [hx.1, Ne.symm hx.2]
  · rw [if_neg hx]
    have hx : e.externalId = none ∨ e.externalId = d.externalId := by
      by_contra hn
      rw [not_or] at hn
      exact hx ⟨hn.1, Ne.symm hn.2⟩
    by_cases hy : h.coerceSessionId e.session ≠ none ∧
        h.coerceSessionId d.session ≠ h.coerceSessionId e.session
    · rw [if_pos hy]
      simp [hy.1, Ne.symm hy.2]
    · rw [if_neg hy]
      have hy : h.coerceSessionId e.session = none ∨
          h.coerceSessionId e.session = h.coerceSessionId d.session := by
        by_contra hn
        rw [not_or] at hn
        exact hy ⟨hn.1, Ne.symm hn.2⟩
      exact iff_of_true rfl ⟨hx, hy⟩

structure Host.Processed (docs : List Document) (ds : List DocInput) : Prop where
  identities : docs.map Document.identity = ds.map (fun d => some (h.identityKey d))
  live : ∀ doc ∈ docs, doc.status ≠ .failed

theorem Host.Processed.checksum {docs : List Document} {ds : List DocInput}
    (hp : h.Processed docs ds) {doc : Document} (hd : doc ∈ docs) :
    ∃ d ∈ ds, doc.identity = some (h.identityKey d) ∧
      doc.checksum = some (h.sha256 d.content) := by
  have hm : doc.identity ∈ ds.map (fun d => some (h.identityKey d)) :=
    hp.identities ▸ List.mem_map_of_mem hd
  obtain ⟨d, hd, hid⟩ := List.mem_map.mp hm
  refine ⟨d, hd, hid.symm, ?_⟩
  obtain ⟨c, hc, hk⟩ := Option.map_eq_some_iff.mp hid.symm
  exact hc.trans (congrArg some (congrArg Identity.checksum hk))

/-- An input whose content was staged is compared with a staged document, any
other with what it was compared with before. -/
theorem unchanged_after {s t : Store} {docs : List Document} {ds inputs : List DocInput}
    (hd : t.documents = s.documents++docs) (hp : h.Processed docs ds) {e : DocInput}
    (he : e ∈ inputs) :
    (∃ d ∈ ds, h.sha256 d.content = h.sha256 e.content ∧
      (h.unchanged t inputs e = true ↔ h.Covers d e)) ∨
    ((∀ d ∈ ds, h.sha256 d.content ≠ h.sha256 e.content) ∧
      h.unchanged t inputs e = h.unchanged s inputs e) := by
  have happ := get_documents_append hd (inputs.map (fun e => h.sha256 e.content))
    (h.sha256 e.content)
  cases hf : (docs.filter (fun d => d.status ≠ .failed ∧
      ∃ c ∈ inputs.map (fun e => h.sha256 e.content), d.checksum = some c)).reverse.find?
        (fun d => d.checksum = some (h.sha256 e.content)) with
  | some doc =>
    left
    have hmem := (List.mem_filter.mp (List.mem_reverse.mp (List.mem_of_find?_eq_some hf))).1
    have hck : doc.checksum = some (h.sha256 e.content) := by
      simpa using List.find?_some hf
    obtain ⟨d, hd, hid, hdc⟩ := hp.checksum h hmem
    refine ⟨d, hd, Option.some.inj (hdc.symm.trans hck), ?_⟩
    rw [hf, Option.some_or] at happ
    rw [Host.unchanged, happ]
    exact dedup_applies_iff h hid e
  | none =>
    right
    refine ⟨fun d hd hc => ?_, ?_⟩
    · have hm : some (h.identityKey d) ∈ docs.map Document.identity :=
        hp.identities ▸ List.mem_map_of_mem (f := fun d => some (h.identityKey d)) hd
      obtain ⟨doc, hdoc, hid⟩ := List.mem_map.mp hm
      obtain ⟨c, hdc, hk⟩ := Option.map_eq_some_iff.mp hid
      have hc' : doc.checksum = some (h.sha256 e.content) := by
        rw [hdc, ← hc, ← show c = h.sha256 d.content from congrArg Identity.checksum hk]
      refine List.find?_eq_none.mp hf doc (List.mem_reverse.mpr (List.mem_filter.mpr ⟨hdoc, ?_⟩))
        (by simpa using hc')
      simpa [hc'] using ⟨hp.live doc hdoc, e, he, rfl⟩
    · rw [hf, Option.none_or] at happ
      rw [Host.unchanged, happ, Host.unchanged]

end again

section once

variable (h : Host)

def Store.createdSince (s t : Store) : List Document :=
  t.documents.filter (fun d => s.next ≤ d.id)

/-- Ingesting the batch now creates nothing and hands nothing over. -/
def Host.Settled (t : Store) (inputs : List DocInput) : Prop :=
  ∀ order fails, order.Perm (h.toCreate t inputs) →
    (h.ingestDocuments order fails t inputs).1.documents = t.documents ∧
    ∃ r, (h.ingestDocuments order fails t inputs).2 = some r ∧ r.handed = []

/-- No identity is created twice or handed over twice, every input is counted,
and when no processing raised the same batch has nothing left to do. -/
structure Host.Once (s : Store) (inputs : List DocInput) (fails : ℕ → Bool)
    (done : Store × Option Report) : Prop where
  created : ((s.createdSince done.1).map Document.identity).Nodup
  reported : ∃ r, done.2 = some r ∧ (r.handed.map Document.identity).Nodup ∧
    r.summary.processedDocuments+r.summary.skippedDocuments+r.summary.failedDocuments =
      inputs.length
  settled : (∀ i, fails i = false) → h.Settled done.1 inputs

def Host.StagesOnce (s : Store) (inputs : List DocInput) : Prop :=
  ∀ order fails, order.Perm (h.toCreate s inputs) →
    h.Once s inputs fails (h.ingestDocuments order fails s inputs)

/-- The inputs found new have identities of their own, the inputs with the
content of one of them ask for no other identity, and the external ids of the
new ones are free and differ. -/
structure Host.Separate (s : Store) (inputs : List DocInput) : Prop where
  once : ((h.foundNew s inputs).map h.identityKey).Nodup
  covered : ∀ d ∈ h.foundNew s inputs, ∀ e ∈ inputs,
    h.sha256 d.content = h.sha256 e.content → h.Covers d e
  admitted : s.Admits (h.foundNew s inputs)

theorem toCreate_of_once {s : Store} {inputs : List DocInput}
    (hn : ((h.foundNew s inputs).map h.identityKey).Nodup) :
    h.toCreate s inputs = h.foundNew s inputs := by
  rw [toCreate_eq, canonical_eq_self h hn]

theorem Store.Admits.perm {s : Store} {ds es : List DocInput} (ha : s.Admits ds)
    (hp : es.Perm ds) : s.Admits es := by
  refine ⟨fun d hd => ha.untaken d (hp.mem_iff.mp hd), (hp.pairwise_iff ?_).mpr ha.apart⟩
  intro d e hde
  by_cases he : e.externalId = none
  · exact .inl he
  · rcases hde with hd | hd
    · exact .inr (fun hk => he (hk.trans hd))
    · exact .inr hd.symm

theorem handed_identity {s : Store} {order inputs : List DocInput}
    (hp : order.Perm (h.toCreate s inputs)) :
    ((h.results s.next order inputs).filterMap id).map Document.identity =
      (h.foundNew s inputs).map (fun d => some (h.identityKey d)) := by
  rw [results_identity h _ ((hp.map _).nodup_iff.mpr (nodup_toCreate h s inputs))]
  congr 1
  refine List.filter_congr (fun d hd => ?_)
  have hk := key_mem_toCreate h s inputs d hd
  rw [← (hp.map h.identityKey).mem_iff] at hk
  by_cases hu : h.unchanged s inputs d = false
  · simp [hk.mpr hu, hu]
  · simp [mt hk.mp hu, Bool.not_eq_false _ ▸ hu]

theorem toCreate_nil {s : Store} {inputs : List DocInput}
    (hall : ∀ e ∈ inputs, h.unchanged s inputs e = true) : h.toCreate s inputs = [] := by
  refine List.filter_eq_nil_iff.mpr (fun d hd => ?_)
  simp [hall d (mem_canonical_of h hd)]

theorem unchanged_of_toCreate_nil {s : Store} {inputs : List DocInput}
    (hn : h.toCreate s inputs = []) (e : DocInput) (he : e ∈ inputs) :
    h.unchanged s inputs e = true := by
  by_contra hu
  have hm := (key_mem_toCreate h s inputs e he).mpr (Bool.not_eq_true _ ▸ hu)
  rw [hn] at hm
  exact List.not_mem_nil hm

theorem nodup_some_keys {ds : List DocInput} :
    (ds.map (fun d => some (h.identityKey d))).Nodup ↔ (ds.map h.identityKey).Nodup := by
  rw [← List.nodup_map_iff (Option.some_injective _) (l := ds.map h.identityKey), List.map_map]
  rfl

theorem ingest_nothing {t : Store} {inputs : List DocInput} (hn : h.toCreate t inputs = []) :
    h.Settled t inputs := by
  intro order fails hp
  rw [hn, List.perm_nil] at hp
  subst hp
  have ha : t.Admits [] := ⟨fun d hd => absurd hd List.not_mem_nil, List.Pairwise.nil⟩
  obtain ⟨f, r, hr, hdocs, -, -, hh, -⟩ := ingest_of_admits h ha fails inputs
  refine ⟨hdocs.trans (List.append_nil _), r, hr, ?_⟩
  rw [hh, List.filterMap_eq_nil_iff]
  intro d hd
  obtain ⟨e, -, rfl⟩ := List.mem_map.mp hd
  rfl

theorem createdSince_eq {s t : Store} {docs : List Document}
    (hd : t.documents = s.documents++docs) (hids : ∀ d ∈ docs, s.next ≤ d.id) :
    s.createdSince t = docs := by
  rw [Store.createdSince, hd, List.filter_append, List.filter_eq_nil_iff.mpr,
    List.filter_eq_self.mpr, List.nil_append]
  · simpa using hids
  · intro d hd
    simpa using s.fresh d hd

/-- What the rows of the created documents are after a processing that raised
for none of them. -/
theorem processed_staged {n : UUID} {order : List DocInput} {f : Document → Document}
    (hsame : ∀ d, f d = { d with status := (f d).status })
    (hlive : ∀ d, d.status ≠ .failed → (f d).status ≠ .failed) :
    h.Processed ((h.staged n order).map f) order := by
  refine ⟨?_, fun doc hdoc => ?_⟩
  · rw [← staged_identity h n order, List.map_map]
    refine List.map_congr_left (fun d _ => ?_)
    rw [Function.comp_apply, hsame d]
    rfl
  · obtain ⟨d, hd, rfl⟩ := List.mem_map.mp hdoc
    refine hlive d ?_
    clear hlive hsame hdoc
    induction order generalizing n with
    | nil => exact absurd hd List.not_mem_nil
    | cons e order ih =>
      rcases List.mem_cons.mp hd with rfl | hd
      · exact fun hk => nomatch hk
      · exact ih hd

theorem admits_of_reported {s : Store} {order inputs : List DocInput} {fails : ℕ → Bool} {r}
    (hr : (h.ingestDocuments order fails s inputs).2 = some r) : s.Admits order := by
  cases hc : (h.createAll s order).2 with
  | none =>
    rw [Host.ingestDocuments, Host.stageDocumentsBatch, hc] at hr
    exact absurd hr (by simp)
  | some created => exact admits_of_createAll h hc

theorem toCreate_nil_of_settled {t : Store} {inputs : List DocInput}
    (hset : h.Settled t inputs) : h.toCreate t inputs = [] := by
  obtain ⟨hsame, r, hr, -⟩ := hset _ (fun _ => false) (List.Perm.refl _)
  obtain ⟨f, -, -, hdocs, -⟩ := ingest_of_admits h (admits_of_reported h hr) (fun _ => false) inputs
  have hlen := congrArg List.length (hsame.symm.trans hdocs)
  rw [List.length_append, List.length_map, length_staged] at hlen
  exact List.length_eq_zero_iff.mp (by omega)

theorem stages_once_of_separate {s : Store} {inputs : List DocInput}
    (hs : h.Separate s inputs) : h.StagesOnce s inputs := by
  intro order fails hp
  have hp' := hp
  rw [toCreate_of_once h hs.once] at hp'
  obtain ⟨f, r, hr, hdocs, hsame, hlive, hh, hsum⟩ :=
    ingest_of_admits h (hs.admitted.perm hp') fails inputs
  have hids : ∀ d ∈ (h.staged s.next order).map f, s.next ≤ d.id := by
    intro d hd
    obtain ⟨e, he, rfl⟩ := List.mem_map.mp hd
    have hid : (f e).id = e.id := by rw [hsame]
    exact hid ▸ staged_id h he
  refine ⟨?_, ⟨r, hr, ?_, hsum⟩, fun hn => ingest_nothing h (toCreate_nil h (fun e he => ?_))⟩
  · rw [createdSince_eq hdocs hids, List.map_map]
    have hid : (h.staged s.next order).map (Document.identity∘f) =
        (h.staged s.next order).map Document.identity :=
      List.map_congr_left (fun d _ => by rw [Function.comp_apply, hsame d]; rfl)
    rw [hid, staged_identity, nodup_some_keys]
    exact ((hp'.map _).nodup_iff).mpr hs.once
  · rw [hh, handed_identity h hp, nodup_some_keys]
    exact hs.once
  · rcases unchanged_after h hdocs (processed_staged h hsame (hlive hn)) he with
      ⟨d, hd, hc, hu⟩ | ⟨hno, hu⟩
    · exact hu.mpr (hs.covered d (hp'.mem_iff.mp hd) e he hc)
    · rw [hu]
      by_contra hf
      have hm : e ∈ h.foundNew s inputs :=
        List.mem_filter.mpr ⟨he, by simp [Bool.not_eq_true _ ▸ hf]⟩
      exact hno e (hp'.mem_iff.mpr hm) rfl

theorem separate_of_stages_once {s : Store} {inputs : List DocInput}
    (hs : h.StagesOnce s inputs) : h.Separate s inputs := by
  have hallowed : ∀ order, order.Perm (h.toCreate s inputs) → s.Admits order := by
    intro order hp
    obtain ⟨r, hr, -, -⟩ := (hs order (fun _ => false) hp).reported
    exact admits_of_reported h hr
  have honce : ((h.foundNew s inputs).map h.identityKey).Nodup := by
    obtain ⟨r, hr, hn, -⟩ := (hs _ (fun _ => false) (List.Perm.refl _)).reported
    obtain ⟨-, r', hr', -, -, -, hh, -⟩ :=
      ingest_of_admits h (hallowed _ (List.Perm.refl _)) (fun _ => false) inputs
    rw [Option.some.inj (hr.symm.trans hr'), hh,
      handed_identity h (List.Perm.refl _), nodup_some_keys] at hn
    exact hn
  have hcreate := toCreate_of_once h honce
  refine ⟨honce, fun d hd e he hc => ?_, hcreate ▸ hallowed _ (List.Perm.refl _)⟩
  -- the order in which the document of `d` is created last
  set rest := (h.foundNew s inputs).erase d with hrest
  have hp : (rest++[d]).Perm (h.toCreate s inputs) := by
    rw [hcreate, hrest]
    exact (List.perm_append_singleton d _).trans (List.perm_cons_erase hd).symm
  obtain ⟨f, r, -, hdocs, hsame, hlive, -, -⟩ :=
    ingest_of_admits h (hallowed _ hp) (fun _ => false) inputs
  have hu := unchanged_of_toCreate_nil h
    (toCreate_nil_of_settled h ((hs _ (fun _ => false) hp).settled (fun _ => rfl))) e he
  set t := (h.ingestDocuments (rest++[d]) (fun _ => false) s inputs).1 with ht
  rw [staged_append, List.map_append, ← List.append_assoc] at hdocs
  let before : Store :=
    { documents := s.documents++(h.staged s.next rest).map f
      next := t.next
      fresh := fun x hx => t.fresh x (hdocs ▸ List.mem_append_left _ hx) }
  have hdocs : t.documents = before.documents++(h.staged (s.next+rest.length) [d]).map f := hdocs
  rcases unchanged_after h hdocs (processed_staged h hsame (hlive (fun _ => rfl))) he with
    ⟨d', hd', -, hcov⟩ | ⟨hno, -⟩
  · rw [List.mem_singleton.mp hd'] at hcov
    exact hcov.mp hu
  · exact absurd hc (hno d List.mem_cons_self)

def emptyStore : Store where
  documents := []
  next := 0
  fresh := fun _ hd => absurd hd List.not_mem_nil

def plainNote : DocInput := { content := "note", externalId := none, session := .none }

def plainHost : Host := { sha256 := id, parse := fun _ => none }

end once

end Uru.Ingest
