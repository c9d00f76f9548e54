import Mathlib.Data.List.Forall2
import Mathlib.Tactic
import Uru.Lib.Listing
import Uru.Query.KeywordIndex

/-!
# The two keyword indexes agree

The kernel's index holds the documents with their tokens numbered, each token
under one number. So, over exact rationals and where both cut the texts alike,
it gives every query the score that the index in Python gives. Their searches
differ at the threshold, which one of them excludes; a candidate never scores
the default threshold, zero, so that the searches then find the same, up to the
order of equal scores.
-/

set_option autoImplicit false

namespace Uru.Query.KeywordIndex
open Uru.Lib

section Numbers

structure Numbered (m : Record Word ℕ) : Prop where
  bounded : ∀ t i, m.get t = some i → i < m.entries.length
  injective : ∀ t t' i, m.get t = some i → m.get t' = some i → t = t'

variable {m : Record Word ℕ}

theorem numbered_set (h : Numbered m) {t : Word} (ht : m.get t = none) :
    Numbered (m.set t m.entries.length) ∧
      ∀ t' i, m.get t' = some i → (m.set t m.entries.length).get t' = some i := by
  have hnew : t ∉ m.entries.map Prod.fst := by
    rw [← find_isSome, Option.not_isSome_iff_eq_none]
    exact ht
  have hentries : (m.set t m.entries.length).entries = m.entries++[(t,m.entries.length)] :=
    assign_new _ _ _ hnew
  have hkeep : ∀ t' i, m.get t' = some i → (m.set t m.entries.length).get t' = some i := by
    intro t' i hi
    rw [Record.get_set, if_neg]
    · exact hi
    · rintro rfl
      rw [ht] at hi
      cases hi
  refine ⟨⟨?_, ?_⟩, hkeep⟩
  · intro t' i hi
    rw [hentries, List.length_append, List.length_singleton]
    rw [Record.get_set] at hi
    split_ifs at hi
    · cases hi
      omega
    · have hlt := h.bounded t' i hi
      omega
  · intro a b i ha hb
    rw [Record.get_set] at ha hb
    split_ifs at ha hb with h1 h2 h2
    · rw [h1, h2]
    · cases ha
      exact absurd (h.bounded b _ hb) (lt_irrefl _)
    · cases hb
      exact absurd (h.bounded a _ ha) (lt_irrefl _)
    · exact h.injective a b i ha hb

/-- Numbering a text keeps the old numbers and gives every token one. -/
theorem index_tokens (h : Numbered m) (tokens : List Word) (acc : List ℕ) :
    ∃ m' coded, tokens.foldl indexToken (m,acc) = (m',acc++coded) ∧ Numbered m' ∧
      (∀ t i, m.get t = some i → m'.get t = some i) ∧ tokens.map m'.get = coded.map some := by
  induction tokens generalizing m acc with
  | nil => exact ⟨m, [], by simp, h, fun _ _ hi => hi, rfl⟩
  | cons t tokens ih =>
    rw [List.foldl_cons, indexToken]
    cases ht : m.get t with
    | some i =>
      obtain ⟨m', coded, hfold, hm', hkeep, hcoded⟩ := ih h (acc++[i])
      refine ⟨m', i::coded, ?_, hm', hkeep, ?_⟩
      · simp only
        rw [hfold, List.append_assoc, List.singleton_append]
      · rw [List.map_cons, List.map_cons, hcoded, hkeep t i ht]
    | none =>
      obtain ⟨hset, hsame⟩ := numbered_set h ht
      obtain ⟨m', coded, hfold, hm', hkeep, hcoded⟩ := ih hset (acc++[m.entries.length])
      refine ⟨m', m.entries.length::coded, ?_, hm', fun t' i hi => hkeep t' i (hsame t' i hi), ?_⟩
      · simp only
        rw [hfold, List.append_assoc, List.singleton_append]
      · have hnew : (m.set t m.entries.length).get t = some m.entries.length := by
          rw [Record.get_set, if_pos rfl]
        rw [List.map_cons, List.map_cons, hcoded, hkeep t _ hnew]

/-- A token and its number occur equally often. -/
theorem count_coded (h : Numbered m) {tokens : List Word} {coded : List ℕ}
    (hcoded : tokens.map m.get = coded.map some) {t : Word} {i : ℕ} (ht : m.get t = some i) :
    coded.count i = tokens.count t := by
  induction tokens generalizing coded with
  | nil =>
    have hnil : coded = [] := by simpa using hcoded.symm
    rw [hnil]
    rfl
  | cons t' tokens ih =>
    cases coded with
    | nil => simp at hcoded
    | cons j coded =>
      rw [List.map_cons, List.map_cons, List.cons.injEq] at hcoded
      rw [List.count_cons, List.count_cons, ih hcoded.2]
      by_cases htt : t' = t
      · subst htt
        rw [ht] at hcoded
        cases hcoded.1
        simp
      · have hij : j ≠ i := fun hij => htt (h.injective t' t i (by rw [hcoded.1, hij]) ht)
        simp [htt, hij]

/-- A token without a number does not occur. -/
theorem unnumbered {tokens : List Word} {coded : List ℕ}
    (hcoded : tokens.map m.get = coded.map some) {t : Word} (ht : m.get t = none) :
    t ∉ tokens := by
  intro hmem
  have hget : m.get t ∈ tokens.map m.get := List.mem_map_of_mem hmem
  rw [hcoded, ht] at hget
  obtain ⟨i, -, hi⟩ := List.mem_map.mp hget
  cases hi

end Numbers

section Kernel

variable {δ : Type} [DecidableEq δ]

def Coded (m : Record Word ℕ) (d : δ × List Word) (coded : List ℕ) : Prop :=
  d.2.map m.get = coded.map some

structure RustDescribes (s : RustBM25Index δ) (docs : List (δ × List Word))
    (coded : List (List ℕ)) : Prop where
  numbered : Numbered s.tokenToIdx
  tokens : List.Forall₂ (Coded s.tokenToIdx) docs coded
  ids : s.docIds = docs.map Prod.fst
  lengths : s.docLengths = docs.map (fun d => d.2.length)
  freqs : s.docFreqs = coded.map (fun c tok => c.count tok)
  places : ∀ id, s.docIdToIdx.get id = none ∧ latest docs id = none ∨
    ∃ j d, s.docIdToIdx.get id = some j ∧ docs[j]? = some d ∧ d.1 = id ∧
      latest docs id = some d.2
  term_docs : ∀ i, s.termDocFreqs i = coded.countP (fun c => i ∈ c)
  postings : ∀ i j, j ∈ s.invertedIndex i ↔ ∃ c, coded[j]? = some c ∧ i ∈ c
  count : s.totalDocs = docs.length
  length : s.totalLength = total docs

/-- A document is posted under its number, the next one, for each of its tokens. -/
theorem posted_append {coded : List (List ℕ)} {posted : List ℕ} {i : ℕ}
    (h : ∀ j, j ∈ posted ↔ ∃ c, coded[j]? = some c ∧ i ∈ c) (c : List ℕ) (j : ℕ) :
    j ∈ (if i ∈ c then posted++[coded.length] else posted) ↔
      ∃ c', (coded++[c])[j]? = some c' ∧ i ∈ c' := by
  rcases lt_trichotomy j coded.length with hj | rfl | hj
  · rw [List.getElem?_append_left hj, ← h j]
    split_ifs
    · rw [List.mem_append, List.mem_singleton]
      exact or_iff_left hj.ne
    · exact Iff.rfl
  · have hnone : coded.length ∉ posted := by
      rw [h]
      simp
    rw [List.getElem?_concat_length]
    split_ifs with hi
    · simp [hi]
    · simp [hi, hnone]
  · have hnone : j ∉ posted := by
      rw [h, List.getElem?_eq_none hj.le]
      simp
    have hout : (coded++[c])[j]? = none := by
      rw [List.getElem?_eq_none_iff, List.length_append, List.length_singleton]
      omega
    rw [hout]
    split_ifs
    · simp [hnone, hj.ne']
    · simp [hnone]

theorem rust_put {s : RustBM25Index δ} {docs : List (δ × List Word)} {coded : List (List ℕ)}
    (h : RustDescribes s docs coded) (z : Tokenizer) (docId : δ) (text : String) :
    ∃ c, RustDescribes (s.put z docId text) (docs++[(docId,tokenize z text)]) (coded++[c]) := by
  obtain ⟨m', c, hfold, hm', hkeep, hc⟩ := index_tokens h.numbered (tokenize z text) []
  rw [List.nil_append] at hfold
  have hput : s.put z docId text =
      { s with tokenToIdx := m' }.addDocumentTokens docId c := by
    rw [RustBM25Index.put, tokenizeIndexed_eq, hfold]
  have hlen : docs.length = coded.length := h.tokens.length_eq
  have hids : s.docIds.length = docs.length := by rw [h.ids, List.length_map]
  have hclen : c.length = (tokenize z text).length := by
    have hlength := congrArg List.length hc
    rw [List.length_map, List.length_map] at hlength
    exact hlength.symm
  refine ⟨c, ?_⟩
  rw [hput]
  constructor
  · exact hm'
  · apply List.rel_append
    · apply h.tokens.imp
      intro d cs hd
      show d.2.map m'.get = cs.map some
      rw [← hd]
      apply List.map_congr_left
      intro t ht
      have hmem : s.tokenToIdx.get t ∈ d.2.map s.tokenToIdx.get := List.mem_map_of_mem ht
      rw [hd] at hmem
      obtain ⟨i, -, hi⟩ := List.mem_map.mp hmem
      rw [← hi, hkeep t i hi.symm]
    · exact List.Forall₂.cons hc List.Forall₂.nil
  · show s.docIds++[docId] = _
    rw [h.ids, List.map_append]
    rfl
  · show s.docLengths++[c.length] = _
    rw [h.lengths, List.map_append, hclen]
    rfl
  · show s.docFreqs++[fun tok => c.count tok] = _
    rw [h.freqs, List.map_append]
    rfl
  · intro id
    show (s.docIdToIdx.set docId s.docIds.length).get id = none ∧ _ ∨
      ∃ j d, (s.docIdToIdx.set docId s.docIds.length).get id = some j ∧ _
    rw [Record.get_set, latest_append]
    by_cases hid : id = docId
    · right
      refine ⟨s.docIds.length, (docId,tokenize z text), if_pos hid, ?_, hid.symm, ?_⟩
      · rw [hids]
        exact List.getElem?_concat_length
      · exact if_pos hid.symm
    · rw [if_neg hid, if_neg (Ne.symm hid)]
      refine (h.places id).imp_right ?_
      rintro ⟨j, d, hj, hget, hd, hlatest⟩
      have hjlt : j < docs.length := (List.getElem?_eq_some_iff.mp hget).1
      exact ⟨j, d, hj, by rw [List.getElem?_append_left hjlt, hget], hd, hlatest⟩
  · intro i
    show (if i ∈ c then s.termDocFreqs i+1 else s.termDocFreqs i) = _
    rw [List.countP_append, ← h.term_docs]
    by_cases hi : i ∈ c
    · simp [hi]
    · simp [hi]
  · intro i j
    show j ∈ (if i ∈ c then s.invertedIndex i++[s.docIds.length] else s.invertedIndex i) ↔ _
    rw [hids, hlen]
    exact posted_append (h.postings i) c j
  · show s.totalDocs+1 = _
    rw [List.length_append, ← h.count]
    rfl
  · show s.totalLength+c.length = _
    rw [total_append, ← h.length, hclen]

theorem rust_fold {s : RustBM25Index δ} {docs : List (δ × List Word)} {coded : List (List ℕ)}
    (h : RustDescribes s docs coded) (z : Tokenizer) (ds : List (δ × String)) :
    ∃ more, RustDescribes (ds.foldl (fun s d => s.put z d.1 d.2) s)
      (docs++ds.map (fun d => (d.1,tokenize z d.2))) more := by
  induction ds generalizing s docs coded with
  | nil => exact ⟨coded, by simpa using h⟩
  | cons d ds ih =>
    obtain ⟨c, hc⟩ := rust_put h z d.1 d.2
    obtain ⟨more, hmore⟩ := ih hc
    exact ⟨more, by simpa using hmore⟩

theorem rust_put_avg (s : RustBM25Index δ) (z : Tokenizer) (ds : List (δ × String)) :
    (ds.foldl (fun s d => s.put z d.1 d.2) s).avgDocLength = s.avgDocLength := by
  induction ds generalizing s with
  | nil => rfl
  | cons d ds ih => exact ih _

theorem rust_updateAvg {s : RustBM25Index δ} {docs : List (δ × List Word)} {coded : List (List ℕ)}
    (h : RustDescribes s docs coded) (havg : docs = [] → s.avgDocLength = 0) :
    RustDescribes s.updateAvgLength docs coded ∧
      s.updateAvgLength.avgDocLength = mean docs := by
  unfold RustBM25Index.updateAvgLength
  split_ifs with hpos
  · have hne : docs ≠ [] := by
      rintro rfl
      rw [h.count] at hpos
      exact absurd hpos (lt_irrefl 0)
    refine ⟨⟨h.numbered,h.tokens,h.ids,h.lengths,h.freqs,h.places,h.term_docs,h.postings,h.count,
      h.length⟩, ?_⟩
    show (s.totalLength : ℚ)/s.totalDocs = mean docs
    rw [mean, if_neg hne, h.length, h.count]
  · have hnil : docs = [] := by
      apply List.eq_nil_of_length_eq_zero
      rw [← h.count]
      omega
    refine ⟨h, ?_⟩
    rw [havg hnil, mean, if_pos hnil]

variable (z : Tokenizer)

theorem rust_step {s : RustBM25Index δ} {docs : List (δ × List Word)} {coded : List (List ℕ)}
    (h : RustDescribes s docs coded) (havg : s.avgDocLength = mean docs) (c : Call δ) :
    ∃ more, RustDescribes (s.step z c) (docs++c.documents z) more ∧
      (s.step z c).avgDocLength = mean (docs++c.documents z) := by
  have hbatch : ∀ ds : List (δ × String), ∃ more, RustDescribes
      (ds.foldl (fun s d => s.put z d.1 d.2) s).updateAvgLength
      (docs++ds.map (fun d => (d.1,tokenize z d.2))) more ∧
      (ds.foldl (fun s d => s.put z d.1 d.2) s).updateAvgLength.avgDocLength =
        mean (docs++ds.map (fun d => (d.1,tokenize z d.2))) := by
    intro ds
    obtain ⟨more, hmore⟩ := rust_fold h z ds
    refine ⟨more, rust_updateAvg hmore (fun hnil => ?_)⟩
    rw [rust_put_avg, havg, mean, if_pos (List.append_eq_nil_iff.mp hnil).1]
  cases c with
  | addDocument docId text => exact hbatch [(docId,text)]
  | addDocuments documents => exact hbatch documents

/-- After any calls the index of the kernel is told from the documents. -/
theorem rust_run (calls : List (Call δ)) :
    ∃ coded, RustDescribes (RustBM25Index.run z calls) (documents z calls) coded ∧
      (RustBM25Index.run z calls).avgDocLength = mean (documents z calls) := by
  have hempty : RustDescribes (RustBM25Index.empty : RustBM25Index δ) [] [] :=
    ⟨⟨fun _ _ hi => (by cases hi),fun _ _ _ hi => (by cases hi)⟩,List.Forall₂.nil,rfl,rfl,rfl,
      fun _ => Or.inl ⟨rfl,rfl⟩,fun _ => rfl,by simp [RustBM25Index.empty],rfl,rfl⟩
  have h : ∀ (s : RustBM25Index δ) docs coded, RustDescribes s docs coded →
      s.avgDocLength = mean docs → ∃ more,
        RustDescribes (calls.foldl (RustBM25Index.step z) s) (docs++documents z calls) more ∧
        (calls.foldl (RustBM25Index.step z) s).avgDocLength = mean (docs++documents z calls) := by
    induction calls with
    | nil => exact fun s docs coded hs havg => ⟨coded, by simpa [documents] using And.intro hs havg⟩
    | cons c calls ih =>
      intro s docs coded hs havg
      obtain ⟨more, hmore, havg'⟩ := rust_step z hs havg c
      obtain ⟨more', hmore', havg''⟩ := ih _ _ _ hmore havg'
      rw [List.append_assoc] at hmore' havg''
      exact ⟨more', hmore', havg''⟩
  exact h RustBM25Index.empty [] [] hempty rfl

end Kernel

section Scores

variable {δ : Type} [DecidableEq δ] {s : BM25Index δ} {r : RustBM25Index δ}
  {docs : List (δ × List Word)} {coded : List (List ℕ)}

/-- A numbered token is in as many documents, and as often in each, as its number. -/
theorem numbered_term (h : RustDescribes r docs coded) {t : Word} {i : ℕ}
    (ht : r.tokenToIdx.get t = some i) :
    r.termDocFreqs i = docs.countP (fun d => t ∈ d.2) ∧
    (∀ j d, docs[j]? = some d → (r.docFreqs.getD j (fun _ => 0)) i = d.2.count t) ∧
    ∀ j, j ∈ r.invertedIndex i ↔ ∃ d, docs[j]? = some d ∧ t ∈ d.2 := by
  have hmem : ∀ (d : δ × List Word) c, Coded r.tokenToIdx d c → (i ∈ c ↔ t ∈ d.2) := by
    intro d c hd
    rw [← List.count_pos_iff, ← List.count_pos_iff, count_coded h.numbered hd ht]
  have hpair : ∀ j : ℕ, (∃ c, coded[j]? = some c ∧ i ∈ c) ↔
      ∃ d : δ × List Word, docs[j]? = some d ∧ t ∈ d.2 := by
    intro j
    have hj := List.forall₂_iff_get.mp h.tokens
    constructor
    · rintro ⟨c, hc, hi⟩
      obtain ⟨hlt, rfl⟩ := List.getElem?_eq_some_iff.mp hc
      have hlt' : j < docs.length := by rw [hj.1]; exact hlt
      exact ⟨docs[j], List.getElem?_eq_getElem hlt', (hmem _ _ (hj.2 j hlt' hlt)).mp hi⟩
    · rintro ⟨d, hd, hi⟩
      obtain ⟨hlt, rfl⟩ := List.getElem?_eq_some_iff.mp hd
      have hlt' : j < coded.length := by rw [← hj.1]; exact hlt
      exact ⟨coded[j], List.getElem?_eq_getElem hlt', (hmem _ _ (hj.2 j hlt hlt')).mpr hi⟩
  refine ⟨?_, ?_, ?_⟩
  · rw [h.term_docs]
    have hall := h.tokens
    clear h hpair
    induction hall with
    | nil => rfl
    | cons hd _ ih => rw [List.countP_cons, List.countP_cons, ih, decide_eq_decide.mpr (hmem _ _ hd)]
  · intro j d hd
    have hj := List.forall₂_iff_get.mp h.tokens
    obtain ⟨hlt, rfl⟩ := List.getElem?_eq_some_iff.mp hd
    have hlt' : j < coded.length := by rw [← hj.1]; exact hlt
    rw [h.freqs, List.getD_eq_getElem?_getD, List.getElem?_map, List.getElem?_eq_getElem hlt']
    exact count_coded h.numbered (hj.2 j hlt hlt') ht
  · intro j
    rw [h.postings, hpair]

theorem unnumbered_term (h : RustDescribes r docs coded) {t : Word}
    (ht : r.tokenToIdx.get t = none) : ∀ d ∈ docs, t ∉ d.2 := by
  intro d hd
  obtain ⟨j, hlt, rfl⟩ := List.getElem_of_mem hd
  have hj := List.forall₂_iff_get.mp h.tokens
  have hlt' : j < coded.length := by rw [← hj.1]; exact hlt
  exact unnumbered (hj.2 j hlt hlt') ht

variable (z : Tokenizer) (p : Params)

def bm25 (docs : List (δ × List Word)) (query doc : List Word) : ℚ :=
  query.foldl (fun score t =>
    if doc.count t = 0 then score
    else score+termScore p (idfOf p docs.length (docs.countP (fun d => t ∈ d.2))) (mean docs)
      (doc.count t) doc.length) 0

theorem score_bm25 (h : Describes s docs) (query : String) (id : δ) :
    s.score z p query id = (latest docs id).elim 0 (bm25 p docs (tokenize z query)) := by
  unfold BM25Index.score
  rw [h.freqs, h.lengths]
  cases latest docs id with
  | none => rfl
  | some tokens => simp only [Option.map_some, Option.elim_some, bm25, BM25Index.idf, h.count,
      h.term_docs, h.avg]

/-- What one token of a query adds in the kernel. -/
theorem rust_term (h : RustDescribes r docs coded) (havg : r.avgDocLength = mean docs) {j : ℕ}
    {d : δ × List Word} (hj : docs[j]? = some d) {t : Word} {i : ℕ}
    (ht : r.tokenToIdx.get t = some i) (score : ℚ) :
    (let tf := (r.docFreqs.getD j (fun _ => 0)) i
      if tf = 0 then score
      else score+termScore p (r.idf p i) r.avgDocLength tf (r.docLengths.getD j 0)) =
    if d.2.count t = 0 then score
    else score+termScore p (idfOf p docs.length (docs.countP (fun d => t ∈ d.2))) (mean docs)
      (d.2.count t) d.2.length := by
  obtain ⟨hdf, htf, -⟩ := numbered_term h ht
  have hlen : r.docLengths.getD j 0 = d.2.length := by
    rw [h.lengths, List.getD_eq_getElem?_getD, List.getElem?_map, hj]
    rfl
  simp only [htf j d hj, hlen, havg, RustBM25Index.idf, h.count, hdf]

theorem rust_score_bm25 (h : RustDescribes r docs coded) (havg : r.avgDocLength = mean docs)
    (query : String) (id : δ) :
    r.score z p query id = (latest docs id).elim 0 (bm25 p docs (tokenize z query)) := by
  unfold RustBM25Index.score
  rcases h.places id with ⟨hplace, hlatest⟩ | ⟨j, d, hplace, hj, -, hlatest⟩
  · rw [hplace, hlatest]
    rfl
  · rw [hplace, hlatest, rustTokenize_eq, Option.elim_some, bm25]
    simp only
    congr 1
    funext score t
    cases ht : r.tokenToIdx.get t with
    | none =>
      have hcount : d.2.count t = 0 :=
        List.count_eq_zero.mpr (unnumbered_term h ht d (List.mem_of_getElem? hj))
      rw [if_pos hcount]
    | some i => exact rust_term p h havg hj ht score

theorem candidateScore_bm25 (h : RustDescribes r docs coded)
    (havg : r.avgDocLength = mean docs) (query : String) {j : ℕ} {d : δ × List Word}
    (hj : docs[j]? = some d) :
    r.candidateScore z p query j = bm25 p docs (tokenize z query) d.2 := by
  unfold RustBM25Index.candidateScore RustBM25Index.queryTokIndices
  rw [List.foldl_filterMap, rustTokenize_eq, bm25]
  congr 1
  funext score t
  cases ht : r.tokenToIdx.get t with
  | none =>
    have hcount : d.2.count t = 0 :=
      List.count_eq_zero.mpr (unnumbered_term h ht d (List.mem_of_getElem? hj))
    rw [if_pos hcount]
  | some i => exact rust_term p h havg hj ht score

variable {z} in
/-- Whatever has been added, and however often under one id, the two indexes give a query the
same score on a document, if they cut its text and those of the documents alike. -/
theorem scores_agree {y : Tokenizer} {calls : List (Call δ)} {query : String}
    (hquery : SameCut z y query) (hcalls : ∀ c ∈ calls, ∀ text ∈ c.texts, SameCut z y text)
    (id : δ) : (RustBM25Index.run y calls).score y p query id =
      (BM25Index.run z calls).score z p query id := by
  obtain ⟨coded, hrust, havg⟩ := rust_run y calls
  rw [rust_score_bm25 y p hrust havg, score_bm25 z p (run_describes z calls),
    SameCut.documents hcalls, hquery.tokens]

def hits (docs : List (δ × List Word)) (query : List Word) : List (δ × ℚ) :=
  docs.filterMap (fun d => if ∃ t ∈ query, t ∈ d.2 then some (d.1,bm25 p docs query d.2) else none)

def descending (a b : δ × ℚ) : Prop := b.2 ≤ a.2

omit [DecidableEq δ] in
theorem mem_hits {query : List Word} {x : δ × ℚ} :
    x ∈ hits p docs query ↔
      ∃ d ∈ docs, (∃ t ∈ query, t ∈ d.2) ∧ x = (d.1,bm25 p docs query d.2) := by
  unfold hits
  rw [List.mem_filterMap]
  apply exists_congr
  intro d
  apply and_congr_right
  intro _
  split_ifs with ht
  · simp [ht, eq_comm]
  · simp [ht]

omit [DecidableEq δ] in
theorem nodup_hits (hn : (docs.map Prod.fst).Nodup) (query : List Word) :
    (hits p docs query).Nodup := by
  apply List.pairwise_filterMap.mpr
  apply (List.pairwise_map.mp hn).imp
  intro d d' hne x hx x' hx' heq
  rw [Option.ite_none_right_eq_some] at hx hx'
  cases hx.2
  cases hx'.2
  exact hne (Prod.mk.inj heq).1

/-- The candidates of the index in Python are the documents with a token of the query. -/
theorem mem_candidates (h : Describes s docs) (query : String) (id : δ) :
    id ∈ s.candidates z query ↔ ∃ d ∈ docs, (∃ t ∈ tokenize z query, t ∈ d.2) ∧ d.1 = id := by
  unfold BM25Index.candidates
  simp only [Finset.mem_biUnion, List.mem_toFinset, h.postings]
  constructor
  · rintro ⟨t, ht, d, hd, hid, hmem⟩
    exact ⟨d, hd, ⟨t, ht, hmem⟩, hid⟩
  · rintro ⟨d, hd, ⟨t, ht, hmem⟩, hid⟩
    exact ⟨t, ht, d, hd, hid, hmem⟩

theorem mem_rust_candidates (h : RustDescribes r docs coded) (query : String) (j : ℕ) :
    j ∈ r.candidates z query ↔ ∃ d, docs[j]? = some d ∧ ∃ t ∈ tokenize z query, t ∈ d.2 := by
  unfold RustBM25Index.candidates RustBM25Index.queryTokIndices
  simp only [Finset.mem_biUnion, List.mem_toFinset, List.mem_filterMap, rustTokenize_eq]
  constructor
  · rintro ⟨i, ⟨t, ht, hi⟩, hj⟩
    obtain ⟨d, hd, hmem⟩ := ((numbered_term h hi).2.2 j).mp hj
    exact ⟨d, hd, t, ht, hmem⟩
  · rintro ⟨d, hd, t, ht, hmem⟩
    cases hi : r.tokenToIdx.get t with
    | none => exact absurd hmem (unnumbered_term h hi d (List.mem_of_getElem? hd))
    | some i => exact ⟨i, ⟨t, ht, hi⟩, ((numbered_term h hi).2.2 j).mpr ⟨d, hd, hmem⟩⟩

theorem search_page (h : Describes s docs) (hn : (docs.map Prod.fst).Nodup) (query : String)
    (limit : ℕ) (minScore : ℚ) {ids : List δ} (hids : ids.Nodup)
    (hset : ids.toFinset = s.candidates z query) :
    Page descending ((hits p docs (tokenize z query)).filter (fun x => minScore < x.2)) limit 0
      (s.search z p query limit minScore ids) := by
  refine ⟨_, ⟨(sortOn_perm _ _).trans ?_, sortOn_pairwise (fun x : δ × ℚ => OrderDual.toDual x.2) _⟩,
    rfl⟩
  apply (List.perm_ext_iff_of_nodup _ ((nodup_hits p hn _).filter _)).mpr
  · rintro ⟨id, x⟩
    rw [List.mem_filter, mem_hits, List.mem_filterMap]
    have hmem : ∀ id, id ∈ ids ↔ id ∈ s.candidates z query := by
      intro id
      rw [← hset, List.mem_toFinset]
    have hscore : ∀ d ∈ docs, s.score z p query d.1 = bm25 p docs (tokenize z query) d.2 := by
      intro d hd
      rw [score_bm25 z p h, (latest_iff hn d.1 d.2).mpr hd, Option.elim_some]
    constructor
    · rintro ⟨id', hid', heq⟩
      obtain ⟨d, hd, ht, rfl⟩ := (mem_candidates z h query id').mp ((hmem id').mp hid')
      rw [hscore d hd] at heq
      split_ifs at heq with hlt
      cases heq
      exact ⟨⟨d, hd, ht, rfl⟩, decide_eq_true hlt⟩
    · rintro ⟨⟨d, hd, ht, heq⟩, hlt⟩
      cases heq
      refine ⟨d.1, (hmem d.1).mpr ((mem_candidates z h query d.1).mpr ⟨d, hd, ht, rfl⟩), ?_⟩
      rw [hscore d hd, if_pos (of_decide_eq_true hlt)]
  · apply hids.filterMap
    intro a b x ha hb
    rw [Option.mem_def, Option.ite_none_right_eq_some] at ha hb
    cases ha.2
    cases hb.2
    rfl

theorem rust_search_page (h : RustDescribes r docs coded) (havg : r.avgDocLength = mean docs)
    (hn : (docs.map Prod.fst).Nodup) (query : String) (limit : ℕ) (minScore : ℚ)
    {places : List ℕ} (hplaces : places.Nodup)
    (hset : places.toFinset = r.candidates z query) :
    Page descending ((hits p docs (tokenize z query)).filter (fun x => minScore ≤ x.2)) limit 0
      (r.search z p query limit minScore places) := by
  have hmem : ∀ j : ℕ, j ∈ places ↔ ∃ d, docs[j]? = some d ∧ ∃ t ∈ tokenize z query, t ∈ d.2 := by
    intro j
    rw [← mem_rust_candidates z h, ← hset, List.mem_toFinset]
  have hid : ∀ (j : ℕ) d, docs[j]? = some d → r.docIds[j]? = some d.1 := by
    intro j d hd
    rw [h.ids, List.getElem?_map, hd]
    rfl
  let found := places.filterMap (fun j =>
    if minScore ≤ r.candidateScore z p query j then some (j,r.candidateScore z p query j)
    else none)
  let named := fun x : ℕ × ℚ => r.docIds[x.1]?.map (fun id => (id,x.2))
  have hfound : ∀ x, x ∈ found ↔ ∃ d, docs[x.1]? = some d ∧ (∃ t ∈ tokenize z query, t ∈ d.2) ∧
      minScore ≤ x.2 ∧ x.2 = bm25 p docs (tokenize z query) d.2 := by
    rintro ⟨j, y⟩
    rw [List.mem_filterMap]
    constructor
    · rintro ⟨j', hj', heq⟩
      obtain ⟨d, hd, ht⟩ := (hmem j').mp hj'
      rw [candidateScore_bm25 z p h havg query hd] at heq
      split_ifs at heq with hle
      cases heq
      exact ⟨d, hd, ht, hle, rfl⟩
    · rintro ⟨d, hd, ht, hle, heq⟩
      refine ⟨j, (hmem j).mpr ⟨d, hd, ht⟩, ?_⟩
      rw [candidateScore_bm25 z p h havg query hd, ← heq, if_pos hle]
  have hnamed : ∀ x ∈ found, ∃ d, docs[x.1]? = some d ∧ named x = some (d.1,x.2) := by
    intro x hx
    obtain ⟨d, hd, -⟩ := (hfound x).mp hx
    refine ⟨d, hd, ?_⟩
    show r.docIds[x.1]?.map _ = _
    rw [hid x.1 d hd]
    rfl
  have hsome : ∀ x ∈ sortOn (fun x => OrderDual.toDual x.2) found, (named x).isSome := by
    intro x hx
    obtain ⟨d, -, hd⟩ := hnamed x (mem_sortOn.mp hx)
    rw [hd]
    rfl
  have hsearch : r.search z p query limit minScore places =
      ((sortOn (fun x => OrderDual.toDual x.2) found).filterMap named).take limit :=
    filterMap_take hsome limit
  rw [hsearch]
  refine ⟨_, ⟨((sortOn_perm _ found).filterMap named).trans ?_, ?_⟩, rfl⟩
  · apply (List.perm_ext_iff_of_nodup _ ((nodup_hits p hn _).filter _)).mpr
    · intro y
      rw [List.mem_filter, mem_hits, List.mem_filterMap]
      constructor
      · rintro ⟨x, hx, hy⟩
        obtain ⟨d, hd, ht, hle, hscore⟩ := (hfound x).mp hx
        obtain ⟨d', hd', hx'⟩ := hnamed x hx
        rw [hd] at hd'
        cases hd'
        rw [hx'] at hy
        cases hy
        exact ⟨⟨d, List.mem_of_getElem? hd, ht, by rw [hscore]⟩, decide_eq_true hle⟩
      · rintro ⟨⟨d, hd, ht, rfl⟩, hle⟩
        obtain ⟨j, hj, rfl⟩ := List.getElem_of_mem hd
        have hget := List.getElem?_eq_getElem hj
        have hx := (hfound (j,_)).mpr ⟨_, hget, ht, of_decide_eq_true hle, rfl⟩
        obtain ⟨d', hd', hx'⟩ := hnamed _ hx
        rw [hget] at hd'
        cases hd'
        exact ⟨_, hx, hx'⟩
    · have hnodup : found.Nodup := by
        apply hplaces.filterMap
        intro a b x ha hb
        rw [Option.mem_def, Option.ite_none_right_eq_some] at ha hb
        cases ha.2
        cases hb.2
        rfl
      apply List.pairwise_filterMap.mpr
      apply hnodup.imp_of_mem
      intro x x' hx hx' hne y hy y' hy' heq
      obtain ⟨d, hd, hxd⟩ := hnamed x hx
      obtain ⟨d', hd', hxd'⟩ := hnamed x' hx'
      rw [hxd] at hy
      rw [hxd'] at hy'
      cases hy
      cases hy'
      have hplace : (docs.map Prod.fst)[x.1]? = (docs.map Prod.fst)[x'.1]? := by
        rw [List.getElem?_map, List.getElem?_map, hd, hd']
        exact congrArg some (Prod.mk.inj heq).1
      have hlt : x.1 < (docs.map Prod.fst).length := by
        rw [List.length_map]
        exact (List.getElem?_eq_some_iff.mp hd).1
      exact hne (Prod.ext ((List.getElem?_inj hlt hn).mp hplace) (Prod.mk.inj heq).2)
  · apply List.pairwise_filterMap.mpr
    apply (sortOn_pairwise (fun x : ℕ × ℚ => OrderDual.toDual x.2) found).imp
    intro x x' hle y hy y' hy'
    obtain ⟨id, -, rfl⟩ := Option.map_eq_some_iff.mp hy
    obtain ⟨id', -, rfl⟩ := Option.map_eq_some_iff.mp hy'
    exact hle

structure Params.Sound (p : Params) : Prop where
  k1 : 0 ≤ p.k1
  b_nonneg : 0 ≤ p.b
  b_le : p.b ≤ 1
  log : ∀ x, 1 < x → 0 < p.log x

variable {p}

theorem idf_pos (hp : p.Sound) {n df : ℕ} (hdf : 0 < df) (hle : df ≤ n) : 0 < idfOf p n df := by
  rw [idfOf, if_neg hdf.ne']
  apply hp.log
  have hcast : (df : ℚ) ≤ n := by exact_mod_cast hle
  have hnum : (0 : ℚ) < (n : ℚ)-df+1/2 := by linarith
  have hden : (0 : ℚ) < (df : ℚ)+1/2 := by positivity
  have hquot := div_pos hnum hden
  linarith

theorem term_pos (hp : p.Sound) {idf avg : ℚ} (hidf : 0 < idf) {tf : ℕ} (htf : 0 < tf)
    (docLen : ℕ) : 0 < termScore p idf avg tf docLen := by
  have htf' : (0 : ℚ) < tf := by exact_mod_cast htf
  have hk1 := hp.k1
  have hmax : (0 : ℚ) < max avg 1 := lt_max_of_lt_right one_pos
  have hlen : 0 ≤ p.b*docLen/max avg 1 :=
    div_nonneg (mul_nonneg hp.b_nonneg (Nat.cast_nonneg _)) hmax.le
  have hden : 0 ≤ p.k1*(1-p.b+p.b*docLen/max avg 1) := by
    apply mul_nonneg hk1
    have hb := hp.b_le
    linarith
  apply div_pos
  · exact mul_pos hidf (mul_pos htf' (by linarith))
  · linarith

omit [DecidableEq δ] in
theorem bm25_pos (hp : p.Sound) {d : δ × List Word} (hd : d ∈ docs) {query : List Word}
    (hq : ∃ t ∈ query, t ∈ d.2) : 0 < bm25 p docs query d.2 := by
  have hterm : ∀ t, d.2.count t ≠ 0 →
      0 < termScore p (idfOf p docs.length (docs.countP (fun d => t ∈ d.2))) (mean docs)
        (d.2.count t) d.2.length := by
    intro t ht
    apply term_pos hp _ (Nat.pos_of_ne_zero ht)
    apply idf_pos hp _ List.countP_le_length
    exact List.countP_pos_iff.mpr
      ⟨d, hd, decide_eq_true (List.count_pos_iff.mp (Nat.pos_of_ne_zero ht))⟩
  have hfold : ∀ (query : List Word) (score : ℚ), 0 ≤ score →
      (0 < score ∨ ∃ t ∈ query, t ∈ d.2) → 0 < query.foldl (fun score t =>
        if d.2.count t = 0 then score
        else score+termScore p (idfOf p docs.length (docs.countP (fun d => t ∈ d.2))) (mean docs)
          (d.2.count t) d.2.length) score := by
    intro query
    induction query with
    | nil =>
      intro score _ hpos
      rcases hpos with hpos | ⟨t, ht, -⟩
      · exact hpos
      · cases ht
    | cons t query ih =>
      intro score hscore hpos
      rw [List.foldl_cons]
      split_ifs with ht
      · apply ih score hscore
        apply hpos.imp_right
        rintro ⟨t', ht', hmem⟩
        rcases List.mem_cons.mp ht' with rfl | ht'
        · exact absurd hmem (List.count_eq_zero.mp ht)
        · exact ⟨t', ht', hmem⟩
      · have hadd := hterm t ht
        exact ih _ (by linarith) (Or.inl (by linarith))
  exact hfold query 0 le_rfl (Or.inr hq)

variable {z} in
/-- With distinct ids both searches give a page of the documents that share a token with the
query. They differ on the threshold only, and agree on the scores where it is not positive. -/
theorem searches_agree {y : Tokenizer} (hp : p.Sound) {calls : List (Call δ)} {query : String}
    (hquery : SameCut z y query) (hcalls : ∀ c ∈ calls, ∀ text ∈ c.texts, SameCut z y text)
    (hn : ((documents z calls).map Prod.fst).Nodup) (limit : ℕ) (minScore : ℚ)
    {ids : List δ} (hids : ids.Nodup)
    (hset : ids.toFinset = (BM25Index.run z calls).candidates z query) {places : List ℕ}
    (hplaces : places.Nodup)
    (hrust : places.toFinset = (RustBM25Index.run y calls).candidates y query) :
    let found := hits p (documents z calls) (tokenize z query)
    let python := (BM25Index.run z calls).search z p query limit minScore ids
    let rust := (RustBM25Index.run y calls).search y p query limit minScore places
    Page descending (found.filter (fun x => minScore < x.2)) limit 0 python ∧
    Page descending (found.filter (fun x => minScore ≤ x.2)) limit 0 rust ∧
    ((∀ x ∈ found, x.2 ≠ minScore) → python.map Prod.snd = rust.map Prod.snd) ∧
    (minScore ≤ 0 → Page descending found limit 0 python ∧ Page descending found limit 0 rust ∧
      python.map Prod.snd = rust.map Prod.snd) := by
  intro found python rust
  obtain ⟨coded, hdescribes, havg⟩ := rust_run y calls
  have hdocs := SameCut.documents hcalls
  have hpython := search_page z p (run_describes z calls) hn query limit minScore hids hset
  have hkernel := rust_search_page y p hdescribes havg (hdocs ▸ hn) query limit minScore hplaces
    hrust
  rw [hdocs, hquery.tokens] at hkernel
  have hsame : (∀ x ∈ found, x.2 ≠ minScore) → python.map Prod.snd = rust.map Prod.snd := by
    intro hne
    have hfilter : found.filter (fun x => minScore ≤ x.2) =
        found.filter (fun x => minScore < x.2) := by
      apply List.filter_congr
      intro x hx
      exact decide_eq_decide.mpr ⟨fun hle => lt_of_le_of_ne hle (hne x hx).symm, le_of_lt⟩
    rw [hfilter] at hkernel
    exact page_keys (fun x : δ × ℚ => OrderDual.toDual x.2) hpython hkernel
  have hpos : ∀ x ∈ found, 0 < x.2 := by
    intro x hx
    obtain ⟨d, hd, ht, rfl⟩ := (mem_hits p).mp hx
    exact bm25_pos hp hd ht
  refine ⟨hpython, hkernel, hsame, fun hmin => ⟨?_, ?_, hsame (fun x hx => ?_)⟩⟩
  · rwa [List.filter_eq_self.mpr] at hpython
    exact fun x hx => decide_eq_true (lt_of_le_of_lt hmin (hpos x hx))
  · rwa [List.filter_eq_self.mpr] at hkernel
    exact fun x hx => decide_eq_true (le_trans hmin (hpos x hx).le)
  · exact ne_of_gt (lt_of_le_of_lt hmin (hpos x hx))

section Order

variable {docs' : List (δ × List Word)}

omit [DecidableEq δ] in
theorem mean_perm (h : docs.Perm docs') : mean docs = mean docs' := by
  have hnil : docs = [] ↔ docs' = [] := by
    rw [← List.length_eq_zero_iff, ← List.length_eq_zero_iff, h.length_eq]
  have htotal : total docs = total docs' := (h.map _).sum_eq
  unfold mean
  rw [htotal, h.length_eq]
  split_ifs with h1 h2 h2
  · rfl
  · exact absurd (hnil.mp h1) h2
  · exact absurd (hnil.mpr h2) h1
  · rfl

theorem latest_perm (h : docs.Perm docs') (hn : (docs.map Prod.fst).Nodup) (id : δ) :
    latest docs id = latest docs' id := by
  have hn' : (docs'.map Prod.fst).Nodup := (h.map _).nodup_iff.mp hn
  apply Option.ext
  intro tokens
  rw [latest_iff hn, latest_iff hn', h.mem_iff]

variable {z} in
/-- The candidates of the kernel, by their ids. -/
theorem rust_candidate_ids (h : RustDescribes r docs coded) (query : String) (id : δ) :
    (∃ j ∈ r.candidates z query, r.docIds[j]? = some id) ↔
      ∃ d ∈ docs, (∃ t ∈ tokenize z query, t ∈ d.2) ∧ d.1 = id := by
  simp only [mem_rust_candidates z h, h.ids, List.getElem?_map, Option.map_eq_some_iff]
  constructor
  · rintro ⟨j, ⟨d, hd, ht⟩, d', hd', rfl⟩
    obtain rfl := Option.some_injective _ (hd.symm.trans hd')
    exact ⟨d, List.mem_of_getElem? hd, ht, rfl⟩
  · rintro ⟨d, hd, ht, rfl⟩
    obtain ⟨j, hj, rfl⟩ := List.getElem_of_mem hd
    exact ⟨j, ⟨_, List.getElem?_eq_getElem hj, ht⟩, _, List.getElem?_eq_getElem hj, rfl⟩

/-- The order in which distinct documents are added, and the batches, do not matter. -/
theorem order_free (calls calls' : List (Call δ))
    (hperm : (documents z calls).Perm (documents z calls'))
    (hn : ((documents z calls).map Prod.fst).Nodup) (query : String) :
    (∀ id, (BM25Index.run z calls).score z p query id =
      (BM25Index.run z calls').score z p query id) ∧
    (∀ id, (RustBM25Index.run z calls).score z p query id =
      (RustBM25Index.run z calls').score z p query id) ∧
    (BM25Index.run z calls).candidates z query = (BM25Index.run z calls').candidates z query ∧
    (∀ id, (∃ j ∈ (RustBM25Index.run z calls).candidates z query,
        (RustBM25Index.run z calls).docIds[j]? = some id) ↔
      ∃ j ∈ (RustBM25Index.run z calls').candidates z query,
        (RustBM25Index.run z calls').docIds[j]? = some id) := by
  obtain ⟨coded, hrust, havg⟩ := rust_run z calls
  obtain ⟨coded', hrust', havg'⟩ := rust_run z calls'
  have hpython : ∀ id, (BM25Index.run z calls).score z p query id =
      (BM25Index.run z calls').score z p query id := by
    intro id
    rw [score_bm25 z p (run_describes z calls), score_bm25 z p (run_describes z calls'),
      latest_perm hperm hn]
    unfold bm25
    rw [hperm.length_eq, mean_perm hperm]
    simp only [hperm.countP_eq]
  refine ⟨hpython, fun id => ?_, ?_, fun id => ?_⟩
  · rw [rust_score_bm25 z p hrust havg, rust_score_bm25 z p hrust' havg',
      ← score_bm25 z p (run_describes z calls), ← score_bm25 z p (run_describes z calls'), hpython]
  · ext id
    rw [mem_candidates z (run_describes z calls), mem_candidates z (run_describes z calls')]
    simp only [hperm.mem_iff]
  · rw [rust_candidate_ids hrust, rust_candidate_ids hrust']
    simp only [hperm.mem_iff]

end Order

section Run

def letters (text : String) : Word := text.toList.map Char.toLower

def reWords : Tokenizer := { lower := letters, wordChar := fun c => c.isAlphanum || c == '_' }

def regexWords : Tokenizer where
  lower := letters
  wordChar c := c.isAlphanum || c == '_' || (0x300 ≤ c.toNat && c.toNat ≤ 0x36F)

theorem same_cut {text : String} (h : (letters text).all (fun c => c.toNat < 0x300) = true) :
    SameCut reWords regexWords text where
  lower := rfl
  wordChar c hc := by
    have hlt : c.toNat < 0x300 := of_decide_eq_true (List.all_eq_true.mp h c hc)
    simp [reWords, regexWords, hlt]
  useStemming := rfl
  removeStopwords := rfl

def nearLog : Params := { log := fun x => 2*(x-1)/(x+1) }

theorem nearLog_sound : nearLog.Sound where
  k1 := by decide +kernel
  b_nonneg := by decide +kernel
  b_le := by decide +kernel
  log x hx := div_pos (by linarith) (by linarith)

def twoCalls : List (Call ℕ) :=
  [.addDocument 1 "running water flows",.addDocuments [(2,"still water"),(3,"cold stone")]]

theorem two_texts : ∀ c ∈ twoCalls, ∀ text ∈ c.texts, SameCut reWords regexWords text := by
  have hall : ∀ c ∈ twoCalls, ∀ text ∈ c.texts,
      (letters text).all (fun c => c.toNat < 0x300) = true := by
    decide +kernel
  exact fun c hc text ht => same_cut (hall c hc text ht)

theorem scores_agree_two :
    (RustBM25Index.run regexWords twoCalls).score regexWords nearLog "Water flow" 1 =
      (BM25Index.run reWords twoCalls).score reWords nearLog "Water flow" 1 :=
  scores_agree nearLog (same_cut (by decide +kernel)) two_texts 1

theorem searches_agree_two :
    ((BM25Index.run reWords twoCalls).search reWords nearLog "Water flow" 10 0 [1,2]).map
        Prod.snd =
      ((RustBM25Index.run regexWords twoCalls).search regexWords nearLog "Water flow" 10 0
        [1,0]).map Prod.snd :=
  ((searches_agree nearLog_sound (same_cut (by decide +kernel)) two_texts (by decide +kernel) 10 0
    (by decide) (by decide +kernel) (by decide) (by decide +kernel)).2.2.2 le_rfl).2.2

theorem order_free_two :
    (BM25Index.run reWords twoCalls).score reWords nearLog "Water flow" 1 =
      (BM25Index.run reWords [.addDocuments
        [(3,"cold stone"),(1,"running water flows"),(2,"still water")]]).score reWords nearLog
          "Water flow" 1 :=
  (order_free reWords twoCalls [.addDocuments
    [(3,"cold stone"),(1,"running water flows"),(2,"still water")]] (by decide +kernel)
    (by decide +kernel) "Water flow").1 1

end Run

end Scores

end Uru.Query.KeywordIndex
