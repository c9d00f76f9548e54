import Mathlib.Algebra.Order.Field.Rat
import Mathlib.Data.Finset.Lattice.Fold
import Mathlib.Data.List.Count
import Mathlib.Tactic
import Uru.Lib.Record
import Uru.Lib.SortOn

/-!
# The keyword index

A BM25 index grows document by document. The index in Python is keyed by words
and by document ids, the one in the kernel numbers both and counts numbers.
Scores are exact rationals here. Whatever has been added, in batches or one by
one, the fields of each index can be told from the documents alone; where the
two languages cut the texts alike, both give a query the same score on a
document.
-/

set_option autoImplicit false

namespace Uru.Query.KeywordIndex
open Uru.Lib

abbrev Word := List Char

local instance lawful_words : LawfulBEq Word := inferInstance

def STOPWORDS : List Word :=
  ["a", "an", "and", "are", "as", "at", "be", "by", "for", "from", "has", "he", "in", "is", "it",
    "its", "of", "on", "that", "the", "to", "was", "were", "will", "with", "this", "but", "they",
    "have", "had", "what", "when", "where", "who", "which", "why", "how", "all", "each", "every",
    "both", "few", "more", "most", "other", "some", "such", "no", "nor", "not", "only", "own",
    "same", "so", "than", "too", "very", "just", "can", "should", "now", "i", "you", "we", "our",
    "your", "my", "me", "him", "her", "them", "their", "been", "being", "do", "does", "did",
    "doing", "would", "could", "if", "then", "else", "or", "because", "until", "while",
    "am"].map String.toList

def SUFFIXES : List Word :=
  ["ing", "ed", "tion", "ness", "ment", "able", "ible", "ful", "less", "ly", "er", "est", "es",
    "s"].map String.toList

def basicStem (word : Word) : Word :=
  match SUFFIXES.find? (fun suffix => suffix.isSuffixOf word && suffix.length+2 < word.length) with
  | none => word
  | some suffix => word.take (word.length-suffix.length)

/-- How an index cuts texts. Which characters stand in words, combining marks among them,
is the regular expression's own affair, and it differs between the two languages. -/
structure Tokenizer where
  lower : String → Word
  wordChar : Char → Bool
  useStemming : Bool := true
  removeStopwords : Bool := true

/-- Matches of a run of letters and digits between two word boundaries: the runs of word
characters that hold nothing else. -/
def Tokenizer.words (z : Tokenizer) (text : String) : List Word :=
  ((z.lower text).splitOnP (fun c => !z.wordChar c)).filter
    (fun w => !w.isEmpty && w.all Char.isAlphanum)

/-- Two tokenizers with the same options that agree on the characters of a text. -/
structure SameCut (z y : Tokenizer) (text : String) : Prop where
  lower : y.lower text = z.lower text
  wordChar : ∀ c ∈ z.lower text, y.wordChar c = z.wordChar c
  useStemming : y.useStemming = z.useStemming
  removeStopwords : y.removeStopwords = z.removeStopwords

section Tokens

variable (z : Tokenizer)

def tokenize (text : String) : List Word :=
  let tokens := z.words text
  let tokens := if z.removeStopwords then tokens.filter (fun t => t ∉ STOPWORDS) else tokens
  let tokens := if z.useStemming then tokens.map basicStem else tokens
  tokens.filter (fun t => 2 < t.length)

def token (word : Word) : Option Word :=
  if z.removeStopwords ∧ word ∈ STOPWORDS then none
  else
    let stemmed := if z.useStemming then basicStem word else word
    if 2 < stemmed.length then some stemmed else none

def rustTokenize (text : String) : List Word := (z.words text).filterMap (token z)

def indexToken (s : Record Word ℕ × List ℕ) (t : Word) : Record Word ℕ × List ℕ :=
  match s.1.get t with
  | some idx => (s.1,s.2++[idx])
  | none => (s.1.set t s.1.entries.length,s.2++[s.1.entries.length])

/-- A new token gets the next number. -/
def tokenizeIndexed (tokenToIdx : Record Word ℕ) (text : String) : Record Word ℕ × List ℕ :=
  (z.words text).foldl (fun s word =>
    match token z word with
    | some t => indexToken s t
    | none => s) (tokenToIdx,[])

theorem splitOnP_congr {p q : Char → Bool} {l : Word} (h : ∀ c ∈ l, p c = q c) :
    l.splitOnP p = l.splitOnP q := by
  induction l with
  | nil => rfl
  | cons c l ih =>
    rw [List.splitOnP_cons_eq_if_modifyHead, List.splitOnP_cons_eq_if_modifyHead,
      h c List.mem_cons_self, ih (fun c' hc' => h c' (List.mem_cons_of_mem c hc'))]

variable {z} in
theorem SameCut.tokens {y : Tokenizer} {text : String} (h : SameCut z y text) :
    tokenize y text = tokenize z text := by
  have hwords : y.words text = z.words text := by
    rw [Tokenizer.words, Tokenizer.words, h.lower,
      splitOnP_congr (fun c hc => congrArg not (h.wordChar c hc))]
  rw [tokenize, tokenize, hwords, h.useStemming, h.removeStopwords]

theorem rustTokenize_eq (text : String) : rustTokenize z text = tokenize z text := by
  unfold rustTokenize tokenize
  generalize z.words text = l
  induction l with
  | nil => simp
  | cons word l ih =>
    rw [List.filterMap_cons, ih]
    unfold token
    by_cases hstop : z.removeStopwords = true
    · by_cases hword : word ∈ STOPWORDS
      · simp [hstop, hword]
      · by_cases hstem : z.useStemming = true
        · by_cases hlen : 2 < (basicStem word).length
          · simp [hstop, hword, hstem, hlen]
          · simp [hstop, hword, hstem, hlen]
        · by_cases hlen : 2 < word.length
          · simp [hstop, hword, hstem, hlen]
          · simp [hstop, hword, hstem, hlen]
    · by_cases hstem : z.useStemming = true
      · by_cases hlen : 2 < (basicStem word).length
        · simp [hstop, hstem, hlen]
        · simp [hstop, hstem, hlen]
      · by_cases hlen : 2 < word.length
        · simp [hstop, hstem, hlen]
        · simp [hstop, hstem, hlen]

theorem tokenizeIndexed_eq (m : Record Word ℕ) (text : String) :
    tokenizeIndexed z m text = (tokenize z text).foldl indexToken (m,[]) := by
  rw [← rustTokenize_eq, rustTokenize, List.foldl_filterMap, tokenizeIndexed]
  congr 1
  funext s word
  cases token z word with
  | none => rfl
  | some t => rfl

end Tokens

structure Params where
  k1 : ℚ := 3/2
  b : ℚ := 3/4
  log : ℚ → ℚ

def idfOf (p : Params) (n df : ℕ) : ℚ :=
  if df = 0 then 0 else p.log (((n : ℚ)-df+1/2)/(df+1/2)+1)

def termScore (p : Params) (idf avg : ℚ) (tf docLen : ℕ) : ℚ :=
  idf*(tf*(p.k1+1))/(tf+p.k1*(1-p.b+p.b*docLen/max avg 1))

section Python

variable {δ : Type} [DecidableEq δ]

structure BM25Index (δ : Type) where
  docLengths : Record δ ℕ
  docFreqs : Record δ (Word → ℕ)
  termDocFreqs : Word → ℕ
  avgDocLength : ℚ
  totalDocs : ℕ
  invertedIndex : Word → Finset δ
  totalLength : ℕ

def BM25Index.empty : BM25Index δ := ⟨∅,∅,fun _ => 0,0,0,fun _ => ∅,0⟩

/-- The body that `add_document` and the loop of `add_documents` share. -/
def BM25Index.put (s : BM25Index δ) (d : δ × List Word) : BM25Index δ where
  docLengths := s.docLengths.set d.1 d.2.length
  docFreqs := s.docFreqs.set d.1 (fun t => d.2.count t)
  termDocFreqs t := if t ∈ d.2 then s.termDocFreqs t+1 else s.termDocFreqs t
  avgDocLength := s.avgDocLength
  totalDocs := s.totalDocs+1
  invertedIndex t := if t ∈ d.2 then insert d.1 (s.invertedIndex t) else s.invertedIndex t
  totalLength := s.totalLength+d.2.length

def BM25Index.updateAvgLength (s : BM25Index δ) : BM25Index δ :=
  if 0 < s.totalDocs then { s with avgDocLength := s.totalLength/s.totalDocs } else s

inductive Call (δ : Type) where
  | addDocument (docId : δ) (text : String)
  | addDocuments (documents : List (δ × String))

def Call.texts : Call δ → List String
  | .addDocument _ text => [text]
  | .addDocuments documents => documents.map Prod.snd

def Call.documents (z : Tokenizer) : Call δ → List (δ × List Word)
  | .addDocument docId text => [(docId,tokenize z text)]
  | .addDocuments documents => documents.map (fun d => (d.1,tokenize z d.2))

variable (z : Tokenizer) (p : Params)

def BM25Index.step (s : BM25Index δ) : Call δ → BM25Index δ
  | .addDocument docId text => (s.put (docId,tokenize z text)).updateAvgLength
  | .addDocuments documents =>
    (documents.foldl (fun s d => s.put (d.1,tokenize z d.2)) s).updateAvgLength

def BM25Index.run (calls : List (Call δ)) : BM25Index δ :=
  calls.foldl (BM25Index.step z) BM25Index.empty

def BM25Index.idf (s : BM25Index δ) (t : Word) : ℚ :=
  idfOf p s.totalDocs (s.termDocFreqs t)

def BM25Index.score (s : BM25Index δ) (query : String) (docId : δ) : ℚ :=
  match s.docFreqs.get docId, s.docLengths.get docId with
  | some docFreq, some docLen =>
    (tokenize z query).foldl (fun score t =>
      if docFreq t = 0 then score
      else score+termScore p (s.idf p t) s.avgDocLength (docFreq t) docLen) 0
  | _, _ => 0

def BM25Index.candidates (s : BM25Index δ) (query : String) : Finset δ :=
  (tokenize z query).toFinset.biUnion s.invertedIndex

/-- The set of candidates is walked in some order. -/
def BM25Index.search (s : BM25Index δ) (query : String) (limit : ℕ) (minScore : ℚ)
    (candidates : List δ) : List (δ × ℚ) :=
  (sortOn (fun r => OrderDual.toDual r.2) (candidates.filterMap (fun docId =>
    if minScore < s.score z p query docId then some (docId,s.score z p query docId)
    else none))).take limit

end Python

section Rust

variable {δ : Type} [DecidableEq δ]

structure RustBM25Index (δ : Type) where
  tokenToIdx : Record Word ℕ
  docIdToIdx : Record δ ℕ
  docIds : List δ
  docLengths : List ℕ
  docFreqs : List (ℕ → ℕ)
  termDocFreqs : ℕ → ℕ
  invertedIndex : ℕ → List ℕ
  totalLength : ℕ
  totalDocs : ℕ
  avgDocLength : ℚ

def RustBM25Index.empty : RustBM25Index δ :=
  ⟨∅,∅,[],[],[],fun _ => 0,fun _ => [],0,0,0⟩

def RustBM25Index.addDocumentTokens (s : RustBM25Index δ) (docId : δ) (tokens : List ℕ) :
    RustBM25Index δ :=
  let docIdx := s.docIds.length
  { s with
    docIdToIdx := s.docIdToIdx.set docId docIdx
    docIds := s.docIds++[docId]
    docLengths := s.docLengths++[tokens.length]
    docFreqs := s.docFreqs++[fun tok => tokens.count tok]
    termDocFreqs := fun tok =>
      if tok ∈ tokens then s.termDocFreqs tok+1 else s.termDocFreqs tok
    invertedIndex := fun tok =>
      if tok ∈ tokens then s.invertedIndex tok++[docIdx] else s.invertedIndex tok
    totalDocs := s.totalDocs+1
    totalLength := s.totalLength+tokens.length }

def RustBM25Index.updateAvgLength (s : RustBM25Index δ) : RustBM25Index δ :=
  if 0 < s.totalDocs then { s with avgDocLength := s.totalLength/s.totalDocs } else s

variable (z : Tokenizer) (p : Params)

/-- Tokenizing may number new tokens. -/
def RustBM25Index.put (s : RustBM25Index δ) (docId : δ) (text : String) : RustBM25Index δ :=
  let (tokenToIdx,tokens) := tokenizeIndexed z s.tokenToIdx text
  { s with tokenToIdx := tokenToIdx }.addDocumentTokens docId tokens

def RustBM25Index.step (s : RustBM25Index δ) : Call δ → RustBM25Index δ
  | .addDocument docId text => (s.put z docId text).updateAvgLength
  | .addDocuments documents =>
    (documents.foldl (fun s d => s.put z d.1 d.2) s).updateAvgLength

def RustBM25Index.run (calls : List (Call δ)) : RustBM25Index δ :=
  calls.foldl (RustBM25Index.step z) RustBM25Index.empty

def RustBM25Index.idf (s : RustBM25Index δ) (tokIdx : ℕ) : ℚ :=
  idfOf p s.totalDocs (s.termDocFreqs tokIdx)

def RustBM25Index.score (s : RustBM25Index δ) (query : String) (docId : δ) : ℚ :=
  match s.docIdToIdx.get docId with
  | none => 0
  | some docIdx =>
    (rustTokenize z query).foldl (fun score t =>
      match s.tokenToIdx.get t with
      | none => score
      | some tokIdx =>
        let tf := (s.docFreqs.getD docIdx (fun _ => 0)) tokIdx
        if tf = 0 then score
        else score+termScore p (s.idf p tokIdx) s.avgDocLength tf
          (s.docLengths.getD docIdx 0)) 0

def RustBM25Index.queryTokIndices (s : RustBM25Index δ) (query : String) : List ℕ :=
  (rustTokenize z query).filterMap s.tokenToIdx.get

def RustBM25Index.candidates (s : RustBM25Index δ) (query : String) : Finset ℕ :=
  (s.queryTokIndices z query).toFinset.biUnion (fun tok => (s.invertedIndex tok).toFinset)

def RustBM25Index.candidateScore (s : RustBM25Index δ) (query : String) (docIdx : ℕ) : ℚ :=
  (s.queryTokIndices z query).foldl (fun score tokIdx =>
    let tf := (s.docFreqs.getD docIdx (fun _ => 0)) tokIdx
    if tf = 0 then score
    else score+termScore p (s.idf p tokIdx) s.avgDocLength tf
      (s.docLengths.getD docIdx 0)) 0

def RustBM25Index.search (s : RustBM25Index δ) (query : String) (limit : ℕ) (minScore : ℚ)
    (candidates : List ℕ) : List (δ × ℚ) :=
  ((sortOn (fun r => OrderDual.toDual r.2) (candidates.filterMap (fun docIdx =>
    if minScore ≤ s.candidateScore z p query docIdx then
      some (docIdx,s.candidateScore z p query docIdx)
    else none))).take limit).filterMap (fun r => s.docIds[r.1]?.map (fun id => (id,r.2)))

end Rust

section Documents

variable {δ : Type} [DecidableEq δ]

def latest (docs : List (δ × List Word)) (id : δ) : Option (List Word) :=
  docs.foldl (fun r d => if d.1 = id then some d.2 else r) none

def total (docs : List (δ × List Word)) : ℕ := (docs.map (fun d => d.2.length)).sum

def mean (docs : List (δ × List Word)) : ℚ := if docs = [] then 0 else total docs/docs.length

theorem latest_append (docs : List (δ × List Word)) (d : δ × List Word) (id : δ) :
    latest (docs++[d]) id = if d.1 = id then some d.2 else latest docs id := List.foldl_append

omit [DecidableEq δ] in
theorem total_append (docs : List (δ × List Word)) (d : δ × List Word) :
    total (docs++[d]) = total docs+d.2.length := by
  simp [total]

theorem latest_mem {docs : List (δ × List Word)} {id : δ} {tokens : List Word}
    (h : latest docs id = some tokens) : (id,tokens) ∈ docs := by
  induction docs using List.reverseRecOn with
  | nil => cases h
  | append_singleton docs d ih =>
    rw [latest_append] at h
    split_ifs at h with hid
    · cases h
      subst hid
      exact List.mem_append_right _ (List.mem_singleton_self d)
    · exact List.mem_append_left _ (ih h)

/-- With distinct ids, the tokens of an id are those of its one document. -/
theorem latest_iff {docs : List (δ × List Word)} (hn : (docs.map Prod.fst).Nodup) (id : δ)
    (tokens : List Word) : latest docs id = some tokens ↔ (id,tokens) ∈ docs := by
  refine ⟨latest_mem, ?_⟩
  induction docs using List.reverseRecOn with
  | nil => exact fun h => by cases h
  | append_singleton docs d ih =>
    intro h
    rw [List.map_append, List.nodup_append] at hn
    rw [latest_append]
    rcases List.mem_append.mp h with h | h
    · have hne : d.1 ≠ id := fun he =>
        hn.2.2 id (List.mem_map_of_mem h) d.1 (by simp) he.symm
      rw [if_neg hne]
      exact ih hn.1 h
    · obtain rfl := List.mem_singleton.mp h
      exact if_pos rfl

/-- The index in Python, told from the documents. -/
structure Describes (s : BM25Index δ) (docs : List (δ × List Word)) : Prop where
  lengths : ∀ id, s.docLengths.get id = (latest docs id).map List.length
  freqs : ∀ id, s.docFreqs.get id = (latest docs id).map (fun tokens t => tokens.count t)
  term_docs : ∀ t, s.termDocFreqs t = docs.countP (fun d => t ∈ d.2)
  postings : ∀ t id, id ∈ s.invertedIndex t ↔ ∃ d ∈ docs, d.1 = id ∧ t ∈ d.2
  count : s.totalDocs = docs.length
  length : s.totalLength = total docs
  avg : s.avgDocLength = mean docs

/-- The same before the average is brought up to date. -/
structure Stale (s : BM25Index δ) (docs : List (δ × List Word)) : Prop where
  fresh : Describes { s with avgDocLength := mean docs } docs
  start : docs = [] → s.avgDocLength = 0

theorem Describes.stale {s : BM25Index δ} {docs : List (δ × List Word)} (h : Describes s docs) :
    Stale s docs where
  fresh := ⟨h.lengths,h.freqs,h.term_docs,h.postings,h.count,h.length,rfl⟩
  start hdocs := by
    rw [h.avg, mean, if_pos hdocs]

theorem put_stale {s : BM25Index δ} {docs : List (δ × List Word)} (h : Stale s docs)
    (d : δ × List Word) : Stale (s.put d) (docs++[d]) where
  fresh := by
    have hs := h.fresh
    constructor
    · intro id
      show (s.docLengths.set d.1 d.2.length).get id = _
      rw [Record.get_set, latest_append]
      split_ifs with h1 h2 h2
      · rfl
      · exact absurd h1.symm h2
      · exact absurd h2.symm h1
      · exact hs.lengths id
    · intro id
      show (s.docFreqs.set d.1 (fun t => d.2.count t)).get id = _
      rw [Record.get_set, latest_append]
      split_ifs with h1 h2 h2
      · rfl
      · exact absurd h1.symm h2
      · exact absurd h2.symm h1
      · exact hs.freqs id
    · intro t
      show (if t ∈ d.2 then s.termDocFreqs t+1 else s.termDocFreqs t) = _
      rw [List.countP_append, ← hs.term_docs]
      by_cases ht : t ∈ d.2
      · simp [ht]
      · simp [ht]
    · intro t id
      show id ∈ (if t ∈ d.2 then insert d.1 (s.invertedIndex t) else s.invertedIndex t) ↔ _
      have hold := hs.postings t id
      simp only [List.mem_append, List.mem_singleton, or_and_right, exists_or, exists_eq_left]
      rw [← hold]
      split_ifs with ht
      · rw [Finset.mem_insert]
        simp [ht, or_comm, eq_comm]
      · simp [ht]
    · show s.totalDocs+1 = _
      rw [List.length_append, ← hs.count]
      rfl
    · show s.totalLength+d.2.length = _
      rw [total_append, ← hs.length]
    · rfl
  start hdocs := by simp at hdocs

theorem fold_stale {s : BM25Index δ} {docs : List (δ × List Word)} (h : Stale s docs)
    (ds : List (δ × List Word)) : Stale (ds.foldl BM25Index.put s) (docs++ds) := by
  induction ds generalizing s docs with
  | nil => simpa using h
  | cons d ds ih =>
    have hrest := ih (put_stale h d)
    rwa [List.append_assoc, List.singleton_append] at hrest

theorem update_describes {s : BM25Index δ} {docs : List (δ × List Word)} (h : Stale s docs) :
    Describes s.updateAvgLength docs := by
  have hs := h.fresh
  have htotal : s.totalLength = total docs := hs.length
  have hdocs : s.totalDocs = docs.length := hs.count
  unfold BM25Index.updateAvgLength
  split_ifs with hpos
  · have hne : docs ≠ [] := by
      rintro rfl
      rw [hdocs] at hpos
      exact absurd hpos (lt_irrefl 0)
    refine ⟨hs.lengths, hs.freqs, hs.term_docs, hs.postings, hs.count, hs.length, ?_⟩
    show (s.totalLength : ℚ)/s.totalDocs = mean docs
    rw [mean, if_neg hne, htotal, hdocs]
  · have hnil : docs = [] := by
      apply List.eq_nil_of_length_eq_zero
      omega
    refine ⟨hs.lengths, hs.freqs, hs.term_docs, hs.postings, hs.count, hs.length, ?_⟩
    rw [h.start hnil, mean, if_pos hnil]

variable (z : Tokenizer)

theorem step_describes {s : BM25Index δ} {docs : List (δ × List Word)} (h : Describes s docs)
    (c : Call δ) : Describes (s.step z c) (docs++c.documents z) := by
  cases c with
  | addDocument docId text => exact update_describes (put_stale h.stale _)
  | addDocuments documents =>
    have hfold := fold_stale h.stale (documents.map (fun d => (d.1,tokenize z d.2)))
    rw [List.foldl_map] at hfold
    exact update_describes hfold

def documents (calls : List (Call δ)) : List (δ × List Word) := calls.flatMap (Call.documents z)

variable {z} in
omit [DecidableEq δ] in
theorem SameCut.documents {y : Tokenizer} {calls : List (Call δ)}
    (h : ∀ c ∈ calls, ∀ text ∈ c.texts, SameCut z y text) : documents y calls = documents z calls := by
  refine List.flatMap_congr (fun c hc => ?_)
  have htexts := h c hc
  cases c with
  | addDocument docId text =>
    have htext := htexts text List.mem_cons_self
    rw [Call.documents, Call.documents, htext.tokens]
  | addDocuments documents =>
    refine List.map_congr_left (fun d hd => ?_)
    have htext := htexts d.2 (List.mem_map_of_mem hd)
    rw [htext.tokens]

/-- After any calls the index in Python is told from the documents. -/
theorem run_describes (calls : List (Call δ)) :
    Describes (BM25Index.run z calls) (documents z calls) := by
  have hempty : Describes (BM25Index.empty : BM25Index δ) [] :=
    ⟨fun _ => rfl,fun _ => rfl,fun _ => rfl,by simp [BM25Index.empty],rfl,rfl,rfl⟩
  have h : ∀ (s : BM25Index δ) docs, Describes s docs →
      Describes (calls.foldl (BM25Index.step z) s) (docs++documents z calls) := by
    induction calls with
    | nil => exact fun s docs hs => by simpa [documents] using hs
    | cons c calls ih =>
      intro s docs hs
      have hrest := ih _ _ (step_describes z hs c)
      rwa [List.append_assoc] at hrest
  exact h BM25Index.empty [] hempty

end Documents

end Uru.Query.KeywordIndex
