import Uru.Query.Config
import Uru.Query.QueryCache

/-!
# The hybrid query engine

A query picks its configuration object, resolves dates, asks for an
understanding of the text, adapts the configuration object in place, searches
and reranks. The engine keeps understandings, keyword indexes and rerankers from
call to call; result caching is off here. The store, the clock and the models
are parameters, and so is the search, which reads nothing else of the engine.
-/

set_option autoImplicit false

namespace Uru.Query

inductive Reranker where
  | crossEncoder (modelName : String)
  | llm (model : Option String)
  deriving DecidableEq

/-- An unknown method raises; an empty model is none. -/
def createReranker (method : String) (model : Option String) : Option Reranker :=
  if method = "cross_encoder" then
    some (.crossEncoder ((model.filter (· ≠ "")).getD "BAAI/bge-reranker-v2-m3"))
  else if method = "llm" then some (.llm model) else none

structure UnderstandFlags where
  expandQuery : Bool
  extractEntities : Bool
  detectTemporal : Bool
  lightweight : Bool
  deriving DecidableEq

inductive Answer (υ : Type*) where
  | result (u : UnderstandingResult υ)
  | timeout
  | failed

structure Search (υ : Type*) where
  queryText : String
  namespaceId : ℕ
  config : QueryConfig
  temporalFilter : Option TemporalFilter
  temporalInfo : TemporalInfo
  understanding : Option (UnderstandingResult υ)
  hydeExpander : Option ℤ

structure TextServices (υ : Type*) where
  normalize : String → String
  resolveFast : String → Option (Option ℤ × Option ℤ)
  validateDates : Option ℤ × Option ℤ → Option ℤ × Option ℤ
  isSimpleQuery : String → Bool
  understand : String → UnderstandFlags → Answer υ
  heuristicUnderstanding : String → UnderstandingResult υ

/-- `search` goes up to the candidates for reranking, `finish` from there to the
result. -/
structure Services (υ ι χ ρ : Type*) extends TextServices υ where
  now : ℤ
  hasEmbedder : Bool
  buildIndex : ℕ → Option ι
  search : Search υ → Option ι → χ
  reranks : QueryConfig → χ → Bool
  finish : Search υ → χ → Option Reranker → ρ

abbrev CacheKey := String × ℕ × String × String

structure Engine (υ ι : Type*) where
  config : ℕ
  configs : ℕ → QueryConfig
  hydeExpander : Option ℤ
  understandingCache : QueryCache CacheKey (UnderstandingResult υ)
  keywordSearchers : ℕ → Option ι
  rerankers : String → Option Reranker

inductive Call where
  | query (queryText : String) (namespaceId : ℕ) (config : Option ℕ)
      (temporalFilter : Option TemporalFilter) (lightweight : Option Bool)
  | temporalQuery (query : TemporalQuery) (namespaceId : ℕ) (config : Option ℕ)

variable {υ ι χ ρ : Type*}

/-- A freshly built engine: `config` is its own configuration object, among
those that callers hold. -/
def Engine.new (svc : Services υ ι χ ρ) (config : ℕ) (configs : ℕ → QueryConfig) :
    Engine υ ι where
  config := config
  configs := configs
  hydeExpander :=
    if ((configs config).enableHyde = "auto" ∨ (configs config).enableHyde = "always") ∧
      svc.hasEmbedder = true then some (configs config).hydeNumHypotheticals else none
  understandingCache := QueryCache.empty 500 600000000
  keywordSearchers := fun _ => none
  rerankers := fun _ => none

def _makeKey (svc : TextServices υ) (query : String) (namespaceId : ℕ) (mode extra : String) :
    CacheKey :=
  (svc.normalize query,namespaceId,mode,extra)

def datesGiven (r : Option ℤ × Option ℤ) : Bool := r.1.isSome || r.2.isSome

def resolveTemporal (svc : TextServices υ) (cfg : QueryConfig) (queryText : String)
    (temporalFilter : Option TemporalFilter) : Option TemporalFilter × TemporalInfo :=
  if cfg.enableTemporalResolver = true ∧ (cfg.temporalResolverStrategy = "dateparser" ∨
      cfg.temporalResolverStrategy = "hybrid") then
    match (svc.resolveFast queryText).filter datesGiven with
    | none => (temporalFilter,{})
    | some r =>
      let range := if cfg.temporalDateValidation then svc.validateDates r else r
      if datesGiven range then
        (some (TemporalFilter.ofDates range.1 range.2),
          { detected := true, filterApplied := true, timeStart := range.1,
            timeEnd := range.2 })
      else (temporalFilter,{})
  else (temporalFilter,{})

def flags (cfg : QueryConfig) (lightweight : Option Bool) : UnderstandFlags where
  expandQuery := cfg.enableQueryExpansion
  extractEntities := cfg.enableEntityExtraction
  detectTemporal := cfg.enableTemporalDetection
  lightweight := lightweight.getD true

def freshUnderstanding (svc : TextServices υ) (queryText : String) (fl : UnderstandFlags) :
    Option (UnderstandingResult υ) :=
  if svc.isSimpleQuery queryText then none
  else match svc.understand queryText fl with
    | .result u => some u
    | .timeout => some (svc.heuristicUnderstanding queryText)
    | .failed => none

def understandingStep (svc : Services υ ι χ ρ) (cfg : QueryConfig) (queryText : String)
    (namespaceId : ℕ) (lightweight : Option Bool)
    (cache : QueryCache CacheKey (UnderstandingResult υ)) :
    Option (UnderstandingResult υ) × QueryCache CacheKey (UnderstandingResult υ) :=
  let key := _makeKey svc.toTextServices queryText namespaceId "understanding" ""
  if cfg.enableQueryUnderstanding = false then (none,cache)
  else match cache.get key svc.now with
    | (some u,cache') => (some u,cache')
    | (none,cache') =>
      match freshUnderstanding svc.toTextServices queryText (flags cfg lightweight) with
      | none => (none,cache')
      | some u => (some u,cache'.set key svc.now u)

def TemporalInfo.addReference (info : TemporalInfo) (r : TemporalReference) : TemporalInfo :=
  { info with
    referenceText := r.text
    timeStart := r.startDate.or info.timeStart
    timeEnd := r.endDate.or info.timeEnd }

def understoodTemporal (understanding : Option (UnderstandingResult υ))
    (tf : Option TemporalFilter × TemporalInfo) : Option TemporalFilter × TemporalInfo :=
  match understanding.filter UnderstandingResult.hasTemporal with
  | none => tf
  | some u =>
    let info := u.temporalReferences.foldl TemporalInfo.addReference
      { tf.2 with detected := true }
    if tf.1 = none ∧ datesGiven (info.timeStart,info.timeEnd) = true then
      (some (TemporalFilter.ofDates info.timeStart info.timeEnd),
        { info with filterApplied := true })
    else (tf.1,info)

def searchInput (svc : TextServices υ) (hyde : Option ℤ) (cfg : QueryConfig) (queryText : String)
    (namespaceId : ℕ) (temporalFilter : Option TemporalFilter)
    (understanding : Option (UnderstandingResult υ)) : Search υ :=
  let tf := understoodTemporal understanding (resolveTemporal svc cfg queryText temporalFilter)
  { queryText := queryText
    namespaceId := namespaceId
    config := adapt understanding tf.2.detected cfg
    temporalFilter := tf.1
    temporalInfo := tf.2
    understanding := understanding
    hydeExpander := hyde }

/-- The in-memory keyword index is only used by the hybrid modes with the BM25
method. -/
def usesKeywordIndex (cfg : QueryConfig) : Bool :=
  (cfg.mode = .hybrid || cfg.mode = .all) && cfg.enableKeywordSearch &&
    cfg.keywordSearchMethod != "fulltext"

def indexStep (svc : Services υ ι χ ρ) (cfg : QueryConfig) (namespaceId : ℕ)
    (searchers : ℕ → Option ι) : Option ι × (ℕ → Option ι) :=
  if usesKeywordIndex cfg then
    match searchers namespaceId with
    | some searcher => (some searcher,searchers)
    | none =>
      (svc.buildIndex namespaceId,
        Function.update searchers namespaceId (svc.buildIndex namespaceId))
  else (none,searchers)

def rerankerStep (cfg : QueryConfig) (wanted : Bool) (rerankers : String → Option Reranker) :
    Option Reranker × (String → Option Reranker) :=
  if cfg.enableReranking && wanted then
    match rerankers cfg.rerankingMethod with
    | some r => (some r,rerankers)
    | none =>
      let created := createReranker cfg.rerankingMethod cfg.rerankingModel
      (created,Function.update rerankers cfg.rerankingMethod created)
  else (none,rerankers)

/-- The result of a query, its configuration object as the query leaves it, and
the engine. -/
structure Outcome (υ ι ρ : Type*) where
  result : ρ
  config : QueryConfig
  engine : Engine υ ι

def queryOn (svc : Services υ ι χ ρ) (e : Engine υ ι) (cfg : QueryConfig) (queryText : String)
    (namespaceId : ℕ) (temporalFilter : Option TemporalFilter) (lightweight : Option Bool) :
    Outcome υ ι ρ :=
  let understood := understandingStep svc cfg queryText namespaceId lightweight
    e.understandingCache
  let input := searchInput svc.toTextServices e.hydeExpander cfg queryText namespaceId
    temporalFilter understood.1
  let index := indexStep svc input.config namespaceId e.keywordSearchers
  let candidates := svc.search input index.1
  let reranker := rerankerStep input.config (svc.reranks input.config candidates) e.rerankers
  { result := svc.finish input candidates reranker.1
    config := input.config
    engine := { e with
      understandingCache := understood.2
      keywordSearchers := index.2
      rerankers := reranker.2 } }

/-- `config or self._config`, and the object is written where it stands. -/
def query (svc : Services υ ι χ ρ) (e : Engine υ ι) (queryText : String) (namespaceId : ℕ)
    (config : Option ℕ) (temporalFilter : Option TemporalFilter) (lightweight : Option Bool) :
    ρ × Engine υ ι :=
  let r := config.getD e.config
  let o := queryOn svc e (e.configs r) queryText namespaceId temporalFilter lightweight
  (o.result,{ o.engine with configs := Function.update e.configs r o.config })

def TemporalQuery.firstFilter (q : TemporalQuery) (now : ℤ) : Option TemporalFilter :=
  match q.filters with
  | f::_ => some f
  | [] => (q.contextWindowDays.filter (fun d => d != 0)).bind
    (fun _ => q.getContextFilter now)

/-- Without a configuration of the caller, one is made for the call. -/
def temporalQuery (svc : Services υ ι χ ρ) (e : Engine υ ι) (q : TemporalQuery)
    (namespaceId : ℕ) (config : Option ℕ) : ρ × Engine υ ι :=
  match config with
  | some r =>
    query svc
      { e with configs := Function.update e.configs r (applyTemporalSettings q (e.configs r)) }
      q.query namespaceId (some r) (q.firstFilter svc.now) none
  | none =>
    let o := queryOn svc e (applyTemporalSettings q {}) q.query namespaceId
      (q.firstFilter svc.now) none
    (o.result,o.engine)

def call (svc : Services υ ι χ ρ) (e : Engine υ ι) : Call → ρ × Engine υ ι
  | .query queryText namespaceId config temporalFilter lightweight =>
    query svc e queryText namespaceId config temporalFilter lightweight
  | .temporalQuery q namespaceId config => temporalQuery svc e q namespaceId config

def step (svc : Services υ ι χ ρ) (e : Engine υ ι) (c : Call) : Option (Engine υ ι) :=
  some (call svc e c).2

end Uru.Query
