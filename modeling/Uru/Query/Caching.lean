import Uru.Query.Undisturbed

/-!
# Queries over the caches

A call that misses the result cache goes from await to await: it consults the
understanding cache and perhaps the model, reads the store any number of times,
takes or builds the keyword index, and fills the result cache that the engine
has by then. Between its awaits the clock ticks, the store is written, caches
are invalidated and other calls go on. What an invalidation counts, and the
moments the run has been through, are remembered beside the engine's state.
-/

set_option autoImplicit false

namespace Uru.Query

/-- The fields of `_CACHE_KEYED_CONFIG_FIELDS`, and the temporal filter: what
`_cache_extra_digest` hashes. -/
structure CacheExtra where
  maxChunks : ℤ
  maxEntities : ℤ
  maxGraphDepth : ℤ
  minChunkSimilarity : ℚ
  minEntitySimilarity : ℚ
  vectorWeight : ℚ
  graphWeight : ℚ
  keywordWeight : ℚ
  rrfK : ℤ
  applyRecencyBias : Bool
  recencyWeight : ℚ
  recencyDecayDays : ℚ
  enableReranking : Bool
  rerankingMethod : String
  rerankingModel : Option String
  rerankingFinalK : ℤ
  enableKeywordSearch : Bool
  keywordSearchMethod : String
  enableHyde : String
  enableMultiStage : Bool
  enableDiversity : Bool
  diversityLambda : ℚ
  enableNarrativeCoherence : Bool
  temporalFilter : Option TemporalFilter
  deriving DecidableEq

def _cacheExtraDigest (cfg : QueryConfig) (temporalFilter : Option TemporalFilter) :
    CacheExtra where
  maxChunks := cfg.maxChunks
  maxEntities := cfg.maxEntities
  maxGraphDepth := cfg.maxGraphDepth
  minChunkSimilarity := cfg.minChunkSimilarity
  minEntitySimilarity := cfg.minEntitySimilarity
  vectorWeight := cfg.vectorWeight
  graphWeight := cfg.graphWeight
  keywordWeight := cfg.keywordWeight
  rrfK := cfg.rrfK
  applyRecencyBias := cfg.applyRecencyBias
  recencyWeight := cfg.recencyWeight
  recencyDecayDays := cfg.recencyDecayDays
  enableReranking := cfg.enableReranking
  rerankingMethod := cfg.rerankingMethod
  rerankingModel := cfg.rerankingModel
  rerankingFinalK := cfg.rerankingFinalK
  enableKeywordSearch := cfg.enableKeywordSearch
  keywordSearchMethod := cfg.keywordSearchMethod
  enableHyde := cfg.enableHyde
  enableMultiStage := cfg.enableMultiStage
  enableDiversity := cfg.enableDiversity
  diversityLambda := cfg.diversityLambda
  enableNarrativeCoherence := cfg.enableNarrativeCoherence
  temporalFilter := temporalFilter

abbrev ResultKey := String × ℕ × SearchMode × CacheExtra

structure Input where
  queryText : String
  namespaceId : ℕ
  config : QueryConfig
  temporalFilter : Option TemporalFilter
  lightweight : Option Bool
  deriving DecidableEq

/-- The services of a store with contents `σ`. A search reads the configuration
and the store at each of its reads, and takes the index for each of its texts. -/
structure StoreServices (υ ι σ ρ : Type*) extends TextServices υ where
  hydeExpander : Option ℤ
  buildIndex : σ → Option ι
  wantsReranker : Search υ → (ℕ → QueryConfig × σ) → (ℕ → Option ι) → Bool
  answer : Search υ → (ℕ → QueryConfig × σ) → (ℕ → Option ι) → Option Reranker → ρ

/-- A keyword index that a call used, the chunks it is built from, and the
invalidations of the namespace before they were read. -/
structure Indexed (ι σ : Type*) where
  chunks : σ
  epoch : ℕ
  index : Option ι

inductive Fetch (σ : Type*) where
  | idle
  | fetching
  | fetched (chunks : σ) (epoch : ℕ)

inductive Stage (υ ι σ : Type*) where
  | missed
  | asking
  | searching (input : Search υ) (views : List (QueryConfig × σ)) (indexes : List (Indexed ι σ))
      (fetch : Fetch σ)
  | returned (indexes : List (Indexed ι σ))

/-- A call that missed: its configuration object, and the invalidations of its
namespace before it started. -/
structure Active (υ ι σ : Type*) where
  input : Input
  config : ℕ
  epoch : ℕ
  stage : Stage υ ι σ

structure Served (ρ : Type*) where
  input : Input
  result : ρ
  atTime : ℤ
  epoch : ℕ

structure Moment (σ : Type*) where
  time : ℤ
  epoch : ℕ → ℕ
  store : ℕ → σ

structure World (υ ι σ ρ : Type*) where
  config : ℕ
  configs : ℕ → QueryConfig
  store : ℕ → σ
  now : ℤ
  epoch : ℕ → ℕ
  cache : QueryCache ResultKey ρ
  understandingCache : QueryCache CacheKey (UnderstandingResult υ)
  keywordSearchers : ℕ → Option (ι × σ × ℕ)
  rerankers : String → Option Reranker
  calls : List (Active υ ι σ)
  asked : List Input
  served : List (Served ρ)
  moments : List (Moment σ)

inductive Move where
  | consult
  | answered
  | read
  | lookUpIndex
  | listChunks
  | indexChunks
  | finish

inductive Event (σ : Type*) where
  | tick (ticks : ℕ)
  | write (namespaceId : ℕ) (content : σ)
  | invalidateCaches (namespaceId : ℕ)
  | query (queryText : String) (namespaceId : ℕ) (config : Option ℕ)
      (temporalFilter : Option TemporalFilter) (lightweight : Option Bool)
  | advance (i : ℕ) (m : Move)

variable {υ ι σ ρ : Type*}

def resultKey (svc : TextServices υ) (c : Input) : ResultKey :=
  (svc.normalize c.queryText,c.namespaceId,c.config.mode,
    _cacheExtraDigest c.config c.temporalFilter)

def understandingKey (svc : TextServices υ) (c : Input) : CacheKey :=
  _makeKey svc c.queryText c.namespaceId "understanding" ""

def World.moment (w : World υ ι σ ρ) : Moment σ := ⟨w.now,w.epoch,w.store⟩

def World.advance (w : World υ ι σ ρ) (i : ℕ) (c : Active υ ι σ) (stage : Stage υ ι σ) :
    World υ ι σ ρ :=
  { w with calls := w.calls.set i { c with stage := stage } }

def beginSearch (svc : StoreServices υ ι σ ρ) (w : World υ ι σ ρ) (i : ℕ) (c : Active υ ι σ)
    (understanding : Option (UnderstandingResult υ)) : World υ ι σ ρ :=
  let input := searchInput svc.toTextServices svc.hydeExpander (w.configs c.config)
    c.input.queryText c.input.namespaceId c.input.temporalFilter understanding
  { w.advance i c (.searching input [] [] .idle) with
    configs := Function.update w.configs c.config input.config }

def invalidateCaches (namespaceId : ℕ) (w : World υ ι σ ρ) : World υ ι σ ρ :=
  { w with
    epoch := Function.update w.epoch namespaceId (w.epoch namespaceId+1)
    cache := QueryCache.empty w.cache.maxSize w.cache.ttl
    understandingCache :=
      QueryCache.empty w.understandingCache.maxSize w.understandingCache.ttl
    keywordSearchers := Function.update w.keywordSearchers namespaceId none }

def startQuery (svc : StoreServices υ ι σ ρ) (w : World υ ι σ ρ) (config : ℕ) (c : Input) :
    World υ ι σ ρ :=
  match w.cache.get (resultKey svc.toTextServices c) w.now with
  | (some result,cache) =>
    { w with
      cache := cache
      asked := w.asked++[c]
      served := w.served++[⟨c,result,w.now,w.epoch c.namespaceId⟩] }
  | (none,cache) =>
    { w with
      cache := cache
      asked := w.asked++[c]
      calls := w.calls++[⟨c,config,w.epoch c.namespaceId,.missed⟩] }

def consult (svc : StoreServices υ ι σ ρ) (w : World υ ι σ ρ) (i : ℕ) (c : Active υ ι σ) :
    World υ ι σ ρ :=
  if (w.configs c.config).enableQueryUnderstanding = false then beginSearch svc w i c none
  else match w.understandingCache.get (understandingKey svc.toTextServices c.input) w.now with
    | (some u,cache) => beginSearch svc { w with understandingCache := cache } i c (some u)
    | (none,cache) =>
      if svc.isSimpleQuery c.input.queryText then
        beginSearch svc { w with understandingCache := cache } i c none
      else { w with understandingCache := cache }.advance i c .asking

def answered (svc : StoreServices υ ι σ ρ) (w : World υ ι σ ρ) (i : ℕ) (c : Active υ ι σ) :
    World υ ι σ ρ :=
  match freshUnderstanding svc.toTextServices c.input.queryText
      (flags (w.configs c.config) c.input.lightweight) with
  | none => beginSearch svc w i c none
  | some u =>
    beginSearch svc
      { w with
        understandingCache := w.understandingCache.set
          (understandingKey svc.toTextServices c.input) w.now u } i c (some u)

def viewAt (w : World υ ι σ ρ) (c : Active υ ι σ) (views : List (QueryConfig × σ)) (k : ℕ) :
    QueryConfig × σ :=
  views.getD k (w.configs c.config,w.store c.input.namespaceId)

def indexAt (indexes : List (Indexed ι σ)) (k : ℕ) : Option ι :=
  (indexes[k]?.or indexes.getLast?).bind (·.index)

def finish (svc : StoreServices υ ι σ ρ) (w : World υ ι σ ρ) (i : ℕ) (c : Active υ ι σ)
    (input : Search υ) (views : List (QueryConfig × σ)) (indexes : List (Indexed ι σ)) :
    World υ ι σ ρ :=
  let reranker := rerankerStep (w.configs c.config)
    (svc.wantsReranker input (viewAt w c views) (indexAt indexes)) w.rerankers
  { w.advance i c (.returned indexes) with
    cache := w.cache.set (resultKey svc.toTextServices c.input) w.now
      (svc.answer input (viewAt w c views) (indexAt indexes) reranker.1)
    rerankers := reranker.2 }

def lookUpIndex (w : World υ ι σ ρ) (i : ℕ) (c : Active υ ι σ) (input : Search υ)
    (views : List (QueryConfig × σ)) (indexes : List (Indexed ι σ)) : World υ ι σ ρ :=
  match w.keywordSearchers c.input.namespaceId with
  | some (searcher,chunks,epoch) =>
    w.advance i c (.searching input views (indexes++[⟨chunks,epoch,some searcher⟩]) .idle)
  | none => w.advance i c (.searching input views indexes .fetching)

def indexChunks (svc : StoreServices υ ι σ ρ) (w : World υ ι σ ρ) (i : ℕ) (c : Active υ ι σ)
    (input : Search υ) (views : List (QueryConfig × σ)) (indexes : List (Indexed ι σ))
    (chunks : σ) (epoch : ℕ) : World υ ι σ ρ :=
  let built := svc.buildIndex chunks
  { w.advance i c (.searching input views (indexes++[⟨chunks,epoch,built⟩]) .idle) with
    keywordSearchers := built.elim w.keywordSearchers (fun searcher =>
      Function.update w.keywordSearchers c.input.namespaceId (some (searcher,chunks,epoch))) }

def advance (svc : StoreServices υ ι σ ρ) (w : World υ ι σ ρ) (i : ℕ) (c : Active υ ι σ)
    (m : Move) : Option (World υ ι σ ρ) :=
  match m, c.stage with
  | .consult, .missed => some (consult svc w i c)
  | .answered, .asking => some (answered svc w i c)
  | .read, .searching input views indexes fetch => some (w.advance i c (.searching input
      (views++[(w.configs c.config,w.store c.input.namespaceId)]) indexes fetch))
  | .lookUpIndex, .searching input views indexes .idle =>
    if usesKeywordIndex (w.configs c.config) then some (lookUpIndex w i c input views indexes)
    else none
  | .listChunks, .searching input views indexes .fetching =>
    some (w.advance i c (.searching input views indexes
      (.fetched (w.store c.input.namespaceId) (w.epoch c.input.namespaceId))))
  | .indexChunks, .searching input views indexes (.fetched chunks epoch) =>
    some (indexChunks svc w i c input views indexes chunks epoch)
  | .finish, .searching input views indexes .idle =>
    if usesKeywordIndex (w.configs c.config) && indexes.isEmpty then none
    else some (finish svc w i c input views indexes)
  | _, _ => none

def transition (svc : StoreServices υ ι σ ρ) (w : World υ ι σ ρ) :
    Event σ → Option (World υ ι σ ρ)
  | .tick ticks => some { w with now := w.now+ticks }
  | .write namespaceId content =>
    some { w with store := Function.update w.store namespaceId content }
  | .invalidateCaches namespaceId => some (invalidateCaches namespaceId w)
  | .query queryText namespaceId config temporalFilter lightweight =>
    let r := config.getD w.config
    some (startQuery svc w r ⟨queryText,namespaceId,w.configs r,temporalFilter,lightweight⟩)
  | .advance i m => w.calls[i]?.bind (fun c => advance svc w i c m)

def cachedStep (svc : StoreServices υ ι σ ρ) (w : World υ ι σ ρ) (e : Event σ) :
    Option (World υ ι σ ρ) :=
  (transition svc w e).map (fun w' => { w' with moments := w'.moments++[w'.moment] })

def World.initial (config : ℕ) (configs : ℕ → QueryConfig) (store : ℕ → σ) : World υ ι σ ρ where
  config := config
  configs := configs
  store := store
  now := 0
  epoch := fun _ => 0
  cache := QueryCache.empty 1000 300000000
  understandingCache := QueryCache.empty 500 600000000
  keywordSearchers := fun _ => none
  rerankers := fun _ => none
  calls := []
  asked := []
  served := []
  moments := [⟨0,fun _ => 0,store⟩]

def plainInput (svc : StoreServices υ ι σ ρ) (c : Input) : Search υ :=
  searchInput svc.toTextServices svc.hydeExpander c.config c.queryText c.namespaceId
    c.temporalFilter (plainUnderstanding svc.toTextServices c.config c.queryText c.lightweight)

/-- What the call computes from one content of its namespace's store, with
nothing cached. -/
def plainAnswer (svc : StoreServices υ ι σ ρ) (c : Input) (content : σ) : ρ :=
  let input := plainInput svc c
  let view : ℕ → QueryConfig × σ := fun _ => (input.config,content)
  let index : ℕ → Option ι := fun _ =>
    if usesKeywordIndex input.config then svc.buildIndex content else none
  svc.answer input view index
    (if input.config.enableReranking && svc.wantsReranker input view index then
      createReranker input.config.rerankingMethod input.config.rerankingModel else none)

def Stage.indexes : Stage υ ι σ → List (Indexed ι σ)
  | .searching _ _ indexes _ => indexes
  | .returned indexes => indexes
  | _ => []

/-- A served result is what the call computes from the store at a moment within
the time-to-live and not before the last invalidation; and no call uses an index
read before the last invalidation that had returned when it started. -/
structure FreshCaches (svc : StoreServices υ ι σ ρ) (w : World υ ι σ ρ) : Prop where
  served : ∀ s ∈ w.served, ∃ m ∈ w.moments, s.atTime-m.time < w.cache.ttl ∧
    s.epoch ≤ m.epoch s.input.namespaceId ∧
    s.result = plainAnswer svc s.input (m.store s.input.namespaceId)
  indexed : ∀ c ∈ w.calls, ∀ x ∈ c.stage.indexes, c.epoch ≤ x.epoch

end Uru.Query
