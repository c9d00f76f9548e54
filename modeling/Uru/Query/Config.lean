import Mathlib.Data.Rat.Init
import Mathlib.Order.Lattice
import Mathlib.Tactic

/-!
# The configuration of a query and its adaptation

The configuration object with its defaults, what is read of a query's
understanding, and the four places that write to the object: the recommended
weights, the narrower limits, the recency bias, and the settings of a temporal
query. For each of them a condition says when it leaves the object as it is.
-/

set_option autoImplicit false

namespace Uru.Query

inductive SearchMode where
  | vector | graph | hybrid | all | keyword
  deriving DecidableEq

structure QueryConfig where
  mode : SearchMode := .hybrid
  maxChunks : ℤ := 10
  maxEntities : ℤ := 10
  maxGraphDepth : ℤ := 2
  minChunkSimilarity : ℚ := 5/100
  minEntitySimilarity : ℚ := 5/100
  vectorWeight : ℚ := 5/10
  graphWeight : ℚ := 3/10
  keywordWeight : ℚ := 2/10
  rrfK : ℤ := 60
  applyRecencyBias : Bool := false
  recencyWeight : ℚ := 2/10
  recencyDecayDays : ℚ := 30
  enableQueryUnderstanding : Bool := true
  enableQueryExpansion : Bool := true
  enableEntityExtraction : Bool := true
  enableTemporalDetection : Bool := true
  enableEntityLinking : Bool := true
  entityLinkingFuzzyThreshold : ℚ := 6/10
  entityLinkingEmbeddingThreshold : ℚ := 4/10
  entityLinkingMaxCandidates : ℤ := 5
  enableReranking : Bool := true
  rerankingMethod : String := "cross_encoder"
  rerankingModel : Option String := none
  rerankingTopN : ℤ := 50
  rerankingFinalK : ℤ := 10
  enableKeywordSearch : Bool := true
  keywordSearchMethod : String := "fulltext"
  enableHyde : String := "auto"
  hydeNumHypotheticals : ℤ := 1
  enableMultiStage : Bool := true
  stage1RecallLimit : ℤ := 200
  stage3FilterLimit : ℤ := 50
  stage4RerankLimit : ℤ := 50
  enableDiversity : Bool := true
  diversityLambda : ℚ := 5/10
  enableNarrativeCoherence : Bool := true
  coherenceBoostPerEntity : ℚ := 2/10
  coherenceMaxBoost : ℚ := 5/10
  coherenceIsolationPenalty : ℚ := 15/100
  enableTemporalResolver : Bool := true
  temporalResolverStrategy : String := "hybrid"
  temporalSqlPushdown : Bool := true
  temporalDateValidation : Bool := true
  stage1VectorRatio : ℚ := 5/10
  stage1GraphRatio : ℚ := 3/10
  stage1KeywordRatio : ℚ := 3/10
  rerankingBlendWeight : ℚ := 7/10
  temporalHardCutoffDays : ℚ := 30
  temporalHalfLifeHours : ℚ := 168
  graphChunkQuerySimWeight : ℚ := 6/10
  expandedQueryDiscount : ℚ := 7/10
  linkedEntityBoost : ℚ := 15/10
  deriving DecidableEq

inductive TemporalOperator where
  | before | after | between | during | overlaps
  deriving DecidableEq

structure TemporalFilter where
  operator : TemporalOperator
  startTime : Option ℤ
  endTime : Option ℤ
  relativeDays : Option ℤ
  relativeHours : Option ℤ
  deriving DecidableEq

def TemporalFilter.ofDates (startDate endDate : Option ℤ) : TemporalFilter where
  operator := if startDate.isSome ∧ endDate.isSome then .between
    else if endDate.isSome then .before else .after
  startTime := startDate
  endTime := endDate
  relativeDays := none
  relativeHours := none

def TemporalFilter.lastDays (now days : ℤ) : TemporalFilter :=
  { TemporalFilter.ofDates (some (now-days*86400000000)) none with operator := .after }

structure TemporalQuery where
  query : String
  filters : List TemporalFilter
  recencyWeight : ℚ
  decayDays : ℚ
  contextWindowDays : Option ℤ

def TemporalQuery.getContextFilter (q : TemporalQuery) (now : ℤ) : Option TemporalFilter :=
  q.contextWindowDays.map (TemporalFilter.lastDays now)

structure SearchStrategy where
  vectorWeight : ℚ
  graphWeight : ℚ
  keywordWeight : ℚ
  graphDepth : ℤ
  deriving DecidableEq

structure TemporalReference where
  text : String
  startDate : Option ℤ
  endDate : Option ℤ
  deriving DecidableEq

/-- What the adaptation reads of an understanding; `extracted` is the rest of
it, which only the search reads. -/
structure UnderstandingResult (υ : Type*) where
  searchStrategy : SearchStrategy
  complexityScore : ℚ
  requiresMultiStep : Bool
  temporalReferences : List TemporalReference
  extracted : υ
  deriving DecidableEq

structure TemporalInfo where
  detected : Bool := false
  filterApplied : Bool := false
  timeStart : Option ℤ := none
  timeEnd : Option ℤ := none
  referenceText : String := ""
  deriving DecidableEq

variable {υ : Type*}

def UnderstandingResult.hasTemporal (u : UnderstandingResult υ) : Bool :=
  !u.temporalReferences.isEmpty

section Adaptation

def applyStrategy (s : SearchStrategy) (cfg : QueryConfig) : QueryConfig :=
  { cfg with
    vectorWeight := s.vectorWeight
    graphWeight := s.graphWeight
    keywordWeight := s.keywordWeight
    maxGraphDepth := s.graphDepth }

def narrow (floor : ℚ) (cfg : QueryConfig) : QueryConfig :=
  { cfg with
    maxChunks := 8
    maxEntities := 8
    minChunkSimilarity := max cfg.minChunkSimilarity floor
    minEntitySimilarity := max cfg.minEntitySimilarity floor }

def adaptiveTopK (u : UnderstandingResult υ) (cfg : QueryConfig) : QueryConfig :=
  if u.complexityScore < 3/10 ∧ u.requiresMultiStep = false ∧ 8 < cfg.maxChunks then
    narrow (25/100) cfg
  else if u.complexityScore < 5/10 ∧ u.requiresMultiStep = false ∧ 8 < cfg.maxChunks then
    narrow (15/100) cfg
  else cfg

def applyUnderstanding (understanding : Option (UnderstandingResult υ)) (cfg : QueryConfig) :
    QueryConfig :=
  match understanding with
  | none => cfg
  | some u => adaptiveTopK u (applyStrategy u.searchStrategy cfg)

def autoRecencyBias (detected : Bool) (cfg : QueryConfig) : QueryConfig :=
  if detected ∧ cfg.applyRecencyBias = false then
    { cfg with applyRecencyBias := true, recencyWeight := max cfg.recencyWeight (2/10) }
  else cfg

def adapt (understanding : Option (UnderstandingResult υ)) (detected : Bool) (cfg : QueryConfig) :
    QueryConfig :=
  autoRecencyBias detected (applyUnderstanding understanding cfg)

def applyTemporalSettings (q : TemporalQuery) (cfg : QueryConfig) : QueryConfig :=
  if 0 < q.recencyWeight then
    { cfg with
      applyRecencyBias := true
      recencyWeight := q.recencyWeight
      recencyDecayDays := q.decayDays }
  else cfg

end Adaptation

section Settled

/-- The recommended strategy is the one the configuration has, and the query is
not one whose limits are narrowed. -/
def Agreeable (u : UnderstandingResult υ) (cfg : QueryConfig) : Prop :=
  (cfg.vectorWeight = u.searchStrategy.vectorWeight ∧
    cfg.graphWeight = u.searchStrategy.graphWeight ∧
    cfg.keywordWeight = u.searchStrategy.keywordWeight ∧
    cfg.maxGraphDepth = u.searchStrategy.graphDepth) ∧
  ¬ (u.complexityScore < 5/10 ∧ u.requiresMultiStep = false ∧ 8 < cfg.maxChunks)

def Settled (understanding : Option (UnderstandingResult υ)) (detected : Bool)
    (cfg : QueryConfig) : Prop :=
  (∀ u, understanding = some u → Agreeable u cfg) ∧
    (detected = true → cfg.applyRecencyBias = true)

def SettledTemporal (q : TemporalQuery) (cfg : QueryConfig) : Prop :=
  0 < q.recencyWeight → cfg.applyRecencyBias = true ∧
    cfg.recencyWeight = q.recencyWeight ∧ cfg.recencyDecayDays = q.decayDays

instance (u : UnderstandingResult υ) (cfg : QueryConfig) : Decidable (Agreeable u cfg) :=
  inferInstanceAs (Decidable ((_ ∧ _ ∧ _ ∧ _) ∧ ¬ (_ ∧ _ ∧ _)))

instance (understanding : Option (UnderstandingResult υ)) (detected : Bool) (cfg : QueryConfig) :
    Decidable (Settled understanding detected cfg) :=
  inferInstanceAs (Decidable ((∀ u, understanding = some u → Agreeable u cfg) ∧ (_ → _)))

instance (q : TemporalQuery) (cfg : QueryConfig) : Decidable (SettledTemporal q cfg) :=
  inferInstanceAs (Decidable (0 < q.recencyWeight → _ ∧ _ ∧ _))

variable {u : UnderstandingResult υ} {understanding : Option (UnderstandingResult υ)}
  {detected : Bool} {cfg : QueryConfig} {q : TemporalQuery}

theorem applyStrategy_eq_self {s : SearchStrategy} : applyStrategy s cfg = cfg ↔
    cfg.vectorWeight = s.vectorWeight ∧ cfg.graphWeight = s.graphWeight ∧
      cfg.keywordWeight = s.keywordWeight ∧ cfg.maxGraphDepth = s.graphDepth := by
  constructor
  · intro h
    rw [← h]
    exact ⟨rfl, rfl, rfl, rfl⟩
  · rintro ⟨hv, hg, hk, hd⟩
    rw [applyStrategy, ← hv, ← hg, ← hk, ← hd]

/-- The narrower limits change the limit of the chunks, and nothing of the
strategy or the recency. -/
theorem adaptiveTopK_cases (u : UnderstandingResult υ) (cfg : QueryConfig) :
    adaptiveTopK u cfg = cfg ∧
      ¬ (u.complexityScore < 5/10 ∧ u.requiresMultiStep = false ∧ 8 < cfg.maxChunks) ∨
    (∃ floor, adaptiveTopK u cfg = narrow floor cfg) ∧
      u.complexityScore < 5/10 ∧ u.requiresMultiStep = false ∧ 8 < cfg.maxChunks := by
  unfold adaptiveTopK
  split_ifs with hfocused htopic
  · exact Or.inr ⟨⟨_, rfl⟩, hfocused.1.trans (by norm_num), hfocused.2⟩
  · exact Or.inr ⟨⟨_, rfl⟩, htopic⟩
  · exact Or.inl ⟨rfl, htopic⟩

theorem applyUnderstanding_eq_self :
    applyUnderstanding understanding cfg = cfg ↔
      ∀ u, understanding = some u → Agreeable u cfg := by
  cases understanding with
  | none => simp [applyUnderstanding]
  | some u =>
    simp only [applyUnderstanding, Option.some.injEq, forall_eq', Agreeable]
    rw [← applyStrategy_eq_self]
    rcases adaptiveTopK_cases u (applyStrategy u.searchStrategy cfg) with
      ⟨heq, hnot⟩ | ⟨⟨floor, heq⟩, hnarrow⟩
    · rw [heq]
      exact ⟨fun h => ⟨h, hnot⟩, fun h => h.1⟩
    · rw [heq]
      refine ⟨fun h => ?_, fun h => absurd hnarrow h.2⟩
      have hchunks : 8 = cfg.maxChunks := congrArg QueryConfig.maxChunks h
      have hlt : 8 < cfg.maxChunks := hnarrow.2.2
      omega

theorem applyUnderstanding_recency :
    (applyUnderstanding understanding cfg).applyRecencyBias = cfg.applyRecencyBias := by
  cases understanding with
  | none => rfl
  | some u =>
    rcases adaptiveTopK_cases u (applyStrategy u.searchStrategy cfg) with
      ⟨heq, -⟩ | ⟨⟨floor, heq⟩, -⟩ <;> rw [applyUnderstanding, heq] <;> rfl

/-- A query leaves its configuration object as it is exactly when nothing calls
for other settings. -/
theorem adapt_eq_self : adapt understanding detected cfg = cfg ↔
    Settled understanding detected cfg := by
  unfold adapt Settled autoRecencyBias
  rw [← applyUnderstanding_eq_self]
  split_ifs with hbias
  · rw [applyUnderstanding_recency] at hbias
    constructor
    · intro h
      have hon : true = cfg.applyRecencyBias := congrArg QueryConfig.applyRecencyBias h
      rw [hbias.2] at hon
      cases hon
    · rintro ⟨-, h⟩
      rw [h hbias.1] at hbias
      cases hbias.2
  · rw [applyUnderstanding_recency] at hbias
    refine ⟨fun h => ⟨h, fun hd => ?_⟩, fun h => h.1⟩
    simpa [hd] using hbias

theorem applyTemporalSettings_eq_self :
    applyTemporalSettings q cfg = cfg ↔ SettledTemporal q cfg := by
  unfold applyTemporalSettings SettledTemporal
  split_ifs with hw
  · constructor
    · intro h _
      rw [← h]
      exact ⟨rfl, rfl, rfl⟩
    · intro h
      obtain ⟨hb, hr, hd⟩ := h hw
      rw [← hb, ← hr, ← hd]
  · exact ⟨fun _ h => absurd h hw, fun _ => rfl⟩

end Settled

end Uru.Query
