import Mathlib.Algebra.Order.Field.Rat
import Mathlib.Tactic
import Uru.Lib.Record
import Uru.Lib.SortOn
import Uru.Query.FusedLists
import Uru.Query.RankFusion
import Uru.Query.RankFusionExact
import Uru.Query.TemporalFilter

/-!
# What becomes of a caller's window

A query may carry a filter. A range resolved from the text replaces it; dates
from the understanding of the query only stand in for a missing one. After the
lists are fused, chunks far outside the window are dropped and the other stages
score, order and cut. At the end chunks that mention entities of the query may
be added, and these are not looked at again. What the searches and the models
answer are parameters.
-/

set_option autoImplicit false

namespace Uru.Query.ExplicitWindow
open Uru.Lib Uru.Query.Temporal Uru.Query.FusedLists
open Uru.Query.RankFusion hiding Source

structure Chunk where
  id : ℕ
  createdAt : Datetime
  sourceTimestamp : Option Datetime
  sourceTool : String
deriving DecidableEq

abbrev Scored := List (Chunk × ℚ)

def effectiveTs (c : Chunk) : ℤ :=
  let dt := c.sourceTimestamp.getD c.createdAt
  dt.wall-dt.utcoffset.getD 0

structure QueryConfig where
  enableTemporalResolver : Bool
  temporalResolverStrategy : String
  temporalDateValidation : Bool
  temporalSqlPushdown : Bool
  temporalHardCutoffDays : ℚ
  enableQueryUnderstanding : Bool
  enableMultiStage : Bool
  applyRecencyBias : Bool
  enableReranking : Bool
  rerankingTopN : ℕ
  rerankingFinalK : ℕ
  stage3FilterLimit : ℕ
  stage4RerankLimit : ℕ
  enableDiversity : Bool
  enableNarrativeCoherence : Bool
  maxChunks : ℕ
  rrfK : ℕ
  weight : SourceType → ℚ

structure ResolvedRange where
  start : Option Datetime
  finish : Option Datetime

structure TemporalReference where
  startDate : Option Datetime
  endDate : Option Datetime

structure EntityMention where
  name : String
  aliases : List String

structure Understanding where
  entities : List EntityMention
  temporalReferences : List TemporalReference
  sourceFilters : List String
  complexityScore : ℚ
  requiresMultiStep : Bool

def Understanding.hasTemporal (u : Understanding) : Bool := !u.temporalReferences.isEmpty

structure World where
  stage1Recall : Option (Option Datetime × Option Datetime) → Record Source Scored
  fallback : Record Source Scored
  searchFulltextChunks : String → Option Scored
  decay : ℤ → ℚ
  recency : Scored → Option (Chunk × ℚ → ℚ)
  temporalPosition : Scored → Chunk × ℚ → ℚ
  sourceWeight : Scored → Chunk × ℚ → ℚ
  entityPresence : Scored → Chunk × ℚ → ℚ
  rerank : Scored → Option (Chunk × ℚ → ℚ)
  coherence : Scored → Option (Chunk × ℚ → ℚ)
  mmrDiversitySelect : Scored → ℕ → Option (List ℕ)
  mmr_length : ∀ chunks k selected, mmrDiversitySelect chunks k = some selected →
    selected.length ≤ k

section Resolve

variable (now : Datetime) (cfg : QueryConfig)

def before (a b : Datetime) : Bool := a.wall < b.wall

def tenYearsAgo : Datetime := { now with wall := now.wall-3650*86400000000 }

/-- All times are read as naive ones, and given back as UTC. -/
def validateDates (range : ResolvedRange) : ResolvedRange :=
  let swapped : ResolvedRange :=
    match range.start, range.finish with
    | some s, some e => if before e s then ⟨some e,some s⟩ else range
    | _, _ => range
  let fix := fun dt : Datetime =>
    let capped := if before now dt then now else dt
    if before capped (tenYearsAgo now) then none else some (⟨capped.wall,some 0⟩ : Datetime)
  ⟨swapped.start.bind fix,swapped.finish.bind fix⟩

def makeFilter (start finish : Option Datetime) : Temporal.TemporalFilter :=
  Temporal.TemporalFilter.init .after none none start finish none none

/-- The range resolved from the text, if it leads to a filter. -/
def fastFilter (fastResult : Option ResolvedRange) : Option Temporal.TemporalFilter :=
  if cfg.enableTemporalResolver ∧ (cfg.temporalResolverStrategy = "dateparser" ∨
      cfg.temporalResolverStrategy = "hybrid") then
    match fastResult with
    | none => none
    | some range =>
      if range.start.isSome ∨ range.finish.isSome then
        let range := if cfg.temporalDateValidation then validateDates now range else range
        if range.start.isSome ∨ range.finish.isSome then
          some (makeFilter range.start range.finish)
        else none
      else none
  else none

def understoodFilter (u : Understanding) : Option Temporal.TemporalFilter :=
  let start := u.temporalReferences.foldl (fun d r => r.startDate.or d) none
  let finish := u.temporalReferences.foldl (fun d r => r.endDate.or d) none
  if start.isSome ∨ finish.isSome then some (makeFilter start finish) else none

/-- The resolved filter replaces that of the caller; the understood one does
not. -/
def filterInForce (temporalFilter : Option Temporal.TemporalFilter) (fastResult : Option ResolvedRange)
    (understanding : Option Understanding) : Option Temporal.TemporalFilter :=
  ((fastFilter now cfg fastResult).or temporalFilter).or (understanding.bind understoodFilter)

end Resolve

section Stages

variable (now : Datetime) (cfg : QueryConfig) (w : World)

def rescored (score : Scored → Chunk × ℚ → ℚ) (chunks : Scored) : Scored :=
  sortOn (fun e => OrderDual.toDual e.2) (chunks.map (fun e => (e.1,score chunks e)))

def microsecondsPerDay : ℚ := 86400000000

/-- How far a time is outside the window; `none` inside it. -/
def outside (f : Temporal.TemporalFilter) (ts : ℤ) : Option ℤ :=
  if (lower now f).any (fun start => ts < start) then (lower now f).map (fun start => start-ts)
  else if (upper now f).any (fun finish => finish < ts) then
    (upper now f).map (fun finish => ts-finish)
  else none

def keeps (f : Temporal.TemporalFilter) (hardCutoffDays : ℚ) (ts : ℤ) : Bool :=
  match outside now f ts with
  | none => true
  | some distance => distance/microsecondsPerDay ≤ hardCutoffDays

def softTemporalScore (f : Temporal.TemporalFilter) (chunks : Scored) : Scored :=
  sortOn (fun e => OrderDual.toDual e.2)
    ((chunks.filter (fun e => keeps now f cfg.temporalHardCutoffDays (effectiveTs e.1))).map
      (fun e => (e.1,match outside now f (effectiveTs e.1) with
        | none => e.2
        | some distance => e.2*w.decay distance)))

def temporalStage (temporalFilter : Option Temporal.TemporalFilter) (chunks : Scored) : Scored :=
  match temporalFilter with
  | none => chunks
  | some f => softTemporalScore now cfg w f chunks

def recencyStage (detected : Bool) (chunks : Scored) : Scored :=
  if cfg.applyRecencyBias || detected then
    match w.recency chunks with
    | none => chunks
    | some score => rescored (fun _ => score) chunks
  else chunks

/-- Results from excluded sources are dropped. -/
def sourceStage (understanding : Option Understanding) (chunks : Scored) : Scored :=
  match understanding with
  | none => chunks
  | some u => rescored w.sourceWeight
      (chunks.filter (fun e => e.1.sourceTool = "" ∨ e.1.sourceTool ∉ u.sourceFilters))

/-- The reranked candidates; all the chunks where the model fails. -/
def rerankStage (atLeast topN topK : ℕ) (chunks : Scored) : Scored :=
  if cfg.enableReranking ∧ atLeast ≤ chunks.length then
    match w.rerank (chunks.take topN) with
    | none => chunks
    | some score => (rescored (fun _ => score) (chunks.take topN)).take topK
  else chunks

def coherenceStage (chunks : Scored) : Scored :=
  if cfg.enableNarrativeCoherence ∧ 3 ≤ chunks.length then
    match w.coherence chunks with
    | none => chunks
    | some score => rescored (fun _ => score) chunks
  else chunks

def fused (lists : Record Source Scored) : Scored :=
  reciprocalRankFusion lists cfg.rrfK (some (weights cfg.weight lists)) Chunk.id

def pushdown (temporalFilter : Option Temporal.TemporalFilter) :
    Option (Option Datetime × Option Datetime) :=
  if cfg.temporalSqlPushdown then temporalFilter.map (getEffectiveTimes now) else none

def stage2NormalizeFuse (lists : Record Source Scored) : Scored :=
  fused cfg (lists.entries.foldl (fun r s => r.set s.1 (normalized s.2)) ∅)

def stage3Filter (temporalFilter : Option Temporal.TemporalFilter) (understanding : Option Understanding)
    (detected : Bool) (chunks : Scored) : Scored :=
  let dated := recencyStage cfg w detected (temporalStage now cfg w temporalFilter chunks)
  let placed := if understanding.any Understanding.hasTemporal then
    rescored w.temporalPosition dated else dated
  let sourced := sourceStage w understanding placed
  let present := if understanding.any (fun u => !u.entities.isEmpty) then
    rescored w.entityPresence sourced else sourced
  present.take cfg.stage3FilterLimit

def stage5Diversity (maxChunks : ℕ) (chunks : Scored) : Scored :=
  if cfg.enableDiversity ∧ maxChunks < chunks.length then
    match w.mmrDiversitySelect chunks maxChunks with
    | none => chunks.take maxChunks
    | some selectedIndices => selectedIndices.filterMap (fun i => chunks[i]?)
  else chunks.take maxChunks

def multiStageSearch (maxChunks : ℕ) (temporalFilter : Option Temporal.TemporalFilter)
    (understanding : Option Understanding) (detected : Bool) : Scored :=
  let stage2 := stage2NormalizeFuse cfg (w.stage1Recall (pushdown now cfg temporalFilter))
  let stage3 := stage3Filter now cfg w temporalFilter understanding detected stage2
  let stage4 := rerankStage cfg w 3 cfg.stage4RerankLimit (maxChunks*2) stage3
  stage5Diversity cfg w maxChunks (coherenceStage cfg w stage4)

/-- The searches of the fallback have no bounds; what they find is scored like
the rest. -/
def singleStageSearch (maxChunks : ℕ) (temporalFilter : Option Temporal.TemporalFilter)
    (understanding : Option Understanding) (detected : Bool) : Scored :=
  let found := fused cfg (w.stage1Recall (pushdown now cfg temporalFilter))
  let found := if found.isEmpty then fused cfg w.fallback else found
  let sourced := sourceStage w understanding found
  let dated := recencyStage cfg w detected (temporalStage now cfg w temporalFilter sourced)
  let reranked := rerankStage cfg w 5 cfg.rerankingTopN cfg.rerankingFinalK dated
  (coherenceStage cfg w reranked).take maxChunks

/-- Names of the query's entities, each searched for; no storage answers the
search for adjacent sessions that would follow. -/
def entityNames (understanding : Option Understanding) : List String :=
  match understanding with
  | none => []
  | some u => (u.entities.flatMap (fun e => e.name::e.aliases)).take 5

def addNew (chunks : Scored) (e : Chunk × ℚ) : Scored :=
  if e.1.id ∈ chunks.map (fun d => d.1.id) then chunks else chunks++[(e.1,e.2*(7/10))]

def expandAdjacentSessions (understanding : Option Understanding) (chunks : Scored) : Scored :=
  if chunks.isEmpty then chunks
  else ((entityNames understanding).flatMap
    (fun name => (w.searchFulltextChunks name).getD [])).foldl addNew chunks

def adaptedMaxChunks (understanding : Option Understanding) : ℕ :=
  match understanding with
  | none => cfg.maxChunks
  | some u =>
    if u.complexityScore < 1/2 ∧ u.requiresMultiStep = false ∧ 8 < cfg.maxChunks then 8
    else cfg.maxChunks

def query (cached : Option Scored) (temporalFilter : Option Temporal.TemporalFilter)
    (fastResult : Option ResolvedRange) (understanding : Option Understanding) : Scored :=
  match cached with
  | some chunks => chunks
  | none =>
    let understood := if cfg.enableQueryUnderstanding then understanding else none
    let inForce := filterInForce now cfg temporalFilter fastResult understood
    let detected := (fastFilter now cfg fastResult).isSome ||
      understood.any Understanding.hasTemporal
    let maxChunks := adaptedMaxChunks cfg understood
    let chunks :=
      if cfg.enableMultiStage then
        multiStageSearch now cfg w maxChunks inForce understood detected
      else singleStageSearch now cfg w maxChunks inForce understood detected
    if chunks.length < 2 ∨ understood.any Understanding.hasTemporal then
      expandAdjacentSessions w understood chunks
    else chunks

end Stages

section Window

variable (now : Datetime)

/-- Inside the window, or at most the cutoff outside it. -/
def Within (f : Temporal.TemporalFilter) (hardCutoffDays : ℚ) (ts : ℤ) : Prop :=
  (∀ start, lower now f = some start →
    ((start-ts : ℤ) : ℚ)/microsecondsPerDay ≤ max hardCutoffDays 0) ∧
  ∀ finish, upper now f = some finish →
    ((ts-finish : ℤ) : ℚ)/microsecondsPerDay ≤ max hardCutoffDays 0

def Respects (f : Temporal.TemporalFilter) (hardCutoffDays : ℚ) (chunks : Scored) : Prop :=
  ∀ e ∈ chunks, Within now f hardCutoffDays (effectiveTs e.1)

def Kept (f : Temporal.TemporalFilter) (hardCutoffDays : ℚ) (chunks : Scored) : Prop :=
  ∀ e ∈ chunks, keeps now f hardCutoffDays (effectiveTs e.1)

end Window

section Among

def Among (l m : Scored) : Prop := ∀ e ∈ l, ∃ d ∈ m, d.1 = e.1

theorem Among.refl (l : Scored) : Among l l := fun e he => ⟨e, he, rfl⟩

theorem Among.trans {l m n : Scored} (hlm : Among l m) (hmn : Among m n) : Among l n := by
  intro e he
  obtain ⟨d, hd, hde⟩ := hlm e he
  obtain ⟨c, hc, hcd⟩ := hmn d hd
  exact ⟨c, hc, hcd.trans hde⟩

theorem among_of_subset {l m : Scored} (h : l ⊆ m) : Among l m := fun e he => ⟨e, h he, rfl⟩

theorem Kept.among {now : Datetime} {f : Temporal.TemporalFilter} {hardCutoffDays : ℚ} {l m : Scored}
    (hm : Kept now f hardCutoffDays m) (h : Among l m) : Kept now f hardCutoffDays l := by
  intro e he
  obtain ⟨d, hd, hde⟩ := h e he
  exact hde ▸ hm d hd

variable {now : Datetime} {cfg : QueryConfig} {w : World}

theorem rescored_among (score : Scored → Chunk × ℚ → ℚ) (l : Scored) :
    Among (rescored score l) l := by
  intro e he
  obtain ⟨d, hd, rfl⟩ := List.mem_map.mp (mem_sortOn.mp he)
  exact ⟨d, hd, rfl⟩

theorem take_among (n : ℕ) (l : Scored) : Among (l.take n) l :=
  among_of_subset (List.take_subset n l)

theorem recency_among (detected : Bool) (l : Scored) :
    Among (recencyStage cfg w detected l) l := by
  unfold recencyStage
  split
  · split
    · exact .refl l
    · exact rescored_among _ l
  · exact .refl l

theorem source_among (understanding : Option Understanding) (l : Scored) :
    Among (sourceStage w understanding l) l := by
  unfold sourceStage
  split
  · exact .refl l
  · exact (rescored_among _ _).trans (among_of_subset (fun _ he => (List.mem_filter.mp he).1))

theorem rerank_among (atLeast topN topK : ℕ) (l : Scored) :
    Among (rerankStage cfg w atLeast topN topK l) l := by
  unfold rerankStage
  split
  · split
    · exact .refl l
    · exact (take_among _ _).trans ((rescored_among _ _).trans (take_among _ l))
  · exact .refl l

theorem coherence_among (l : Scored) : Among (coherenceStage cfg w l) l := by
  unfold coherenceStage
  split
  · split
    · exact .refl l
    · exact rescored_among _ l
  · exact .refl l

theorem diversity_among (maxChunks : ℕ) (l : Scored) :
    Among (stage5Diversity cfg w maxChunks l) l := by
  unfold stage5Diversity
  split
  · split
    · exact take_among _ l
    · refine among_of_subset (fun e he => ?_)
      obtain ⟨i, -, hi⟩ := List.mem_filterMap.mp he
      exact List.mem_of_getElem? hi
  · exact take_among _ l

theorem diversity_length (maxChunks : ℕ) (l : Scored) :
    (stage5Diversity cfg w maxChunks l).length ≤ maxChunks := by
  unfold stage5Diversity
  split
  · split
    · exact List.length_take_le _ l
    · rename_i selected hselected
      exact (List.length_filterMap_le _ _).trans (w.mmr_length _ _ _ hselected)
  · exact List.length_take_le _ l

theorem among_nil {l : Scored} (h : Among l []) : l = [] := by
  refine List.eq_nil_iff_forall_not_mem.mpr (fun e he => ?_)
  obtain ⟨d, hd, -⟩ := h e he
  cases hd

theorem temporal_kept (f : Temporal.TemporalFilter) (l : Scored) :
    Kept now f cfg.temporalHardCutoffDays (temporalStage now cfg w (some f) l) := by
  intro e he
  obtain ⟨d, hd, rfl⟩ := List.mem_map.mp (mem_sortOn.mp he)
  exact (List.mem_filter.mp hd).2

theorem stage3_kept (f : Temporal.TemporalFilter) (understanding : Option Understanding) (detected : Bool)
    (l : Scored) : Kept now f cfg.temporalHardCutoffDays
      (stage3Filter now cfg w (some f) understanding detected l) := by
  refine (temporal_kept (w := w) f l).among ((take_among _ _).trans ?_)
  have hdated := @recency_among cfg w detected (temporalStage now cfg w (some f) l)
  have hsourced := (source_among (w := w) understanding
    (if understanding.any Understanding.hasTemporal then
      rescored w.temporalPosition
        (recencyStage cfg w detected (temporalStage now cfg w (some f) l))
      else recencyStage cfg w detected (temporalStage now cfg w (some f) l)))
  have hplaced : Among (if understanding.any Understanding.hasTemporal then
      rescored w.temporalPosition
        (recencyStage cfg w detected (temporalStage now cfg w (some f) l))
      else recencyStage cfg w detected (temporalStage now cfg w (some f) l))
      (temporalStage now cfg w (some f) l) := by
    split
    · exact (rescored_among _ _).trans hdated
    · exact hdated
  split
  · exact (rescored_among _ _).trans (hsourced.trans hplaced)
  · exact hsourced.trans hplaced

/-- Up to the expansion both pipelines keep to the filter in force. -/
theorem multi_stage_kept (maxChunks : ℕ) (f : Temporal.TemporalFilter)
    (understanding : Option Understanding) (detected : Bool) :
    Kept now f cfg.temporalHardCutoffDays
      (multiStageSearch now cfg w maxChunks (some f) understanding detected) :=
  (stage3_kept f understanding detected _).among
    ((diversity_among _ _).trans ((coherence_among _).trans (rerank_among _ _ _ _)))

theorem single_stage_kept (maxChunks : ℕ) (f : Temporal.TemporalFilter)
    (understanding : Option Understanding) (detected : Bool) :
    Kept now f cfg.temporalHardCutoffDays
      (singleStageSearch now cfg w maxChunks (some f) understanding detected) :=
  (temporal_kept f _).among ((take_among _ _).trans ((coherence_among _).trans
    ((rerank_among _ _ _ _).trans (recency_among _ _))))

end Among

section Query

variable {now : Datetime} {cfg : QueryConfig}

def callerFilter (now : Datetime) (cfg : QueryConfig) (f : Temporal.TemporalFilter)
    (fastResult : Option ResolvedRange) : Temporal.TemporalFilter :=
  (fastFilter now cfg fastResult).getD f

theorem in_force_eq (f : Temporal.TemporalFilter) (fastResult : Option ResolvedRange)
    (understanding : Option Understanding) :
    filterInForce now cfg (some f) fastResult understanding =
      some (callerFilter now cfg f fastResult) := by
  unfold filterInForce callerFilter
  cases fastFilter now cfg fastResult <;> rfl

def searched (now : Datetime) (cfg : QueryConfig) (w : World) (g : Temporal.TemporalFilter)
    (understood : Option Understanding) (detected : Bool) : Scored :=
  if cfg.enableMultiStage then
    multiStageSearch now cfg w (adaptedMaxChunks cfg understood) (some g) understood detected
  else
    singleStageSearch now cfg w (adaptedMaxChunks cfg understood) (some g) understood detected

def understood (cfg : QueryConfig) (understanding : Option Understanding) : Option Understanding :=
  if cfg.enableQueryUnderstanding then understanding else none

theorem query_none (w : World) (f : Temporal.TemporalFilter) (fastResult : Option ResolvedRange)
    (understanding : Option Understanding) :
    query now cfg w none (some f) fastResult understanding =
      let chunks := searched now cfg w (callerFilter now cfg f fastResult)
        (understood cfg understanding) ((fastFilter now cfg fastResult).isSome ||
          (understood cfg understanding).any Understanding.hasTemporal)
      if chunks.length < 2 ∨ (understood cfg understanding).any Understanding.hasTemporal then
        expandAdjacentSessions w (understood cfg understanding) chunks
      else chunks := by
  simp only [query]
  rw [in_force_eq]
  rfl

theorem searched_kept (w : World) (g : Temporal.TemporalFilter) (u : Option Understanding)
    (detected : Bool) :
    Kept now g cfg.temporalHardCutoffDays (searched now cfg w g u detected) := by
  unfold searched
  split
  · exact multi_stage_kept _ g u detected
  · exact single_stage_kept _ g u detected

theorem adapted_zero {u : Option Understanding} (h : cfg.maxChunks = 0) :
    adaptedMaxChunks cfg u = 0 := by
  unfold adaptedMaxChunks
  split
  · exact h
  · rw [if_neg (by omega)]
    exact h

theorem adapted_pos {u : Option Understanding} (h : 0 < cfg.maxChunks) :
    0 < adaptedMaxChunks cfg u := by
  unfold adaptedMaxChunks
  split
  · exact h
  · split_ifs <;> omega

def NothingReturned (now : Datetime) (cfg : QueryConfig) (g : Temporal.TemporalFilter) : Prop :=
  cfg.maxChunks = 0 ∨ (cfg.enableMultiStage = true ∧ cfg.stage3FilterLimit = 0) ∨
    ∀ ts, ¬ keeps now g cfg.temporalHardCutoffDays ts

theorem searched_nothing {g : Temporal.TemporalFilter} (h : NothingReturned now cfg g) (w : World)
    (u : Option Understanding) (detected : Bool) : searched now cfg w g u detected = [] := by
  rcases h with hmax | ⟨hmulti, hlimit⟩ | hnone
  · unfold searched
    rw [adapted_zero hmax]
    split
    · exact List.length_eq_zero_iff.mp (Nat.le_zero.mp (diversity_length 0 _))
    · simp [singleStageSearch]
  · have hstage3 : ∀ l, stage3Filter now cfg w (some g) u detected l = [] := by
      intro l
      unfold stage3Filter
      rw [hlimit]
      exact List.take_zero
    unfold searched
    rw [if_pos hmulti]
    refine among_nil ?_
    rw [← hstage3 (stage2NormalizeFuse cfg (w.stage1Recall (pushdown now cfg (some g))))]
    exact (diversity_among _ _).trans ((coherence_among _).trans (rerank_among _ _ _ _))
  · refine List.eq_nil_iff_forall_not_mem.mpr (fun e he => ?_)
    exact hnone _ (searched_kept w g u detected e he)

theorem expand_nothing {w : World} {u : Option Understanding} {l : Scored}
    (h : l = [] ∨ entityNames u = []) : expandAdjacentSessions w u l = l := by
  unfold expandAdjacentSessions
  rcases h with rfl | hnames
  · rfl
  · rw [hnames]
    split <;> rfl

def atTime (id : ℕ) (ts : ℤ) : Chunk := ⟨id,⟨ts,some 0⟩,none,""⟩

@[simp] theorem effective_atTime (id : ℕ) (ts : ℤ) : effectiveTs (atTime id ts) = ts := by
  simp [effectiveTs, atTime]

def world (found mentioned : Chunk) : World where
  stage1Recall _ := (∅ : Record Source Scored).set ⟨.graph,none⟩ [(found,1)]
  fallback := ∅
  searchFulltextChunks _ := some [(mentioned,1)]
  decay _ := 1
  recency _ := none
  temporalPosition _ e := e.2
  sourceWeight _ e := e.2
  entityPresence _ e := e.2
  rerank _ := none
  coherence _ := none
  mmrDiversitySelect _ _ := none
  mmr_length _ _ _ h := (nomatch h)

def Single (c : Chunk) (l : Scored) : Prop := ∃ score, l = [(c,score)]

section Single

variable {found mentioned : Chunk} {l : Scored}

theorem fused_single {lists : Record Source Scored} {source : Source} {c : Chunk} {score : ℚ}
    (h : lists.entries.filter (fun s => !s.2.isEmpty) = [(source,[(c,score)])]) :
    Single c (fused cfg lists) := by
  unfold fused
  simp only [reciprocalRankFusion, h]
  have hlen := normalizedWeights_length [(source,[(c,score)])]
    ((some (weights cfg.weight lists)).getD ∅)
  generalize normalizedWeights [(source,[(c,score)])]
    ((some (weights cfg.weight lists)).getD ∅) = shares at hlen ⊢
  have hids := nlist_ids (k := cfg.rrfK)
    (([(source,[(c,score)])].map (fun s => converted Chunk.id s.2)).zip shares)
  rw [shared_ids Chunk.id _ _ hlen] at hids
  have hone := hids.length_eq
  rw [List.length_map] at hone
  obtain ⟨r, hr⟩ := List.length_eq_one_iff.mp hone
  rw [hr] at hids ⊢
  have hid : r.itemId = c.id := List.singleton_perm_singleton.mp hids
  refine ⟨r.rrfScore, ?_⟩
  rw [List.map_singleton, hid]
  simp [itemsById]

theorem normalized_single (c : Chunk) (score : ℚ) : normalized [(c,score)] = [(c,1/2)] := by
  simp [normalized]

theorem rescored_single (score : Scored → Chunk × ℚ → ℚ) (h : Single found l) :
    Single found (rescored score l) := by
  obtain ⟨s, rfl⟩ := h
  exact ⟨_, rfl⟩

theorem take_single {n : ℕ} (hn : 0 < n) (h : Single found l) : Single found (l.take n) := by
  obtain ⟨s, rfl⟩ := h
  exact ⟨s, List.take_of_length_le hn⟩

theorem temporal_single {g : Temporal.TemporalFilter} (w : World)
    (hkeep : keeps now g cfg.temporalHardCutoffDays (effectiveTs found))
    (h : Single found l) : Single found (temporalStage now cfg w (some g) l) := by
  obtain ⟨s, rfl⟩ := h
  simp only [temporalStage, softTemporalScore, List.filter_cons, hkeep, if_true,
    List.filter_nil]
  exact ⟨_, rfl⟩

theorem recency_single (detected : Bool) (h : Single found l) :
    Single found (recencyStage cfg (world found mentioned) detected l) := by
  unfold recencyStage
  split <;> exact h

theorem source_single {u : Option Understanding} (w : World) (htool : found.sourceTool = "")
    (h : Single found l) : Single found (sourceStage w u l) := by
  obtain ⟨s, rfl⟩ := h
  unfold sourceStage
  split
  · exact ⟨s, rfl⟩
  · refine rescored_single _ ⟨s, ?_⟩
    simp [htool]

theorem rerank_single (atLeast topN topK : ℕ) (h : Single found l) :
    Single found (rerankStage cfg (world found mentioned) atLeast topN topK l) := by
  unfold rerankStage
  split <;> exact h

theorem coherence_single (h : Single found l) :
    Single found (coherenceStage cfg (world found mentioned) l) := by
  unfold coherenceStage
  split <;> exact h

theorem stage3_single {g : Temporal.TemporalFilter} {u : Option Understanding} {detected : Bool}
    (htool : found.sourceTool = "")
    (hkeep : keeps now g cfg.temporalHardCutoffDays (effectiveTs found))
    (hlimit : 0 < cfg.stage3FilterLimit) (h : Single found l) :
    Single found (stage3Filter now cfg (world found mentioned) (some g) u detected l) := by
  have hdated := @recency_single cfg found mentioned _ detected
    (temporal_single (world found mentioned) hkeep h)
  refine take_single hlimit ?_
  have hplaced : Single found (if u.any Understanding.hasTemporal then
      rescored (world found mentioned).temporalPosition
        (recencyStage cfg (world found mentioned) detected
          (temporalStage now cfg (world found mentioned) (some g) l))
      else recencyStage cfg (world found mentioned) detected
        (temporalStage now cfg (world found mentioned) (some g) l)) := by
    split
    · exact rescored_single _ hdated
    · exact hdated
  have hsourced := source_single (u := u) (world found mentioned) htool hplaced
  split
  · exact rescored_single _ hsourced
  · exact hsourced

/-- Both pipelines return the one chunk. -/
theorem searched_single {g : Temporal.TemporalFilter} {u : Option Understanding} {detected : Bool}
    (htool : found.sourceTool = "")
    (hkeep : keeps now g cfg.temporalHardCutoffDays (effectiveTs found))
    (hmax : 0 < cfg.maxChunks)
    (hlimit : cfg.enableMultiStage = true → 0 < cfg.stage3FilterLimit) :
    Single found (searched now cfg (world found mentioned) g u detected) := by
  have hmax' := adapted_pos (u := u) hmax
  unfold searched
  split
  · rename_i hmulti
    have hstage2 : Single found (stage2NormalizeFuse cfg
        ((world found mentioned).stage1Recall (pushdown now cfg (some g)))) := by
      refine @fused_single cfg _ ⟨.graph,none⟩ found (1/2) ?_
      change ((∅ : Record Source Scored).set ⟨.graph,none⟩
        (normalized [(found,1)])).entries.filter _ = _
      rw [normalized_single]
      rfl
    have hstage4 := @coherence_single cfg found mentioned _
      (@rerank_single cfg found mentioned _ 3 cfg.stage4RerankLimit
        (adaptedMaxChunks cfg u*2)
        (@stage3_single now cfg found mentioned _ g u detected htool hkeep
          (hlimit hmulti) hstage2))
    obtain ⟨s, hs⟩ := hstage4
    unfold multiStageSearch stage5Diversity
    simp only [hs]
    rw [if_neg (fun hboth => absurd hboth.2 (by simp only [List.length_singleton]; omega))]
    exact take_single hmax' ⟨s, rfl⟩
  · have hfound : Single found (fused cfg
        ((world found mentioned).stage1Recall (pushdown now cfg (some g)))) :=
      @fused_single cfg _ ⟨.graph,none⟩ found 1 rfl
    obtain ⟨s, hs⟩ := hfound
    refine take_single hmax' (coherence_single (rerank_single _ _ _ (recency_single _
      (temporal_single _ hkeep (source_single _ htool ?_)))))
    rw [hs]
    exact ⟨s, rfl⟩

end Single

theorem mem_addNew (xs : Scored) {l : Scored} {e : Chunk × ℚ} (h : e ∈ l) :
    e ∈ xs.foldl addNew l := by
  induction xs generalizing l with
  | nil => exact h
  | cons x xs ih =>
    refine ih ?_
    unfold addNew
    split
    · exact h
    · exact List.mem_append_left _ h

variable {f : Temporal.TemporalFilter} {fastResult : Option ResolvedRange}
  {understanding : Option Understanding}

/-- A chunk that the filter in force keeps can be returned, and with it one
that mentions an entity. -/
theorem returned {found mentioned : Chunk} (htool : found.sourceTool = "")
    (hkeep : keeps now (callerFilter now cfg f fastResult) cfg.temporalHardCutoffDays
      (effectiveTs found))
    (hmax : 0 < cfg.maxChunks)
    (hlimit : cfg.enableMultiStage = true → 0 < cfg.stage3FilterLimit) :
    (∃ score, (found,score) ∈ query now cfg (world found mentioned) none (some f) fastResult
      understanding) ∧
    (mentioned.id ≠ found.id → entityNames (understood cfg understanding) ≠ [] →
      ∃ score, (mentioned,score) ∈ query now cfg (world found mentioned) none (some f) fastResult
        understanding) := by
  obtain ⟨s, hs⟩ := @searched_single now cfg found mentioned _ (understood cfg understanding)
    ((fastFilter now cfg fastResult).isSome ||
      (understood cfg understanding).any Understanding.hasTemporal) htool hkeep hmax hlimit
  rw [query_none]
  simp only [hs]
  rw [if_pos (.inl (by simp))]
  refine ⟨⟨s, mem_addNew _ List.mem_cons_self⟩, fun hid hnames => ?_⟩
  obtain ⟨name, names, hcons⟩ := List.exists_cons_of_ne_nil hnames
  refine ⟨1*(7/10), ?_⟩
  unfold expandAdjacentSessions
  simp only [List.isEmpty_cons, Bool.false_eq_true, if_false, hcons, List.flatMap_cons, world,
    Option.getD_some, List.cons_append, List.nil_append, List.foldl_cons]
  refine mem_addNew _ ?_
  unfold addNew
  rw [if_neg (by simpa using hid)]
  exact List.mem_append_right _ List.mem_cons_self

/-- A query answers within the caller's window, whatever the searches find,
exactly if nothing can be returned, or the filter in force keeps to that window
and no entity names widen the answer. -/
theorem explicit_window_iff (now : Datetime) (cfg : QueryConfig) (cached : Option Scored)
    (f : Temporal.TemporalFilter) (fastResult : Option ResolvedRange)
    (understanding : Option Understanding) :
    (∀ w, Respects now f cfg.temporalHardCutoffDays
      (query now cfg w cached (some f) fastResult understanding)) ↔
    match cached with
    | some chunks => Respects now f cfg.temporalHardCutoffDays chunks
    | none =>
      let g := callerFilter now cfg f fastResult
      NothingReturned now cfg g ∨
        ((∀ ts, keeps now g cfg.temporalHardCutoffDays ts →
          Within now f cfg.temporalHardCutoffDays ts) ∧
        (entityNames (understood cfg understanding) = [] ∨
          ∀ ts, Within now f cfg.temporalHardCutoffDays ts)) := by
  cases cached with
  | some chunks => exact ⟨fun h => h (world (atTime 0 0) (atTime 1 0)), fun h _ => h⟩
  | none =>
    simp only
    constructor
    · intro h
      by_contra hcond
      obtain ⟨hreturned, hwiden⟩ := not_or.mp hcond
      obtain ⟨hmax, hrest⟩ := not_or.mp hreturned
      obtain ⟨hlimit, hkept⟩ := not_or.mp hrest
      have hmax' : 0 < cfg.maxChunks := Nat.pos_of_ne_zero hmax
      have hlimit' : cfg.enableMultiStage = true → 0 < cfg.stage3FilterLimit :=
        fun hmulti => Nat.pos_of_ne_zero (fun hzero => hlimit ⟨hmulti, hzero⟩)
      push Not at hkept
      obtain ⟨t₀, ht₀⟩ := hkept
      refine hwiden ⟨fun ts hts => ?_, ?_⟩
      · obtain ⟨⟨score, hmem⟩, -⟩ := @returned now cfg f fastResult understanding
          (atTime 0 ts) (atTime 1 ts) rfl
          (by rwa [effective_atTime]) hmax' hlimit'
        simpa using h _ _ hmem
      · refine or_iff_not_imp_left.mpr (fun hnames ts => ?_)
        obtain ⟨-, hmentioned⟩ := @returned now cfg f fastResult understanding
          (atTime 0 t₀) (atTime 1 ts) rfl
          (by rwa [effective_atTime]) hmax' hlimit'
        obtain ⟨score, hmem⟩ := hmentioned (by simp [atTime]) hnames
        simpa using h _ _ hmem
    · intro h w e he
      rcases h with hnothing | ⟨hkeep, hnames⟩
      · rw [query_none] at he
        simp only [searched_nothing hnothing, expand_nothing (.inl rfl), ite_self] at he
        cases he
      · rcases hnames with hnames | hall
        · rw [query_none] at he
          simp only [expand_nothing (.inr hnames), ite_self] at he
          exact hkeep _ (searched_kept w _ _ _ e he)
        · exact hall _

end Query

/-! A caller asks for January 2025 with a text that says "last week". -/
namespace LastWeek

def now : Datetime := ⟨1780000000000000,some 0⟩

def january : Temporal.TemporalFilter :=
  makeFilter (some ⟨1735689600000000,some 0⟩) (some ⟨1738367999000000,some 0⟩)

def lastWeek : ResolvedRange := ⟨some ⟨1779395200000000,some 0⟩,some now⟩

def config : QueryConfig where
  enableTemporalResolver := true
  temporalResolverStrategy := "hybrid"
  temporalDateValidation := true
  temporalSqlPushdown := true
  temporalHardCutoffDays := 30
  enableQueryUnderstanding := true
  enableMultiStage := true
  applyRecencyBias := false
  enableReranking := true
  rerankingTopN := 50
  rerankingFinalK := 10
  stage3FilterLimit := 50
  stage4RerankLimit := 50
  enableDiversity := true
  enableNarrativeCoherence := true
  maxChunks := 10
  rrfK := 60
  weight _ := 1/2

def yesterday : Chunk := atTime 1 1779913600000000

theorem outside_january : ¬ Respects now january config.temporalHardCutoffDays
    (query now config (world yesterday yesterday) none (some january) (some lastWeek) none) := by
  intro h
  obtain ⟨⟨score, hmem⟩, -⟩ := @returned now config january (some lastWeek) none yesterday
    yesterday rfl (by decide +kernel) (by decide) (fun _ => by decide)
  have hfinish : ((effectiveTs yesterday-1738367999000000 : ℤ) : ℚ)/microsecondsPerDay ≤
      max config.temporalHardCutoffDays 0 := (h _ hmem).2 _ rfl
  exact absurd hfinish (by decide +kernel)

end LastWeek

end Uru.Query.ExplicitWindow
