import Uru.Lib.Machine
import Uru.Query.Engine

/-!
# When queries do not influence one another

A call by itself computes a plain answer from its configuration. On an engine
that has served calls before, it gives this answer if its configuration object
is as it was and what the engine kept is what the call would have made itself.
The configuration objects stay as they were exactly when every call is settled
in the object it uses.
-/

set_option autoImplicit false

namespace Uru.Query

open Uru.Lib

variable {υ ι χ ρ : Type*} {svc : Services υ ι χ ρ} {e e' : Engine υ ι} {cfg : QueryConfig}
  {c d : Call} {text : String} {ns : ℕ} {tf : Option TemporalFilter} {lw : Option Bool}

section Calls

def Call.queryText : Call → String
  | .query text _ _ _ _ => text
  | .temporalQuery q _ _ => q.query

def Call.namespaceId : Call → ℕ
  | .query _ ns _ _ _ => ns
  | .temporalQuery _ ns _ => ns

def Call.lightweight : Call → Option Bool
  | .query _ _ _ _ lw => lw
  | .temporalQuery _ _ _ => none

def Call.used (e : Engine υ ι) : Call → QueryConfig
  | .query _ _ config _ _ => e.configs (config.getD e.config)
  | .temporalQuery _ _ (some r) => e.configs r
  | .temporalQuery _ _ none => {}

/-- What a query finds before it adapts its configuration: the understanding,
and the filter with the temporal intent. -/
def found (svc : Services υ ι χ ρ) (e : Engine υ ι) (cfg : QueryConfig) (text : String) (ns : ℕ)
    (tf : Option TemporalFilter) (lw : Option Bool) :
    Option (UnderstandingResult υ) × Option TemporalFilter × TemporalInfo :=
  let u := (understandingStep svc cfg text ns lw e.understandingCache).1
  (u,understoodTemporal u (resolveTemporal svc.toTextServices cfg text tf))

def SettledIn (svc : Services υ ι χ ρ) (e : Engine υ ι) (cfg : QueryConfig) (text : String)
    (ns : ℕ) (tf : Option TemporalFilter) (lw : Option Bool) : Prop :=
  Settled (found svc e cfg text ns tf lw).1 (found svc e cfg text ns tf lw).2.2.detected cfg

def Leaves (svc : Services υ ι χ ρ) (e : Engine υ ι) : Call → Prop
  | .query text ns config tf lw => SettledIn svc e (e.configs (config.getD e.config)) text ns tf lw
  | .temporalQuery q ns (some r) => SettledTemporal q (e.configs r) ∧
      SettledIn svc e (e.configs r) q.query ns (q.firstFilter svc.now) none
  | .temporalQuery _ _ none => True

/-- The earlier call stores no understanding under the later one's key unless it
asks for the same. -/
def SameUnderstanding (svc : Services υ ι χ ρ) (c : Call) (e : Engine υ ι) (d : Call) : Prop :=
  (d.used e).enableQueryUnderstanding = true ∧ (c.used e).enableQueryUnderstanding = true ∧
    svc.normalize d.queryText = svc.normalize c.queryText ∧ d.namespaceId = c.namespaceId →
  d.queryText = c.queryText ∧
    flags (d.used e) d.lightweight = flags (c.used e) c.lightweight

def SameReranker (c : Call) (e : Engine υ ι) (d : Call) : Prop :=
  (d.used e).enableReranking = true ∧ (c.used e).enableReranking = true ∧
    (d.used e).rerankingMethod = (c.used e).rerankingMethod →
  createReranker (d.used e).rerankingMethod (d.used e).rerankingModel =
    createReranker (c.used e).rerankingMethod (c.used e).rerankingModel

instance : Decidable (SettledIn svc e cfg text ns tf lw) :=
  inferInstanceAs (Decidable (Settled _ _ _))

instance : ∀ d, Decidable (Leaves svc e d)
  | .query _ _ _ _ _ => inferInstanceAs (Decidable (SettledIn _ _ _ _ _ _ _))
  | .temporalQuery _ _ (some _) =>
    inferInstanceAs (Decidable (SettledTemporal _ _ ∧ SettledIn _ _ _ _ _ _ _))
  | .temporalQuery _ _ none => isTrue trivial

instance : Decidable (SameUnderstanding svc c e d) :=
  inferInstanceAs (Decidable (_ ∧ _ ∧ _ ∧ _ → _ ∧ _))

instance : Decidable (SameReranker c e d) := inferInstanceAs (Decidable (_ ∧ _ ∧ _ → _))

end Calls

section Plain

/-- What a query that finds nothing cached understands. -/
def plainUnderstanding (svc : TextServices υ) (cfg : QueryConfig) (text : String)
    (lw : Option Bool) : Option (UnderstandingResult υ) :=
  if cfg.enableQueryUnderstanding = false then none
  else freshUnderstanding svc text (flags cfg lw)

def plain (svc : Services υ ι χ ρ) (hyde : Option ℤ) (cfg : QueryConfig) (text : String) (ns : ℕ)
    (tf : Option TemporalFilter) (lw : Option Bool) : ρ :=
  let input := searchInput svc.toTextServices hyde cfg text ns tf
    (plainUnderstanding svc.toTextServices cfg text lw)
  let candidates := svc.search input
    (if usesKeywordIndex input.config then svc.buildIndex ns else none)
  svc.finish input candidates
    (if input.config.enableReranking && svc.reranks input.config candidates then
      createReranker input.config.rerankingMethod input.config.rerankingModel else none)

structure Usable (svc : Services υ ι χ ρ) (e : Engine υ ι) (cfg : QueryConfig) (text : String)
    (ns : ℕ) (lw : Option Bool) : Prop where
  understood : cfg.enableQueryUnderstanding = true → ∀ x ∈ e.understandingCache.entries,
    x.1 = _makeKey svc.toTextServices text ns "understanding" "" →
      freshUnderstanding svc.toTextServices text (flags cfg lw) = some x.2.2
  searchers : ∀ n i, e.keywordSearchers n = some i → svc.buildIndex n = some i
  rerankers : cfg.enableReranking = true → ∀ r, e.rerankers cfg.rerankingMethod = some r →
    createReranker cfg.rerankingMethod cfg.rerankingModel = some r

/-- The fields that no adaptation writes. -/
def fixed (cfg : QueryConfig) : Bool × UnderstandFlags × Bool × String × Option String :=
  (cfg.enableQueryUnderstanding,flags cfg none,cfg.enableReranking,cfg.rerankingMethod,
    cfg.rerankingModel)

theorem adapt_fixed (u : Option (UnderstandingResult υ)) (detected : Bool) (cfg : QueryConfig) :
    fixed (adapt u detected cfg) = fixed cfg := by
  have hu : fixed (applyUnderstanding u cfg) = fixed cfg := by
    cases u with
    | none => rfl
    | some u =>
      rcases adaptiveTopK_cases u (applyStrategy u.searchStrategy cfg) with
        ⟨heq, -⟩ | ⟨⟨floor, heq⟩, -⟩ <;> rw [applyUnderstanding, heq] <;> rfl
  rw [← hu, adapt, autoRecencyBias]
  split_ifs <;> rfl

theorem searchInput_fixed (svc : TextServices υ) (hyde : Option ℤ) (cfg : QueryConfig)
    (text : String) (ns : ℕ) (tf : Option TemporalFilter) (u : Option (UnderstandingResult υ)) :
    fixed (searchInput svc hyde cfg text ns tf u).config = fixed cfg :=
  adapt_fixed _ _ _

theorem applyTemporalSettings_fixed (q : TemporalQuery) (cfg : QueryConfig) :
    fixed (applyTemporalSettings q cfg) = fixed cfg := by
  unfold applyTemporalSettings
  split_ifs <;> rfl

theorem fixed_flags {cfg' : QueryConfig} (h : fixed cfg' = fixed cfg) (lw : Option Bool) :
    flags cfg' lw = flags cfg lw := by
  simp only [fixed, flags, Prod.mk.injEq, UnderstandFlags.mk.injEq] at h ⊢
  exact ⟨h.2.1.1, h.2.1.2.1, h.2.1.2.2.1, trivial⟩

theorem Usable.congr {cfg' : QueryConfig} (h : Usable svc e cfg text ns lw)
    (hf : fixed cfg' = fixed cfg) : Usable svc e cfg' text ns lw := by
  have hflags := fixed_flags hf lw
  simp only [fixed, Prod.mk.injEq] at hf
  obtain ⟨hu, -, hr, hm, hx⟩ := hf
  refine ⟨?_, h.searchers, ?_⟩
  · rw [hu, hflags]
    exact h.understood
  · rw [hr, hm, hx]
    exact h.rerankers

theorem understandingStep_fst (h : Usable svc e cfg text ns lw) :
    (understandingStep svc cfg text ns lw e.understandingCache).1 =
      plainUnderstanding svc.toTextServices cfg text lw := by
  unfold understandingStep plainUnderstanding
  simp only
  split_ifs with hen
  · rfl
  · rw [Bool.not_eq_false] at hen
    split
    · rename_i u cache' hget
      obtain ⟨ts, hmem, -⟩ := QueryCache.get_some (congrArg Prod.fst hget)
      exact (h.understood hen _ hmem rfl).symm
    · split
      · rename_i hnone
        exact hnone.symm
      · rename_i u hsome
        exact hsome.symm

theorem indexStep_fst (h : Usable svc e cfg text ns lw) (cfg' : QueryConfig) (n : ℕ) :
    (indexStep svc cfg' n e.keywordSearchers).1 =
      if usesKeywordIndex cfg' then svc.buildIndex n else none := by
  unfold indexStep
  split_ifs
  · cases hs : e.keywordSearchers n with
    | none => rfl
    | some i => exact (h.searchers n i hs).symm
  · rfl

theorem rerankerStep_fst (h : Usable svc e cfg text ns lw) (wanted : Bool) :
    (rerankerStep cfg wanted e.rerankers).1 =
      if cfg.enableReranking && wanted then
        createReranker cfg.rerankingMethod cfg.rerankingModel else none := by
  unfold rerankerStep
  split_ifs with hr
  · cases hs : e.rerankers cfg.rerankingMethod with
    | none => rfl
    | some r => exact (h.rerankers (by simpa using (Bool.and_eq_true_iff.mp hr).1) r hs).symm
  · rfl

/-- On an engine that kept nothing else, a query gives its plain answer. -/
theorem queryOn_plain (h : Usable svc e cfg text ns lw) :
    (queryOn svc e cfg text ns tf lw).result = plain svc e.hydeExpander cfg text ns tf lw := by
  unfold queryOn plain
  simp only [understandingStep_fst h, indexStep_fst h,
    rerankerStep_fst (h.congr (searchInput_fixed _ _ _ _ _ _ _))]

def plainCall (svc : Services υ ι χ ρ) (e : Engine υ ι) : Call → ρ
  | .query text ns config tf lw =>
    plain svc e.hydeExpander (e.configs (config.getD e.config)) text ns tf lw
  | .temporalQuery q ns (some r) => plain svc e.hydeExpander
      (applyTemporalSettings q (e.configs r)) q.query ns (q.firstFilter svc.now) none
  | .temporalQuery q ns none => plain svc e.hydeExpander (applyTemporalSettings q {}) q.query
      ns (q.firstFilter svc.now) none

theorem call_plain (h : Usable svc e (c.used e) c.queryText c.namespaceId c.lightweight) :
    (call svc e c).1 = plainCall svc e c := by
  cases c with
  | query text ns config tf lw => exact queryOn_plain h
  | temporalQuery q ns config =>
    cases config with
    | none => exact queryOn_plain (h.congr (applyTemporalSettings_fixed _ _))
    | some r =>
      have hon : Usable svc
          { e with configs := Function.update e.configs r (applyTemporalSettings q (e.configs r)) }
          (applyTemporalSettings q (e.configs r)) q.query ns none := by
        have hc := h.congr (applyTemporalSettings_fixed q (e.configs r))
        exact ⟨hc.understood, hc.searchers, hc.rerankers⟩
      simp only [call, temporalQuery, query, Option.getD_some, Function.update_self]
      exact queryOn_plain hon

end Plain

section Effects

structure Gains (svc : Services υ ι χ ρ) (cfg : QueryConfig) (text : String) (ns : ℕ)
    (lw : Option Bool) (e e' : Engine υ ι) : Prop where
  config : e'.config = e.config
  hydeExpander : e'.hydeExpander = e.hydeExpander
  understood : ∀ x ∈ e'.understandingCache.entries, x ∈ e.understandingCache.entries ∨
    cfg.enableQueryUnderstanding = true ∧ x.1 = _makeKey svc.toTextServices text ns "understanding" "" ∧
      freshUnderstanding svc.toTextServices text (flags cfg lw) = some x.2.2
  searchers : ∀ n i, e'.keywordSearchers n = some i →
    e.keywordSearchers n = some i ∨ svc.buildIndex n = some i
  rerankers : ∀ m r, e'.rerankers m = some r → e.rerankers m = some r ∨
    cfg.enableReranking = true ∧ m = cfg.rerankingMethod ∧
      createReranker cfg.rerankingMethod cfg.rerankingModel = some r

theorem understandingStep_mem {cache : QueryCache CacheKey (UnderstandingResult υ)}
    {x : CacheKey × ℤ × UnderstandingResult υ}
    (hx : x ∈ (understandingStep svc cfg text ns lw cache).2.entries) : x ∈ cache.entries ∨
      cfg.enableQueryUnderstanding = true ∧ x.1 = _makeKey svc.toTextServices text ns "understanding" "" ∧
        freshUnderstanding svc.toTextServices text (flags cfg lw) = some x.2.2 := by
  unfold understandingStep at hx
  simp only at hx
  split_ifs at hx with hen
  · exact Or.inl hx
  · have hold : ∀ y ∈ (cache.get (_makeKey svc.toTextServices text ns "understanding" "") svc.now).2.entries,
        y ∈ cache.entries := fun y hy => QueryCache.get_mem hy
    split at hx
    · rename_i hget
      rw [hget] at hold
      exact Or.inl (hold x hx)
    · rename_i hget
      rw [hget] at hold
      split at hx
      · exact Or.inl (hold x hx)
      · rename_i hsome
        rcases QueryCache.set_mem hx with rfl | hx
        · exact Or.inr ⟨by simpa using hen, rfl, hsome⟩
        · exact Or.inl (hold x hx)

theorem indexStep_mem {searchers : ℕ → Option ι} {n m : ℕ} {i : ι}
    (h : (indexStep svc cfg n searchers).2 m = some i) :
    searchers m = some i ∨ svc.buildIndex m = some i := by
  unfold indexStep at h
  split_ifs at h
  · split at h
    · exact Or.inl h
    · by_cases hm : m = n
      · subst hm
        exact Or.inr (by simpa using h)
      · exact Or.inl (by simpa [Function.update_of_ne hm] using h)
  · exact Or.inl h

theorem rerankerStep_mem {rerankers : String → Option Reranker} {wanted : Bool} {m : String}
    {r : Reranker} (h : (rerankerStep cfg wanted rerankers).2 m = some r) :
    rerankers m = some r ∨ cfg.enableReranking = true ∧ m = cfg.rerankingMethod ∧
      createReranker cfg.rerankingMethod cfg.rerankingModel = some r := by
  unfold rerankerStep at h
  split_ifs at h with hr
  · split at h
    · exact Or.inl h
    · by_cases hm : m = cfg.rerankingMethod
      · subst hm
        exact Or.inr ⟨(Bool.and_eq_true_iff.mp hr).1, rfl, by simpa using h⟩
      · exact Or.inl (by simpa [Function.update_of_ne hm] using h)
  · exact Or.inl h

theorem queryOn_gains (svc : Services υ ι χ ρ) (e : Engine υ ι) (cfg : QueryConfig)
    (text : String) (ns : ℕ) (tf : Option TemporalFilter) (lw : Option Bool) :
    Gains svc cfg text ns lw e (queryOn svc e cfg text ns tf lw).engine where
  config := rfl
  hydeExpander := rfl
  understood := fun _ hx => understandingStep_mem hx
  searchers := fun _ _ h => indexStep_mem h
  rerankers := by
    intro m r h
    refine (rerankerStep_mem h).imp_right ?_
    have hfixed := adapt_fixed (found svc e cfg text ns tf lw).1
      (found svc e cfg text ns tf lw).2.2.detected cfg
    simp only [fixed, Prod.mk.injEq] at hfixed
    rintro ⟨hen, hm, hc⟩
    exact ⟨hfixed.2.2.1 ▸ hen, hfixed.2.2.2.1 ▸ hm, by rw [← hfixed.2.2.2.1, ← hfixed.2.2.2.2]; exact hc⟩

theorem Gains.congr {cfg' : QueryConfig} (h : Gains svc cfg' text ns lw e e')
    (hf : fixed cfg' = fixed cfg) : Gains svc cfg text ns lw e e' := by
  have hflags := fixed_flags hf lw
  simp only [fixed, Prod.mk.injEq] at hf
  obtain ⟨hu, -, hr, hm, hx⟩ := hf
  refine ⟨h.config, h.hydeExpander, ?_, h.searchers, ?_⟩
  · rw [← hu, ← hflags]
    exact h.understood
  · rw [← hr, ← hm, ← hx]
    exact h.rerankers

theorem call_gains (svc : Services υ ι χ ρ) (e : Engine υ ι) (d : Call) :
    Gains svc (d.used e) d.queryText d.namespaceId d.lightweight e (call svc e d).2 := by
  cases d with
  | query text ns config tf lw =>
    have hg := queryOn_gains svc e (e.configs (config.getD e.config)) text ns tf lw
    exact ⟨rfl, rfl, hg.understood, hg.searchers, hg.rerankers⟩
  | temporalQuery q ns config =>
    cases config with
    | none =>
      exact (queryOn_gains svc e _ q.query ns _ none).congr (applyTemporalSettings_fixed _ _)
    | some r =>
      have hg := (queryOn_gains svc
        { e with configs := Function.update e.configs r (applyTemporalSettings q (e.configs r)) }
        (applyTemporalSettings q (e.configs r)) q.query ns (q.firstFilter svc.now) none).congr
          (applyTemporalSettings_fixed q (e.configs r))
      simp only [call, temporalQuery, query, Option.getD_some, Function.update_self]
      exact ⟨rfl, rfl, hg.understood, hg.searchers, hg.rerankers⟩

/-- Where the recency bias is on, the adaptation leaves its settings. -/
theorem adapt_recency {u : Option (UnderstandingResult υ)} {detected : Bool}
    (h : cfg.applyRecencyBias = true) :
    (adapt u detected cfg).applyRecencyBias = true ∧
      (adapt u detected cfg).recencyWeight = cfg.recencyWeight ∧
      (adapt u detected cfg).recencyDecayDays = cfg.recencyDecayDays := by
  have hon : (applyUnderstanding u cfg).applyRecencyBias = true := by
    rw [applyUnderstanding_recency, h]
  rw [adapt, autoRecencyBias, if_neg (by simp [hon])]
  refine ⟨hon, ?_⟩
  cases u with
  | none => exact ⟨rfl, rfl⟩
  | some u =>
    rcases adaptiveTopK_cases u (applyStrategy u.searchStrategy cfg) with
      ⟨heq, -⟩ | ⟨⟨floor, heq⟩, -⟩ <;> rw [applyUnderstanding, heq] <;> exact ⟨rfl, rfl⟩

theorem update_eq_self_iff {configs : ℕ → QueryConfig} {r : ℕ} {cfg' : QueryConfig} :
    Function.update configs r cfg' = configs ↔ cfg' = configs r := by
  constructor
  · intro h
    rw [← congrFun h r, Function.update_self]
  · rintro rfl
    exact Function.update_eq_self r configs

/-- A call leaves every configuration object as it is exactly when it finds
nothing that calls for other settings. -/
theorem call_configs (svc : Services υ ι χ ρ) (e : Engine υ ι) (d : Call) :
    (call svc e d).2.configs = e.configs ↔ Leaves svc e d := by
  cases d with
  | query text ns config tf lw => exact update_eq_self_iff.trans adapt_eq_self
  | temporalQuery q ns config =>
    cases config with
    | none => exact ⟨fun _ => trivial, fun _ => rfl⟩
    | some r =>
      simp only [call, temporalQuery, query, Option.getD_some, Function.update_self,
        Function.update_idem, update_eq_self_iff]
      have hadapt : ∀ cfg, (queryOn svc
          { e with configs := Function.update e.configs r (applyTemporalSettings q (e.configs r)) }
          cfg q.query ns (q.firstFilter svc.now) none).config =
            adapt (found svc e cfg q.query ns (q.firstFilter svc.now) none).1
              (found svc e cfg q.query ns (q.firstFilter svc.now) none).2.2.detected cfg :=
        fun _ => rfl
      rw [hadapt]
      constructor
      · intro h
        have hset : applyTemporalSettings q (e.configs r) = e.configs r := by
          rw [applyTemporalSettings_eq_self]
          intro hw
          have hon : (applyTemporalSettings q (e.configs r)).applyRecencyBias = true := by
            rw [applyTemporalSettings, if_pos hw]
          have hbias := congrArg QueryConfig.applyRecencyBias h
          rw [(adapt_recency hon).1] at hbias
          have hweight := (adapt_recency hon).2.1.symm.trans (congrArg QueryConfig.recencyWeight h)
          have hdays := (adapt_recency hon).2.2.symm.trans
            (congrArg QueryConfig.recencyDecayDays h)
          rw [applyTemporalSettings, if_pos hw] at hweight hdays
          exact ⟨hbias.symm, hweight.symm, hdays.symm⟩
        rw [hset] at h
        exact ⟨applyTemporalSettings_eq_self.mp hset, adapt_eq_self.mp h⟩
      · rintro ⟨ht, hs⟩
        rw [applyTemporalSettings_eq_self.mpr ht]
        exact adapt_eq_self.mpr hs

end Effects

section Runs

structure Ready (svc : Services υ ι χ ρ) (c : Call) (e₀ e : Engine υ ι) : Prop where
  config : e.config = e₀.config
  configs : e.configs = e₀.configs
  hydeExpander : e.hydeExpander = e₀.hydeExpander
  usable : Usable svc e (c.used e₀) c.queryText c.namespaceId c.lightweight

theorem used_congr (hc : e'.config = e.config) (hcs : e'.configs = e.configs) :
    c.used e' = c.used e := by
  cases c with
  | query text ns config tf lw => simp only [Call.used, hc, hcs]
  | temporalQuery q ns config => cases config <;> simp only [Call.used, hcs]

theorem plainCall_congr {e₀ : Engine υ ι} (h : Ready svc c e₀ e) :
    plainCall svc e c = plainCall svc e₀ c := by
  cases c with
  | query text ns config tf lw => simp only [plainCall, h.config, h.configs, h.hydeExpander]
  | temporalQuery q ns config =>
    cases config <;> simp only [plainCall, h.configs, h.hydeExpander]

theorem new_usable (svc : Services υ ι χ ρ) (config : ℕ) (configs : ℕ → QueryConfig)
    (cfg : QueryConfig) : Usable svc (Engine.new svc config configs) cfg text ns lw where
  understood := by
    intro _ x hx
    cases hx
  searchers := by
    intro _ _ h
    cases h
  rerankers := by
    intro _ _ h
    cases h

/-- A call that finds nothing to change, and keeps nothing that the later call
would not have made, leaves the engine ready for it. -/
theorem ready_step {e₀ : Engine υ ι} (hr : Ready svc c e₀ e) (hl : Leaves svc e d)
    (hu : SameUnderstanding svc c e d) (hrr : SameReranker c e d) :
    Ready svc c e₀ (call svc e d).2 := by
  have hg := call_gains svc e d
  have hused : c.used e = c.used e₀ := used_congr hr.config hr.configs
  refine ⟨hg.config.trans hr.config, ((call_configs svc e d).mpr hl).trans hr.configs,
    hg.hydeExpander.trans hr.hydeExpander, ?_, ?_, ?_⟩
  · intro hen x hx hkey
    rcases hg.understood x hx with hold | ⟨hd, hkd, hfresh⟩
    · exact hr.usable.understood hen x hold hkey
    · have hkeys := hkd.symm.trans hkey
      simp only [_makeKey, Prod.mk.injEq] at hkeys
      have hsame := hu ⟨hd, hused ▸ hen, hkeys.1, hkeys.2.1⟩
      rw [hsame.1, hsame.2, hused] at hfresh
      exact hfresh
  · intro n i h
    exact (hg.searchers n i h).elim (hr.usable.searchers n i) (·)
  · intro hen r h
    rcases hg.rerankers _ r h with hold | ⟨hd, hm, hcreate⟩
    · exact hr.usable.rerankers hen r hold
    · have hsame := hrr ⟨hd, hused ▸ hen, by rw [← hm, hused]⟩
      rw [hused] at hsame
      exact hsame.symm.trans hcreate

/-- The configuration objects stay as they were all along a run exactly when
every call finds nothing that calls for other settings. While they stay, a call
gives the answer it gives on a fresh engine, unless an earlier one stored an
understanding or a reranker under its keys that it would not have made. -/
theorem queries_independent (svc : Services υ ι χ ρ) (config : ℕ) (configs : ℕ → QueryConfig)
    (ds : List Call) :
    (Machine.Always (step svc) (fun e => e.configs = configs) (Engine.new svc config configs) ds ↔
      Machine.Meets (step svc) (Leaves svc) (Engine.new svc config configs) ds) ∧
    ∀ c, Machine.Meets (step svc)
        (fun e d => Leaves svc e d ∧ SameUnderstanding svc c e d ∧ SameReranker c e d)
        (Engine.new svc config configs) ds →
      Machine.Always (step svc)
        (fun e => (call svc e c).1 = (call svc (Engine.new svc config configs) c).1)
        (Engine.new svc config configs) ds := by
  constructor
  · have hself : ∀ e : Engine υ ι, e.configs = configs → e.configs = configs := fun _ h => h
    refine Machine.always_iff_meets ?_ hself ?_ ds _ rfl
    · intro e d e' hinv hok h
      obtain rfl := Option.some.inj h
      exact ((call_configs svc e d).mpr hok).trans hinv
    · intro e d hinv hbad
      refine ⟨_, rfl, fun h => hbad ?_⟩
      exact (call_configs svc e d).mp (h.trans hinv.symm)
  · intro c hm
    have hnew : Ready svc c (Engine.new svc config configs) (Engine.new svc config configs) :=
      ⟨rfl, rfl, rfl, new_usable svc config configs _⟩
    refine Machine.always_of_invariant ?_ ?_ ds _ hnew hm
    · intro e d e' hr hok h
      obtain rfl := Option.some.inj h
      exact ready_step hr hok.1 hok.2.1 hok.2.2
    · intro e hr
      have hused : c.used e = c.used (Engine.new svc config configs) :=
        used_congr hr.config hr.configs
      rw [call_plain (hused ▸ hr.usable), call_plain hnew.usable, plainCall_congr hr]

/-- A search that returns the limits and weights it was given. The model is asked
about a comparison, which is focused and for which vectors suffice, and about
this week, where it fails. -/
def echo : Services Unit Unit Unit (ℤ × ℤ × ℚ × Bool) where
  now := 0
  hasEmbedder := true
  normalize := id
  resolveFast := fun t => if t = "this week" then some (some 0,some 7) else none
  validateDates := id
  isSimpleQuery := fun t => t != "compare labs" && t != "this week"
  understand := fun t _ =>
    if t = "this week" then .failed else .result ⟨⟨9/10,0,1/10,1⟩,1/10,false,[],()⟩
  heuristicUnderstanding := fun _ => ⟨⟨4/10,3/10,3/10,2⟩,5/10,false,[],()⟩
  buildIndex := fun _ => some ()
  search := fun _ _ => ()
  reranks := fun _ _ => true
  finish := fun s _ _ => (s.config.maxChunks,s.config.maxGraphDepth,s.config.vectorWeight,
    s.config.applyRecencyBias)

/-- Simple questions, one of them with a caller's configuration, and a temporal
query of its own. -/
theorem simple_queries_independent :
    Machine.Always (step echo) (fun e => (call echo e (.query "lab" 2 none none none)).1 =
        (call echo (Engine.new echo 0 (fun _ => {})) (.query "lab" 2 none none none)).1)
      (Engine.new echo 0 (fun _ => {}))
      [.query "budget" 1 none none none, .query "lab" 1 (some 3) none (some false),
        .temporalQuery ⟨"lab",[],3/10,7,none⟩ 2 none] :=
  (queries_independent echo 0 (fun _ => {}) _).2 _ (by decide +kernel)

/-- One focused question under the engine's own configuration narrows what every
later query of any namespace returns, and one about this week adds a recency
bias to them. -/
theorem queries_influence :
    (call echo (Engine.new echo 0 (fun _ => {})) (.query "lab" 2 none none none)).1 =
      (10,2,5/10,false) ∧
    (Machine.run (step echo) (Engine.new echo 0 (fun _ => {}))
        [.query "compare labs" 1 none none none]).map
      (fun e => (call echo e (.query "lab" 2 none none none)).1) = some (8,1,9/10,false) ∧
    (Machine.run (step echo) (Engine.new echo 0 (fun _ => {}))
        [.query "this week" 1 none none none]).map
      (fun e => (call echo e (.query "lab" 2 none none none)).1) = some (10,2,5/10,true) := by
  decide +kernel

end Runs

end Uru.Query
