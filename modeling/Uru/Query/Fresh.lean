import Uru.Lib.Calls
import Uru.Query.Caching

/-!
# When the caches are fresh

An entry of the result cache was filled under the present invalidations by a
call that was asked, with what the call computes by itself at the moment of the
fill. A call that is underway has the configuration it was made with, adapted
to the understanding it would have by itself.
-/

set_option autoImplicit false

namespace Uru.Query

open Uru.Lib

variable {υ ι σ ρ : Type*} {svc : StoreServices υ ι σ ρ} {w w' : World υ ι σ ρ} {i j : ℕ}
  {c c' : Active υ ι σ} {d x : Input} {ms : List (Moment σ)}

section Condition

/-- Calls that share a key of the result cache, of the understanding cache or of
the rerankers are the same in all that the entry depends on. -/
structure Compatible (svc : StoreServices υ ι σ ρ) (d c : Input) : Prop where
  result : resultKey svc.toTextServices d = resultKey svc.toTextServices c → d = c
  understanding : d.config.enableQueryUnderstanding = true ∧
      c.config.enableQueryUnderstanding = true ∧
      understandingKey svc.toTextServices d = understandingKey svc.toTextServices c →
    d.queryText = c.queryText ∧ flags d.config d.lightweight = flags c.config c.lightweight
  reranker : d.config.enableReranking = true ∧ c.config.enableReranking = true ∧
      d.config.rerankingMethod = c.config.rerankingMethod →
    createReranker d.config.rerankingMethod d.config.rerankingModel =
      createReranker c.config.rerankingMethod c.config.rerankingModel

def Stage.unfinished : Stage υ ι σ → Bool
  | .returned _ => false
  | _ => true

def Stage.views : Stage υ ι σ → List (QueryConfig × σ)
  | .searching _ views _ _ => views
  | _ => []

def Stage.fetchedEpoch : Stage υ ι σ → Option ℕ
  | .searching _ _ _ (.fetched _ epoch) => some epoch
  | _ => none

/-- No other call that is underway has the configuration object. -/
def Alone (w : World υ ι σ ρ) (i : ℕ) (c : Active υ ι σ) : Prop :=
  ∀ j < w.calls.length, ∀ c', w.calls[j]? = some c' → j ≠ i → c'.stage.unfinished = true →
    c'.config ≠ c.config

def SettledInput (svc : StoreServices υ ι σ ρ) (c : Input) : Prop :=
  Settled (plainUnderstanding svc.toTextServices c.config c.queryText c.lightweight)
    (plainInput svc c).temporalInfo.detected c.config

def asksModel (svc : StoreServices υ ι σ ρ) (w : World υ ι σ ρ) (c : Active υ ι σ) : Bool :=
  (w.configs c.config).enableQueryUnderstanding &&
    (w.understandingCache.get (understandingKey svc.toTextServices c.input) w.now).1.isNone &&
    !svc.isSimpleQuery c.input.queryText

/-- A configuration object in use is not adapted for another call; an index is
kept under the invalidations its chunks were read under; and the store is, when
a call fills the cache, as the call read it. -/
def CarefulMove (svc : StoreServices υ ι σ ρ) (w : World υ ι σ ρ) (i : ℕ) (c : Active υ ι σ) :
    Move → Prop
  | .consult => asksModel svc w c = true ∨ SettledInput svc c.input ∨ Alone w i c
  | .answered => SettledInput svc c.input ∨ Alone w i c
  | .indexChunks => ∀ epoch, c.stage.fetchedEpoch = some epoch →
      epoch = w.epoch c.input.namespaceId
  | .finish => (∀ v ∈ c.stage.views, v.2 = w.store c.input.namespaceId) ∧
      ∀ x ∈ c.stage.indexes, x.chunks = w.store c.input.namespaceId
  | _ => True

def Careful (svc : StoreServices υ ι σ ρ) (w : World υ ι σ ρ) : Event σ → Prop
  | .query queryText namespaceId config temporalFilter lightweight => ∀ d ∈ w.asked,
      Compatible svc d
        ⟨queryText,namespaceId,w.configs (config.getD w.config),temporalFilter,lightweight⟩
  | .advance i m => ∀ c, w.calls[i]? = some c → CarefulMove svc w i c m
  | _ => True

theorem Compatible.symm (h : Compatible svc d x) : Compatible svc x d where
  result := fun hk => (h.result hk.symm).symm
  understanding := by
    rintro ⟨hx, hd, hk⟩
    have hs := h.understanding ⟨hd, hx, hk.symm⟩
    exact ⟨hs.1.symm, hs.2.symm⟩
  reranker := by
    rintro ⟨hx, hd, hm⟩
    exact (h.reranker ⟨hd, hx, hm.symm⟩).symm

theorem Compatible.refl (d : Input) : Compatible svc d d :=
  ⟨fun _ => rfl, fun _ => ⟨rfl, rfl⟩, fun _ => rfl⟩

end Condition

section Invariant

structure SearchKept (svc : StoreServices υ ι σ ρ) (configs : ℕ → QueryConfig) (c : Active υ ι σ)
    (input : Search υ) (views : List (QueryConfig × σ)) (indexes : List (Indexed ι σ))
    (fetch : Fetch σ) : Prop where
  same : input = plainInput svc c.input
  config : configs c.config = input.config
  views : ∀ v ∈ views, v.1 = input.config
  indexes : ∀ x ∈ indexes, usesKeywordIndex input.config = true ∧ c.epoch ≤ x.epoch ∧
    x.index = svc.buildIndex x.chunks
  fetch : match fetch with
    | .idle => True
    | .fetching => usesKeywordIndex input.config = true
    | .fetched _ epoch => usesKeywordIndex input.config = true ∧ c.epoch ≤ epoch

def StageKept (svc : StoreServices υ ι σ ρ) (configs : ℕ → QueryConfig) (c : Active υ ι σ) :
    Stage υ ι σ → Prop
  | .missed => configs c.config = c.input.config
  | .asking => configs c.config = c.input.config ∧
      c.input.config.enableQueryUnderstanding = true
  | .searching input views indexes fetch => SearchKept svc configs c input views indexes fetch
  | .returned indexes => ∀ x ∈ indexes, c.epoch ≤ x.epoch

structure CallKept (svc : StoreServices υ ι σ ρ) (w : World υ ι σ ρ) (c : Active υ ι σ) :
    Prop where
  asked : c.input ∈ w.asked
  epoch : c.epoch ≤ w.epoch c.input.namespaceId
  stage : StageKept svc w.configs c c.stage

structure Kept (svc : StoreServices υ ι σ ρ) (ms : List (Moment σ)) (w : World υ ι σ ρ) :
    Prop where
  calls : ∀ (j : ℕ) (c : Active υ ι σ), w.calls[j]? = some c → CallKept svc w c
  compatible : ∀ d ∈ w.asked, ∀ x ∈ w.asked, Compatible svc d x
  cache : ∀ e ∈ w.cache.entries, ∃ d ∈ w.asked, e.1 = resultKey svc.toTextServices d ∧
    ∃ m ∈ ms, m.time = e.2.1 ∧ m.epoch = w.epoch ∧
      e.2.2 = plainAnswer svc d (m.store d.namespaceId)
  understood : ∀ e ∈ w.understandingCache.entries, ∃ d ∈ w.asked,
    d.config.enableQueryUnderstanding = true ∧
      e.1 = understandingKey svc.toTextServices d ∧
      plainUnderstanding svc.toTextServices d.config d.queryText d.lightweight = some e.2.2
  searchers : ∀ n searcher chunks epoch, w.keywordSearchers n = some (searcher,chunks,epoch) →
    epoch = w.epoch n ∧ svc.buildIndex chunks = some searcher
  rerankers : ∀ m r, w.rerankers m = some r → ∃ d ∈ w.asked, d.config.enableReranking = true ∧
    m = d.config.rerankingMethod ∧
      createReranker d.config.rerankingMethod d.config.rerankingModel = some r
  served : ∀ s ∈ w.served, ∃ m ∈ ms, s.atTime-m.time < w.cache.ttl ∧
    s.epoch ≤ m.epoch s.input.namespaceId ∧
    s.result = plainAnswer svc s.input (m.store s.input.namespaceId)

theorem Kept.fresh (hk : Kept svc w.moments w) : FreshCaches svc w where
  served := hk.served
  indexed := by
    intro c hc x hx
    obtain ⟨j, hj⟩ := List.mem_iff_getElem?.mp hc
    have hs := (hk.calls j c hj).stage
    generalize c.stage = stage at hs hx
    cases stage with
    | missed => cases hx
    | asking => cases hx
    | searching input views indexes fetch => exact (hs.indexes x hx).2.1
    | returned indexes => exact hs x hx

/-- What is kept of a call depends on the configurations only while the call is
underway. -/
theorem CallKept.mono (h : CallKept svc w c) (hasked : ∀ d ∈ w.asked, d ∈ w'.asked)
    (hepoch : w.epoch c.input.namespaceId ≤ w'.epoch c.input.namespaceId)
    (hconfig : c.stage.unfinished = true → w'.configs c.config = w.configs c.config) :
    CallKept svc w' c := by
  refine ⟨hasked _ h.asked, h.epoch.trans hepoch, ?_⟩
  have hs := h.stage
  generalize c.stage = stage at hs hconfig ⊢
  cases stage with
  | missed => exact (hconfig rfl).trans hs
  | asking => exact ⟨(hconfig rfl).trans hs.1, hs.2⟩
  | searching input views indexes fetch =>
    exact ⟨hs.same, (hconfig rfl).trans hs.config, hs.views, hs.indexes, hs.fetch⟩
  | returned indexes => exact hs

/-- A move of one call keeps the calls, if the moved call has what its new stage
asks for and the configurations in use elsewhere stay. -/
theorem Kept.calls_advance (hk : Kept svc ms w) (hi : w.calls[i]? = some c)
    {stage : Stage υ ι σ} (hcalls : w'.calls = w.calls.set i { c with stage := stage })
    (hasked : w'.asked = w.asked) (hepoch : w'.epoch = w.epoch)
    (hconfig : ∀ (j : ℕ) (c' : Active υ ι σ), w.calls[j]? = some c' → j ≠ i →
      c'.stage.unfinished = true → w'.configs c'.config = w.configs c'.config)
    (hstage : StageKept svc w'.configs { c with stage := stage } stage) :
    ∀ (j : ℕ) (c' : Active υ ι σ), w'.calls[j]? = some c' → CallKept svc w' c' := by
  intro j c' hj
  rw [hcalls] at hj
  rcases Calls.getElem?_set_cases hj with ⟨rfl, rfl⟩ | ⟨hne, hold⟩
  · have hc := hk.calls _ c hi
    exact ⟨hasked ▸ hc.asked, hepoch ▸ hc.epoch, hstage⟩
  · exact (hk.calls j c' hold).mono (fun d hd => hasked ▸ hd) (by rw [hepoch])
      (hconfig j c' hold hne)

end Invariant

section Surroundings

/-- What is kept stays when only moments are added and calls are asked. -/
theorem Kept.later {ms' : List (Moment σ)} (hk : Kept svc ms w) (hms : ∀ m ∈ ms, m ∈ ms') :
    Kept svc ms' w where
  calls := hk.calls
  compatible := hk.compatible
  cache := by
    intro e he
    obtain ⟨d, hd, hkey, m, hm, hrest⟩ := hk.cache e he
    exact ⟨d, hd, hkey, m, hms m hm, hrest⟩
  understood := hk.understood
  searchers := hk.searchers
  rerankers := hk.rerankers
  served := by
    intro s hs
    obtain ⟨m, hm, hrest⟩ := hk.served s hs
    exact ⟨m, hms m hm, hrest⟩

theorem kept_tick (hk : Kept svc ms w) (ticks : ℕ) :
    Kept svc ms { w with now := w.now+ticks } where
  calls := fun j c hj => (hk.calls j c hj).mono (fun _ h => h) le_rfl (fun _ => rfl)
  compatible := hk.compatible
  cache := hk.cache
  understood := hk.understood
  searchers := hk.searchers
  rerankers := hk.rerankers
  served := hk.served

theorem kept_write (hk : Kept svc ms w) (n : ℕ) (content : σ) :
    Kept svc ms { w with store := Function.update w.store n content } where
  calls := fun j c hj => (hk.calls j c hj).mono (fun _ h => h) le_rfl (fun _ => rfl)
  compatible := hk.compatible
  cache := hk.cache
  understood := hk.understood
  searchers := hk.searchers
  rerankers := hk.rerankers
  served := hk.served

theorem kept_invalidate (hk : Kept svc ms w) (n : ℕ) : Kept svc ms (invalidateCaches n w) where
  calls := by
    intro j c hj
    refine (hk.calls j c hj).mono (fun _ h => h) ?_ (fun _ => rfl)
    simp only [invalidateCaches, Function.update_apply]
    split_ifs with hn
    · rw [hn]
      exact Nat.le_succ _
    · exact le_rfl
  compatible := hk.compatible
  cache := by
    intro e he
    cases he
  understood := by
    intro e he
    cases he
  searchers := by
    intro m searcher chunks epoch h
    simp only [invalidateCaches, Function.update_apply] at h ⊢
    split_ifs at h ⊢
    exact hk.searchers m searcher chunks epoch h
  rerankers := hk.rerankers
  served := hk.served

/-- Asking one more call keeps what is kept, with the cache as its look-up leaves
it. -/
theorem Kept.ask {cache : QueryCache ResultKey ρ} (hk : Kept svc ms w)
    (hx : ∀ d ∈ w.asked, Compatible svc d x) (hcache : ∀ e ∈ cache.entries, e ∈ w.cache.entries)
    (httl : cache.ttl = w.cache.ttl) :
    Kept svc ms { w with cache := cache, asked := w.asked++[x] } where
  calls := fun j c hj => (hk.calls j c hj).mono (fun _ h => List.mem_append_left _ h) le_rfl
    (fun _ => rfl)
  compatible := by
    intro d hd d' hd'
    rcases List.mem_append.mp hd with hd | hd <;> rcases List.mem_append.mp hd' with hd' | hd'
    · exact hk.compatible d hd d' hd'
    · rw [List.mem_singleton.mp hd']
      exact hx d hd
    · rw [List.mem_singleton.mp hd]
      exact (hx d' hd').symm
    · rw [List.mem_singleton.mp hd, List.mem_singleton.mp hd']
      exact Compatible.refl x
  cache := by
    intro e he
    obtain ⟨d, hd, hrest⟩ := hk.cache e (hcache e he)
    exact ⟨d, List.mem_append_left _ hd, hrest⟩
  understood := by
    intro e he
    obtain ⟨d, hd, hrest⟩ := hk.understood e he
    exact ⟨d, List.mem_append_left _ hd, hrest⟩
  searchers := hk.searchers
  rerankers := by
    intro m r h
    obtain ⟨d, hd, hrest⟩ := hk.rerankers m r h
    exact ⟨d, List.mem_append_left _ hd, hrest⟩
  served := by
    intro s hs
    simp only [httl]
    exact hk.served s hs

/-- A call that starts is served what it would compute, or begins with the
configuration it was made with. -/
theorem kept_start (hk : Kept svc ms w) (r : ℕ) (hr : w.configs r = x.config)
    (hx : ∀ d ∈ w.asked, Compatible svc d x) : Kept svc ms (startQuery svc w r x) := by
  unfold startQuery
  have hsub : ∀ e ∈ (w.cache.get (resultKey svc.toTextServices x) w.now).2.entries,
      e ∈ w.cache.entries := fun e he => QueryCache.get_mem he
  have httl : (w.cache.get (resultKey svc.toTextServices x) w.now).2.ttl = w.cache.ttl :=
    QueryCache.get_ttl
  have hserve : ∀ res, (w.cache.get (resultKey svc.toTextServices x) w.now).1 = some res →
      ∃ m ∈ ms, w.now-m.time < w.cache.ttl ∧ w.epoch x.namespaceId ≤ m.epoch x.namespaceId ∧
        res = plainAnswer svc x (m.store x.namespaceId) := by
    intro res hres
    obtain ⟨ts, hmem, hlt⟩ := QueryCache.get_some hres
    obtain ⟨d, hd, hkey, m, hm, htime, hepoch, hans⟩ := hk.cache _ hmem
    obtain rfl := (hx d hd).result hkey.symm
    exact ⟨m, hm, htime ▸ hlt, by rw [hepoch], hans⟩
  split
  · rename_i res cache hget
    rw [hget] at hsub httl hserve
    have hask := hk.ask hx hsub httl
    have hcttl : cache.ttl = w.cache.ttl := httl
    refine ⟨fun j c hj => (hask.calls j c hj).mono (fun _ h => h) le_rfl (fun _ => rfl),
      hask.compatible, hask.cache, hask.understood, hask.searchers, hask.rerankers,
      fun s hs => ?_⟩
    rcases List.mem_append.mp hs with hs | hs
    · exact hask.served s hs
    · obtain rfl := List.mem_singleton.mp hs
      simp only [hcttl]
      exact hserve res rfl
  · rename_i cache hget
    rw [hget] at hsub httl
    have hask := hk.ask hx hsub httl
    refine ⟨fun j c hj => ?_, hask.compatible, hask.cache, hask.understood, hask.searchers,
      hask.rerankers, hask.served⟩
    rw [List.getElem?_append] at hj
    split at hj
    · exact (hask.calls j c hj).mono (fun _ h => h) le_rfl (fun _ => rfl)
    · rw [List.getElem?_singleton] at hj
      split at hj
      · obtain rfl := Option.some.inj hj
        exact ⟨List.mem_append_right _ (List.mem_singleton_self x), le_rfl, hr⟩
      · cases hj

end Surroundings

section Moves

/-- A move that changes nothing but the stage of its call. -/
theorem kept_stage (hk : Kept svc ms w) (hi : w.calls[i]? = some c) {stage : Stage υ ι σ}
    (hstage : StageKept svc w.configs { c with stage := stage } stage) :
    Kept svc ms (w.advance i c stage) where
  calls := hk.calls_advance hi rfl rfl rfl (fun _ _ _ _ _ => rfl) hstage
  compatible := hk.compatible
  cache := hk.cache
  understood := hk.understood
  searchers := hk.searchers
  rerankers := hk.rerankers
  served := hk.served

/-- A smaller understanding cache, or one with an entry of the call itself. -/
theorem Kept.understand {cache : QueryCache CacheKey (UnderstandingResult υ)}
    (hk : Kept svc ms w) (hcache : ∀ e ∈ cache.entries, e ∈ w.understandingCache.entries ∨
      ∃ d ∈ w.asked, d.config.enableQueryUnderstanding = true ∧
        e.1 = understandingKey svc.toTextServices d ∧
        plainUnderstanding svc.toTextServices d.config d.queryText d.lightweight = some e.2.2) :
    Kept svc ms { w with understandingCache := cache } where
  calls := fun j c hj => (hk.calls j c hj).mono (fun _ h => h) le_rfl (fun _ => rfl)
  compatible := hk.compatible
  cache := hk.cache
  understood := fun e he => (hcache e he).elim (hk.understood e) id
  searchers := hk.searchers
  rerankers := hk.rerankers
  served := hk.served

/-- A call adapts the configuration object it was made with to the understanding
it would have by itself. -/
theorem kept_beginSearch (hk : Kept svc ms w) (hi : w.calls[i]? = some c)
    (hconfig : w.configs c.config = c.input.config)
    (halone : SettledInput svc c.input ∨ Alone w i c) {u : Option (UnderstandingResult υ)}
    (hu : u = plainUnderstanding svc.toTextServices c.input.config c.input.queryText
      c.input.lightweight) : Kept svc ms (beginSearch svc w i c u) := by
  subst hu
  have hinput : searchInput svc.toTextServices svc.hydeExpander (w.configs c.config)
      c.input.queryText c.input.namespaceId c.input.temporalFilter
      (plainUnderstanding svc.toTextServices c.input.config c.input.queryText
        c.input.lightweight) = plainInput svc c.input := by
    rw [hconfig, plainInput]
  have hstay : ∀ (j : ℕ) (c' : Active υ ι σ), w.calls[j]? = some c' → j ≠ i →
      c'.stage.unfinished = true →
      Function.update w.configs c.config (plainInput svc c.input).config c'.config =
        w.configs c'.config := by
    intro j c' hj hne hun
    rcases halone with hsettled | halone
    · have hself : (plainInput svc c.input).config = w.configs c.config :=
        (adapt_eq_self.mpr hsettled).trans hconfig.symm
      rw [hself, Function.update_eq_self]
    · have hlt : j < w.calls.length := (List.getElem?_eq_some_iff.mp hj).1
      exact Function.update_of_ne (halone j hlt c' hj hne hun) _ _
  unfold beginSearch
  simp only [hinput]
  refine ⟨hk.calls_advance hi rfl rfl rfl hstay ?_, hk.compatible, hk.cache, hk.understood,
    hk.searchers, hk.rerankers, hk.served⟩
  exact
    { same := rfl
      config := Function.update_self _ _ _
      views := by
        intro v hv
        cases hv
      indexes := by
        intro x hx
        cases hx
      fetch := trivial }

/-- What stands in the understanding cache under the call's key is what the call
would understand by itself. -/
theorem Kept.cached_understanding (hk : Kept svc ms w) (hx : x ∈ w.asked)
    (hen : x.config.enableQueryUnderstanding = true) {u : UnderstandingResult υ}
    (hget : (w.understandingCache.get (understandingKey svc.toTextServices x) w.now).1 = some u) :
    plainUnderstanding svc.toTextServices x.config x.queryText x.lightweight = some u := by
  obtain ⟨ts, hmem, -⟩ := QueryCache.get_some hget
  obtain ⟨d, hd, hden, hkey, hplain⟩ := hk.understood _ hmem
  have hsame := (hk.compatible d hd x hx).understanding ⟨hden, hen, hkey.symm⟩
  rw [plainUnderstanding, if_neg (by simp [hden]), hsame.1, hsame.2] at hplain
  rw [plainUnderstanding, if_neg (by simp [hen])]
  exact hplain

theorem kept_consult (hk : Kept svc ms w) (hi : w.calls[i]? = some c) (hs : c.stage = .missed)
    (hm : CarefulMove svc w i c .consult) : Kept svc ms (consult svc w i c) := by
  have hck := hk.calls i c hi
  have hconfig : w.configs c.config = c.input.config := by
    have hstage := hck.stage
    rw [hs] at hstage
    exact hstage
  have hsub : ∀ e ∈ (w.understandingCache.get (understandingKey svc.toTextServices c.input)
      w.now).2.entries, e ∈ w.understandingCache.entries := fun e he => QueryCache.get_mem he
  have hfound := fun u => hk.cached_understanding (u := u) hck.asked
  have hasks : asksModel svc w c = true → (w.configs c.config).enableQueryUnderstanding = true ∧
      (w.understandingCache.get (understandingKey svc.toTextServices c.input) w.now).1 = none ∧
      svc.isSimpleQuery c.input.queryText = false := by
    intro h
    simpa [asksModel, and_assoc] using h
  unfold consult
  by_cases hen : (w.configs c.config).enableQueryUnderstanding = false
  · rw [if_pos hen]
    refine kept_beginSearch hk hi hconfig (hm.resolve_left fun h => ?_) ?_
    · rw [hen] at hasks
      cases (hasks h).1
    · rw [hconfig] at hen
      rw [plainUnderstanding, if_pos hen]
  · rw [if_neg hen]
    rw [Bool.not_eq_false] at hen
    split
    · rename_i u cache hget
      rw [hget] at hsub hfound hasks
      refine kept_beginSearch (hk.understand fun e he => Or.inl (hsub e he)) hi hconfig
        (hm.resolve_left fun h => ?_) (hfound u (hconfig ▸ hen) rfl).symm
      cases (hasks h).2.1
    · rename_i cache hget
      rw [hget] at hsub hasks
      have hku : Kept svc ms { w with understandingCache := cache } :=
        hk.understand fun e he => Or.inl (hsub e he)
      split_ifs with hsimple
      · refine kept_beginSearch hku hi hconfig (hm.resolve_left fun h => ?_) ?_
        · rw [hsimple] at hasks
          cases (hasks h).2.2
        · rw [plainUnderstanding, freshUnderstanding, if_pos hsimple, ite_self]
      · exact kept_stage hku hi ⟨hconfig, hconfig ▸ hen⟩

theorem kept_answered (hk : Kept svc ms w) (hi : w.calls[i]? = some c) (hs : c.stage = .asking)
    (hm : CarefulMove svc w i c .answered) : Kept svc ms (answered svc w i c) := by
  have hck := hk.calls i c hi
  obtain ⟨hconfig, hen⟩ : w.configs c.config = c.input.config ∧
      c.input.config.enableQueryUnderstanding = true := by
    have hstage := hck.stage
    rw [hs] at hstage
    exact hstage
  have hplain : plainUnderstanding svc.toTextServices c.input.config c.input.queryText
      c.input.lightweight = freshUnderstanding svc.toTextServices c.input.queryText
        (flags (w.configs c.config) c.input.lightweight) := by
    rw [plainUnderstanding, if_neg (by simp [hen]), hconfig]
  unfold answered
  split
  · rename_i hnone
    exact kept_beginSearch hk hi hconfig hm (hplain.trans hnone).symm
  · rename_i u hsome
    have hku : Kept svc ms { w with
        understandingCache := w.understandingCache.set
          (understandingKey svc.toTextServices c.input) w.now u } := by
      refine hk.understand fun e he => ?_
      rcases QueryCache.set_mem he with rfl | he
      · exact Or.inr ⟨c.input, hck.asked, hen, rfl, hplain.trans hsome⟩
      · exact Or.inl he
    exact kept_beginSearch hku hi hconfig hm (hplain.trans hsome).symm

variable {input : Search υ} {views : List (QueryConfig × σ)} {indexes : List (Indexed ι σ)}
  {fetch : Fetch σ}

theorem Kept.search (hk : Kept svc ms w) (hi : w.calls[i]? = some c)
    (hs : c.stage = .searching input views indexes fetch) :
    SearchKept svc w.configs c input views indexes fetch := by
  have hstage := (hk.calls i c hi).stage
  rw [hs] at hstage
  exact hstage

theorem kept_read (hk : Kept svc ms w) (hi : w.calls[i]? = some c)
    (hs : c.stage = .searching input views indexes fetch) :
    Kept svc ms (w.advance i c (.searching input
      (views++[(w.configs c.config,w.store c.input.namespaceId)]) indexes fetch)) := by
  have hsk := hk.search hi hs
  refine kept_stage hk hi ⟨hsk.same, hsk.config, fun v hv => ?_, hsk.indexes, hsk.fetch⟩
  rcases List.mem_append.mp hv with hv | hv
  · exact hsk.views v hv
  · rw [List.mem_singleton.mp hv]
    exact hsk.config

/-- An index that is ready is one of the present invalidations. -/
theorem kept_lookUpIndex (hk : Kept svc ms w) (hi : w.calls[i]? = some c)
    (hs : c.stage = .searching input views indexes .idle)
    (huse : usesKeywordIndex (w.configs c.config) = true) :
    Kept svc ms (lookUpIndex w i c input views indexes) := by
  have hsk := hk.search hi hs
  rw [hsk.config] at huse
  unfold lookUpIndex
  split
  · rename_i searcher chunks epoch hget
    obtain ⟨hepoch, hbuilt⟩ := hk.searchers _ searcher chunks epoch hget
    refine kept_stage hk hi ⟨hsk.same, hsk.config, hsk.views, fun x hx => ?_, trivial⟩
    rcases List.mem_append.mp hx with hx | hx
    · exact hsk.indexes x hx
    · obtain rfl := List.mem_singleton.mp hx
      exact ⟨huse, hepoch ▸ (hk.calls i c hi).epoch, hbuilt.symm⟩
  · exact kept_stage hk hi ⟨hsk.same, hsk.config, hsk.views, hsk.indexes, huse⟩

theorem kept_listChunks (hk : Kept svc ms w) (hi : w.calls[i]? = some c)
    (hs : c.stage = .searching input views indexes .fetching) :
    Kept svc ms (w.advance i c (.searching input views indexes
      (.fetched (w.store c.input.namespaceId) (w.epoch c.input.namespaceId)))) := by
  have hsk := hk.search hi hs
  exact kept_stage hk hi ⟨hsk.same, hsk.config, hsk.views, hsk.indexes, hsk.fetch,
    (hk.calls i c hi).epoch⟩

theorem kept_indexChunks (hk : Kept svc ms w) (hi : w.calls[i]? = some c) {chunks : σ} {epoch : ℕ}
    (hs : c.stage = .searching input views indexes (.fetched chunks epoch))
    (hm : CarefulMove svc w i c .indexChunks) :
    Kept svc ms (indexChunks svc w i c input views indexes chunks epoch) := by
  have hsk := hk.search hi hs
  have hepoch : epoch = w.epoch c.input.namespaceId := hm epoch (by rw [hs]; rfl)
  have hadv : Kept svc ms (w.advance i c (.searching input views
      (indexes++[⟨chunks,epoch,svc.buildIndex chunks⟩]) .idle)) := by
    refine kept_stage hk hi ⟨hsk.same, hsk.config, hsk.views, fun x hx => ?_, trivial⟩
    rcases List.mem_append.mp hx with hx | hx
    · exact hsk.indexes x hx
    · obtain rfl := List.mem_singleton.mp hx
      exact ⟨hsk.fetch.1, hsk.fetch.2, rfl⟩
  refine ⟨fun j c' hj => (hadv.calls j c' hj).mono (fun _ h => h) le_rfl (fun _ => rfl),
    hadv.compatible, hadv.cache, hadv.understood, fun n searcher ch ep h => ?_, hadv.rerankers,
    hadv.served⟩
  simp only [indexChunks] at h
  cases hb : svc.buildIndex chunks with
  | none =>
    rw [hb] at h
    exact hk.searchers n searcher ch ep h
  | some built =>
    rw [hb] at h
    simp only [Option.elim_some, Function.update_apply] at h
    split_ifs at h with hn
    · simp only [Option.some.injEq, Prod.mk.injEq] at h
      obtain ⟨rfl, rfl, rfl⟩ := h
      exact ⟨hn ▸ hepoch, hb⟩
    · exact hk.searchers n searcher ch ep h

/-- The reranker a call gets is the one it would make. -/
theorem Kept.reranker (hk : Kept svc ms w) (hx : x ∈ w.asked) {cfg : QueryConfig}
    (hf : fixed cfg = fixed x.config) (wanted : Bool) :
    (rerankerStep cfg wanted w.rerankers).1 =
      if cfg.enableReranking && wanted then
        createReranker cfg.rerankingMethod cfg.rerankingModel else none := by
  simp only [fixed, Prod.mk.injEq] at hf
  obtain ⟨-, -, hen, hmethod, hmodel⟩ := hf
  unfold rerankerStep
  split_ifs with hw
  · cases hr : w.rerankers cfg.rerankingMethod with
    | none => rfl
    | some r =>
      obtain ⟨d, hd, hden, hm, hcreate⟩ := hk.rerankers _ r hr
      have hxen : x.config.enableReranking = true := by
        rw [← hen]
        exact (Bool.and_eq_true_iff.mp hw).1
      have hsame := (hk.compatible d hd x hx).reranker ⟨hden, hxen, by rw [← hm, hmethod]⟩
      rw [hmethod, hmodel, ← hsame, hcreate]
  · rfl

/-- A call whose reads are of the present store fills the cache with what it
computes by itself at this moment. -/
theorem kept_finish (hk : Kept svc ms w) (hi : w.calls[i]? = some c)
    (hs : c.stage = .searching input views indexes .idle)
    (hready : (usesKeywordIndex (w.configs c.config) && indexes.isEmpty) = false)
    (hm : CarefulMove svc w i c .finish) (hms : w.moment ∈ ms) :
    Kept svc ms (finish svc w i c input views indexes) := by
  have hsk := hk.search hi hs
  have hck := hk.calls i c hi
  obtain ⟨hviews, hindexes⟩ := hm
  rw [hs] at hviews hindexes
  have hview : viewAt w c views = fun _ => (input.config,w.store c.input.namespaceId) := by
    funext k
    rw [viewAt, List.getD_eq_getElem?_getD]
    cases hv : views[k]? with
    | none => rw [Option.getD_none, hsk.config]
    | some v =>
      have hmem := List.mem_of_getElem? hv
      exact Prod.ext (hsk.views v hmem) (hviews v hmem)
  have hindex : indexAt indexes = fun _ => if usesKeywordIndex input.config then
      svc.buildIndex (w.store c.input.namespaceId) else none := by
    funext k
    rw [hsk.config] at hready
    cases hx : indexes[k]?.or indexes.getLast? with
    | none =>
      have hnil : indexes = [] := by
        rcases Option.or_eq_none_iff.mp hx with ⟨-, hlast⟩
        exact List.getLast?_eq_none_iff.mp hlast
      rw [hnil, List.isEmpty_nil, Bool.and_true] at hready
      rw [indexAt, hx, hready]
      rfl
    | some x =>
      have hmem : x ∈ indexes := by
        rcases Option.or_eq_some_iff.mp hx with hx | ⟨-, hx⟩
        · exact List.mem_of_getElem? hx
        · exact List.mem_of_getLast? hx
      obtain ⟨huse, -, hbuilt⟩ := hsk.indexes x hmem
      rw [indexAt, hx, huse, ← hindexes x hmem]
      exact hbuilt
  have hfixed : fixed (w.configs c.config) = fixed c.input.config := by
    rw [hsk.config, hsk.same]
    exact searchInput_fixed _ _ _ _ _ _ _
  have hadv : Kept svc ms (w.advance i c (.returned indexes)) :=
    kept_stage hk hi (fun x hx => (hsk.indexes x hx).2.1)
  refine ⟨fun j c' hj => (hadv.calls j c' hj).mono (fun _ h => h) le_rfl (fun _ => rfl),
    hadv.compatible, fun e he => ?_, hadv.understood, hadv.searchers, fun m r h => ?_,
    fun s hserved => ?_⟩
  · rcases QueryCache.set_mem he with rfl | he
    · refine ⟨c.input, hck.asked, rfl, w.moment, hms, rfl, rfl, ?_⟩
      simp only [hk.reranker hck.asked hfixed, hview, hindex]
      simp only [hsk.config, hsk.same, plainAnswer, World.moment]
      rfl
    · exact hadv.cache e he
  · rcases rerankerStep_mem h with hold | ⟨hen, hmethod, hcreate⟩
    · exact hadv.rerankers m r hold
    · simp only [fixed, Prod.mk.injEq] at hfixed
      rw [hfixed.2.2.1] at hen
      rw [hfixed.2.2.2.1] at hmethod hcreate
      rw [hfixed.2.2.2.2] at hcreate
      exact ⟨c.input, hck.asked, hen, hmethod, hcreate⟩
  · simp only [finish, QueryCache.set_ttl]
    exact hadv.served s hserved

end Moves

section Runs

theorem advance_kept (hk : Kept svc ms w) (hi : w.calls[i]? = some c) {m : Move}
    (hm : CarefulMove svc w i c m) (hms : w.moment ∈ ms) (h : advance svc w i c m = some w') :
    Kept svc ms w' := by
  unfold advance at h
  split at h
  · obtain rfl := Option.some.inj h
    exact kept_consult hk hi ‹_› hm
  · obtain rfl := Option.some.inj h
    exact kept_answered hk hi ‹_› hm
  · obtain rfl := Option.some.inj h
    exact kept_read hk hi ‹_›
  · split_ifs at h with huse
    obtain rfl := Option.some.inj h
    exact kept_lookUpIndex hk hi ‹_› huse
  · obtain rfl := Option.some.inj h
    exact kept_listChunks hk hi ‹_›
  · obtain rfl := Option.some.inj h
    exact kept_indexChunks hk hi ‹_› hm
  · split_ifs at h with hready
    obtain rfl := Option.some.inj h
    exact kept_finish hk hi ‹_› (by simpa using hready) hm hms
  · cases h

theorem advance_moments {m : Move} (h : advance svc w i c m = some w') :
    w'.moments = w.moments := by
  unfold advance at h
  split at h
  · obtain rfl := Option.some.inj h
    unfold consult
    split
    · rfl
    · split
      · rfl
      · split <;> rfl
  · obtain rfl := Option.some.inj h
    unfold answered
    split <;> rfl
  · obtain rfl := Option.some.inj h
    rfl
  · split_ifs at h
    obtain rfl := Option.some.inj h
    unfold lookUpIndex
    split <;> rfl
  · obtain rfl := Option.some.inj h
    rfl
  · obtain rfl := Option.some.inj h
    rfl
  · split_ifs at h
    obtain rfl := Option.some.inj h
    rfl
  · cases h

theorem transition_kept (hk : Kept svc w.moments w) (hms : w.moment ∈ w.moments) {e : Event σ}
    (hok : Careful svc w e) (h : transition svc w e = some w') :
    Kept svc w.moments w' ∧ w'.moments = w.moments := by
  cases e with
  | tick ticks =>
    obtain rfl := Option.some.inj h
    exact ⟨kept_tick hk ticks, rfl⟩
  | write n content =>
    obtain rfl := Option.some.inj h
    exact ⟨kept_write hk n content, rfl⟩
  | invalidateCaches n =>
    obtain rfl := Option.some.inj h
    exact ⟨kept_invalidate hk n, rfl⟩
  | query text n config tf lw =>
    obtain rfl := Option.some.inj h
    refine ⟨kept_start hk _ rfl hok, ?_⟩
    unfold startQuery
    split <;> rfl
  | advance i m =>
    obtain ⟨c, hi, hadv⟩ := Option.bind_eq_some_iff.mp h
    exact ⟨advance_kept hk hi (hok c hi) hms hadv, advance_moments hadv⟩

theorem cachedStep_kept (hk : Kept svc w.moments w ∧ w.moment ∈ w.moments) {e : Event σ}
    (hok : Careful svc w e) (h : cachedStep svc w e = some w') :
    Kept svc w'.moments w' ∧ w'.moment ∈ w'.moments := by
  obtain ⟨t, ht, rfl⟩ := Option.map_eq_some_iff.mp h
  obtain ⟨hkt, hmoments⟩ := transition_kept hk.1 hk.2 hok ht
  refine ⟨?_, List.mem_append_right _ (List.mem_singleton_self _)⟩
  have hlater : Kept svc (t.moments++[t.moment]) t :=
    hkt.later (fun m hm => List.mem_append_left _ (hmoments ▸ hm))
  exact ⟨fun j c hj => (hlater.calls j c hj).mono (fun _ h => h) le_rfl (fun _ => rfl),
    hlater.compatible, hlater.cache, hlater.understood, hlater.searchers, hlater.rerankers,
    hlater.served⟩

instance (svc : StoreServices υ ι σ ρ) (d c : Input) : Decidable (Compatible svc d c) :=
  decidable_of_iff
    ((resultKey svc.toTextServices d = resultKey svc.toTextServices c → d = c) ∧
      (d.config.enableQueryUnderstanding = true ∧ c.config.enableQueryUnderstanding = true ∧
          understandingKey svc.toTextServices d = understandingKey svc.toTextServices c →
        d.queryText = c.queryText ∧
          flags d.config d.lightweight = flags c.config c.lightweight) ∧
      (d.config.enableReranking = true ∧ c.config.enableReranking = true ∧
          d.config.rerankingMethod = c.config.rerankingMethod →
        createReranker d.config.rerankingMethod d.config.rerankingModel =
          createReranker c.config.rerankingMethod c.config.rerankingModel))
    ⟨fun h => ⟨h.1, h.2.1, h.2.2⟩, fun h => ⟨h.result, h.understanding, h.reranker⟩⟩

instance (w : World υ ι σ ρ) (i : ℕ) (c : Active υ ι σ) : Decidable (Alone w i c) :=
  inferInstanceAs (Decidable (∀ j < w.calls.length, ∀ c', w.calls[j]? = some c' → j ≠ i →
    c'.stage.unfinished = true → c'.config ≠ c.config))

instance (svc : StoreServices υ ι σ ρ) (c : Input) : Decidable (SettledInput svc c) :=
  inferInstanceAs (Decidable (Settled _ _ _))

instance [DecidableEq σ] (svc : StoreServices υ ι σ ρ) (w : World υ ι σ ρ) (i : ℕ)
    (c : Active υ ι σ) : ∀ m, Decidable (CarefulMove svc w i c m)
  | .consult => inferInstanceAs (Decidable (_ = true ∨ SettledInput svc c.input ∨ Alone w i c))
  | .answered => inferInstanceAs (Decidable (SettledInput svc c.input ∨ Alone w i c))
  | .indexChunks => inferInstanceAs (Decidable (∀ epoch, c.stage.fetchedEpoch = some epoch →
      epoch = w.epoch c.input.namespaceId))
  | .finish => inferInstanceAs (Decidable
      ((∀ v ∈ c.stage.views, v.2 = w.store c.input.namespaceId) ∧
        ∀ x ∈ c.stage.indexes, x.chunks = w.store c.input.namespaceId))
  | .read | .lookUpIndex | .listChunks => isTrue trivial

instance [DecidableEq σ] (svc : StoreServices υ ι σ ρ) (w : World υ ι σ ρ) :
    ∀ e, Decidable (Careful svc w e)
  | .tick _ | .write _ _ | .invalidateCaches _ => isTrue trivial
  | .query text n config tf lw => inferInstanceAs (Decidable (∀ d ∈ w.asked,
      Compatible svc d ⟨text,n,w.configs (config.getD w.config),tf,lw⟩))
  | .advance i m => inferInstanceAs (Decidable
      (∀ c, w.calls[i]? = some c → CarefulMove svc w i c m))

/-- The store is a number of chunks; a search returns how many pass its filter
stage, and how many it first read. -/
def filtered : StoreServices Unit Unit ℕ (ℤ × ℕ) where
  normalize := id
  resolveFast := fun _ => none
  validateDates := id
  isSimpleQuery := fun _ => true
  understand := fun _ _ => .failed
  heuristicUnderstanding := fun _ => ⟨⟨0,0,0,0⟩,1,false,[],()⟩
  hydeExpander := none
  buildIndex := fun _ => some ()
  wantsReranker := fun _ _ _ => false
  answer := fun s view _ _ => (min s.config.stage3FilterLimit ((view 0).2:ℤ),(view 0).2)

/-- The engine's configuration, and two that differ in the limit of the filter
stage; the third is for the keyword index. -/
def someConfigs (r : ℕ) : QueryConfig :=
  { stage3FilterLimit := if r = 1 then 1 else 50
    keywordSearchMethod := if r = 2 then "bm25" else "fulltext" }

/-- Two calls with configurations that differ in a field the key leaves out: the
second is served the first one's result. -/
def sharedEntry : List (Event ℕ) :=
  [.query "lab" 1 (some 0) none none, .advance 0 .consult, .advance 0 .finish,
    .query "lab" 1 (some 1) none none]

/-- A call reads the store, which is then written and invalidated; the call
fills the new cache, and the next call is served from it. -/
def staleFill : List (Event ℕ) :=
  [.query "lab" 1 none none none, .advance 0 .consult, .advance 0 .read, .write 1 8,
    .invalidateCaches 1, .advance 0 .finish, .query "lab" 1 none none none]

/-- The same for an index whose chunks were listed before the invalidation. -/
def staleIndex : List (Event ℕ) :=
  [.query "lab" 1 (some 2) none none, .advance 0 .consult, .advance 0 .lookUpIndex,
    .advance 0 .listChunks, .write 1 8, .invalidateCaches 1, .advance 0 .indexChunks,
    .query "lab" 1 (some 2) none none, .advance 1 .consult, .advance 1 .lookUpIndex]

theorem served_after {es : List (Event ℕ)} {w : World Unit Unit ℕ (ℤ × ℕ)}
    (hw : Machine.run (cachedStep filtered) (World.initial 0 someConfigs (fun _ => 7)) es = some w)
    {α : Type} (f : World Unit Unit ℕ (ℤ × ℕ) → α) {a : α}
    (h : (Machine.run (cachedStep filtered) (World.initial 0 someConfigs (fun _ => 7)) es).map f =
      some a) : f w = a := by
  rw [hw] at h
  exact Option.some.inj h

def servesFresh (w : World Unit Unit ℕ (ℤ × ℕ)) : Bool :=
  decide (∀ s ∈ w.served, ∃ m ∈ w.moments, s.atTime-m.time < w.cache.ttl ∧
    s.epoch ≤ m.epoch s.input.namespaceId ∧
    s.result = plainAnswer filtered s.input (m.store s.input.namespaceId))

def indexesFresh (w : World Unit Unit ℕ (ℤ × ℕ)) : Bool :=
  decide (∀ c ∈ w.calls, ∀ x ∈ c.stage.indexes, c.epoch ≤ x.epoch)

end Runs

end Uru.Query
