import Uru.Lib.Machine
import Uru.Hooks.Dispatcher

/-!
# Subscriptions do not interfere

At each id stands either nothing, a paused durable row, or a live registration
with the one subscription that serves it. A step touches the entries of one id,
and leaves what the other subscriptions read of their filters as long as it does
not fold another scope onto an object they refer to.
-/

set_option autoImplicit false

namespace Uru.Hooks

open Uru.Lib

variable {μ θ δ π : Type*} {svc : Services μ θ δ π} {w : World μ θ δ}
  {filters : ℕ → SemanticFilter μ θ δ} {cache : ℕ → Option δ} {event : MemoryEvent δ π}
  {held : Option (Held μ θ δ)} {h : Held μ θ δ} {filter ns : Option ℕ} {i : ℕ}

section Condition

def Held.shares (r : ℕ) : Held μ θ δ → Bool
  | .shared r' => r' == r
  | .own _ => false

def heldInMemory (w : World μ θ δ) : List (Held μ θ δ) :=
  (List.range w.uuids).flatMap (fun i =>
    ((w.subscriptions.byId i).bind (·.filter)).toList++
      ((w.persistent.byId i).bind (·.filter)).toList)

/-- The caller's filter has the scope of the call already, or it has none and no
subscription in memory refers to it. -/
def Foldable (w : World μ θ δ) (filter namespaceId : Option ℕ) : Prop :=
  ∀ r, filter = some r → ∀ n, namespaceId = some n →
    (w.filters r).namespaceId = some n ∨
      ((w.filters r).namespaceId = none ∧ ∀ h ∈ heldInMemory w, h.shares r = false)

/-- No subscription in memory has a filter of the same identity with another
embedding. -/
def Cacheable (w : World μ θ δ) (filter : Option ℕ) : Prop :=
  ∀ r, filter = some r → ∀ e, (w.filters r).embedding = some e →
    ∀ h ∈ heldInMemory w, (h.read w.filters).id = (w.filters r).id →
      ∀ e', (h.read w.filters).embedding = some e' → e = e'

/-- Every live durable registration has a row, and its filter is one that comes
back from the row as it was. -/
def Reloadable (w : World μ θ δ) (rows : List (Row μ θ)) : Prop :=
  ∀ i < w.uuids, ∀ reg, w.live i = some reg → reg.durable = true →
    (∃ row ∈ rows, row.id = i) ∧ ∀ f, reg.filter = some f → f.embedding = none ∧
      (f.namespaceId = none ∨ f.namespaceId = reg.namespaceId)

def Harmless (w : World μ θ δ) : Event → Prop
  | .subscribe _ filter namespaceId => Foldable w filter namespaceId ∧ Cacheable w filter
  | .unsubscribe _ => True
  | .registerPersistent _ filter namespaceId _ =>
    Foldable w filter namespaceId ∧ Cacheable w filter
  | .loadPersistent loaded => loaded = true →
      ∀ rows, w.subscriptionStore = some rows → Reloadable w rows

end Condition

section Fits

/-- The subscription's filter, under the scope the subscription has of its own,
asks what was registered. -/
def Serves (svc : Services μ θ δ π) (ns : Option ℕ) (filter : Option (SemanticFilter μ θ δ))
    (reg : Registration μ θ δ) : Prop :=
  ∀ event, (inScope ns event && filter.all (fun f => accepts svc f event)) =
    (inScope reg.namespaceId event && reg.filter.all (fun f => accepts svc f event))

/-- What may stand at an id: its registration and its two entries in memory. -/
inductive Fits (svc : Services μ θ δ π) (filters : ℕ → SemanticFilter μ θ δ) :
    Option (Registration μ θ δ) → Option (HookSubscription μ θ δ) →
    Option (PersistentSubscription μ θ δ) → Prop
  | absent : Fits svc filters none none none
  | paused (sub) (hp : sub.paused = true) : Fits svc filters none none (some sub)
  | callback (reg sub) (hd : reg.durable = false) (he : sub.enabled = true)
      (ht : sub.eventType = reg.eventType)
      (hs : Serves svc none (sub.filter.map (Held.read filters)) reg) :
      Fits svc filters (some reg) (some sub) none
  | durable (reg sub) (hd : reg.durable = true) (hp : sub.paused = false)
      (ht : sub.eventType = reg.eventType)
      (hs : Serves svc sub.namespaceId (sub.filter.map (Held.read filters)) reg) :
      Fits svc filters (some reg) none (some sub)

def InMemory (w : World μ θ δ) (h : Held μ θ δ) : Prop :=
  ∃ i, (w.subscriptions.byId i).bind (·.filter) = some h ∨
    (w.persistent.byId i).bind (·.filter) = some h

/-- A row has what its registration has, less the scope and the embedding of the
filter. -/
structure Recorded (row : Row μ θ) (reg : Registration μ θ δ) : Prop where
  durable : reg.durable = true
  paused : row.paused = false
  eventType : row.eventType = reg.eventType
  namespaceId : row.namespaceId = reg.namespaceId
  filter : row.filter = reg.filter.map serializeFilter

structure Kept (svc : Services μ θ δ π) (w : World μ θ δ) : Prop where
  subscriptions : TwoIndex.Agree (·.eventType) (·.id) w.subscriptions
  persistent : TwoIndex.Agree (·.eventType) (·.id) w.persistent
  fits : ∀ i, Fits svc w.filters (w.live i) (w.subscriptions.byId i) (w.persistent.byId i)
  cached : ∀ h, InMemory w h → ∀ e, (h.read w.filters).embedding = some e →
    w.embeddingCache (h.read w.filters).id = some e
  fresh : ∀ i, w.uuids ≤ i → w.live i = none ∧ w.persistent.byId i = none
  rows : ∀ rows, w.subscriptionStore = some rows → (rows.map (·.id)).Nodup ∧
    ∀ row ∈ rows, row.id < w.uuids ∧ ∀ reg, w.live row.id = some reg → Recorded row reg

theorem Fits.congr {filters' : ℕ → SemanticFilter μ θ δ} {reg : Option (Registration μ θ δ)}
    {sub : Option (HookSubscription μ θ δ)} {per : Option (PersistentSubscription μ θ δ)}
    (hf : Fits svc filters reg sub per)
    (hs : ∀ h, sub.bind (·.filter) = some h → h.read filters' = h.read filters)
    (hp : ∀ h, per.bind (·.filter) = some h → h.read filters' = h.read filters) :
    Fits svc filters' reg sub per := by
  cases hf with
  | absent => exact .absent
  | paused sub hpaused => exact .paused sub hpaused
  | callback reg sub hd he ht hserves =>
    refine .callback reg sub hd he ht ?_
    have hread : sub.filter.map (Held.read filters') = sub.filter.map (Held.read filters) :=
      Option.map_congr (fun h hh => hs h hh)
    rwa [hread]
  | durable reg sub hd hpaused ht hserves =>
    refine .durable reg sub hd hpaused ht ?_
    have hread : sub.filter.map (Held.read filters') = sub.filter.map (Held.read filters) :=
      Option.map_congr (fun h hh => hp h hh)
    rwa [hread]

theorem Kept.mem_held (hk : Kept svc w) (hm : InMemory w h) : h ∈ heldInMemory w := by
  obtain ⟨i, hi⟩ := hm
  have hlt : i < w.uuids := by
    by_contra hge
    have hfresh := hk.fresh i (not_lt.mp hge)
    have hfits := hk.fits i
    rw [hfresh.1, hfresh.2] at hfits
    rw [hfresh.2] at hi
    generalize w.subscriptions.byId i = sub at hfits hi
    cases hfits
    rcases hi with hi | hi <;> cases hi
  simp only [heldInMemory, List.mem_flatMap, List.mem_range, List.mem_append,
    Option.mem_toList]
  exact ⟨i, hlt, hi⟩

end Fits

section Dispatch

theorem Kept.passes_eq (hk : Kept svc w) (hm : ∀ h, held = some h → InMemory w h) :
    passes svc w event held = (held.map (Held.read w.filters)).all (fun f => accepts svc f event) := by
  cases held with
  | none => rfl
  | some h => exact cascade_eq_accepts (hk.cached h (hm h rfl))

theorem Kept.callbackMatches_eq (hk : Kept svc w) {sub : HookSubscription μ θ δ}
    (hs : w.subscriptions.byId i = some sub) (he : sub.enabled = true) :
    callbackMatches svc w event sub =
      (sub.filter.map (Held.read w.filters)).all (fun f => accepts svc f event) := by
  rw [callbackMatches, he, Bool.true_and]
  exact hk.passes_eq (fun h hh => ⟨i, Or.inl (by rw [hs]; exact hh)⟩)

theorem Kept.persistentMatches_eq (hk : Kept svc w) {sub : PersistentSubscription μ θ δ}
    (hs : w.persistent.byId i = some sub) (hp : sub.paused = false) :
    persistentMatches svc w event sub = (inScope sub.namespaceId event &&
      (sub.filter.map (Held.read w.filters)).all (fun f => accepts svc f event)) := by
  rw [persistentMatches, hp, Bool.not_false, Bool.true_and]
  rw [hk.passes_eq (fun h hh => ⟨i, Or.inr (by rw [hs]; exact hh)⟩)]

/-- Where every id fits, an event goes to the registrations that ask for it. -/
theorem Kept.undisturbed (hk : Kept svc w) : Undisturbed svc w := by
  intro event i
  rw [dispatch, List.count_append, TwoIndex.count_filter hk.subscriptions,
    TwoIndex.count_filter hk.persistent]
  have hfits := hk.fits i
  have hcall : ∀ sub, w.subscriptions.byId i = some sub → sub.enabled = true →
      callbackMatches svc w event sub =
        (sub.filter.map (Held.read w.filters)).all (fun f => accepts svc f event) :=
    fun _ => hk.callbackMatches_eq
  have hper : ∀ sub, w.persistent.byId i = some sub → sub.paused = false →
      persistentMatches svc w event sub = (inScope sub.namespaceId event &&
        (sub.filter.map (Held.read w.filters)).all (fun f => accepts svc f event)) :=
    fun _ => hk.persistentMatches_eq
  generalize w.live i = live at hfits
  generalize w.subscriptions.byId i = sub at hfits hcall
  generalize w.persistent.byId i = per at hfits hper
  cases hfits with
  | absent => rfl
  | paused sub hp => simp [persistentMatches, hp]
  | callback reg sub hd he ht hs =>
    have hserves := hs event
    simp only [inScope, Option.all_none, Bool.true_and] at hserves
    simp only [Option.any_some, Option.any_none, hcall sub rfl he, hserves, ht,
      Registration.wants, inScope, Bool.and_assoc]
    rfl
  | durable reg sub hd hp ht hs =>
    simp only [Option.any_some, Option.any_none, hper sub rfl hp, hs event, ht,
      Registration.wants, Bool.and_assoc]
    exact Nat.zero_add _

end Dispatch

section Registering

@[simp] theorem foldScope_id (f : SemanticFilter μ θ δ) : (foldScope ns f).id = f.id := by
  cases ns <;> rfl

@[simp] theorem foldScope_embedding (f : SemanticFilter μ θ δ) :
    (foldScope ns f).embedding = f.embedding := by
  cases ns <;> rfl

theorem foldScope_same {f : SemanticFilter μ θ δ} (h : ∀ n, ns = some n → f.namespaceId = some n) :
    foldScope ns f = f := by
  cases ns with
  | none => rfl
  | some n => rw [foldScope, ← h n rfl]

/-- What is in memory reads its filter as before. -/
theorem read_rescope (hf : Foldable w filter ns) (hm : h ∈ heldInMemory w) :
    h.read (rescope w.filters filter ns) = h.read w.filters := by
  cases h with
  | own f => rfl
  | shared r' =>
    cases filter with
    | none => rfl
    | some r =>
      by_cases hr : r' = r
      · subst hr
        simp only [Held.read, rescope, Function.update_self]
        refine foldScope_same (fun n hn => ?_)
        rcases hf r' rfl n hn with hsame | ⟨-, hnone⟩
        · exact hsame
        · exact absurd (hnone _ hm) (by simp [Held.shares])
      · simp only [Held.read, rescope, Function.update_of_ne hr]

theorem rescope_self (r : ℕ) :
    (Held.shared r).read (rescope w.filters (some r) ns) = foldScope ns (w.filters r) :=
  Function.update_self _ _ _

/-- The filter of the call, once the scope is folded onto it, asks what the
filter asked and the scope. -/
theorem foldScope_serves (hf : Foldable w filter ns) (durable : Bool) (eventType : String) :
    Serves svc none ((filter.map Held.shared).map (Held.read (rescope w.filters filter ns)))
        ⟨durable, eventType, filter.bind (fun _ => ns), filter.map w.filters⟩ := by
  intro event
  cases filter with
  | none => rfl
  | some r =>
    simp only [Option.map_some, Option.all_some, rescope_self, Option.bind_some]
    cases ns with
    | none => rfl
    | some n =>
      have hscope := hf r rfl n rfl
      exact scoped_accepts (hscope.symm.imp (·.1) id)

theorem registerHeld_kept {id : ℕ} {e : δ} (hc : cache id = some e)
    (hsame : ∀ h, held = some h → (h.read filters).id = id →
      ∀ e', (h.read filters).embedding = some e' → e' = e) :
    registerHeld filters cache held id = some e := by
  cases held with
  | none => exact hc
  | some h => exact registerFilter_kept hc (hsame h rfl)

theorem registerHeld_self {e : δ} (he : (h.read filters).embedding = some e) :
    registerHeld filters cache (some h) (h.read filters).id = some e :=
  registerFilter_self he

/-- After a call that adds a subscription holding `held`, the cache has the
embeddings of the old filters and of the new one. -/
theorem cached_after (hk : Kept svc w) (hf : Foldable w filter ns) (hc : Cacheable w filter)
    (hheld : ∀ h, held = some h → (∃ r, filter = some r ∧ h = .shared r) ∨
      (h.read (rescope w.filters filter ns)).embedding = none)
    (hm : InMemory w h ∨ held = some h) (e : δ)
    (he : (h.read (rescope w.filters filter ns)).embedding = some e) :
    registerHeld (rescope w.filters filter ns) w.embeddingCache held
      (h.read (rescope w.filters filter ns)).id = some e := by
  by_cases hnew : held = some h
  · subst hnew
    exact registerHeld_self he
  · have hmem := hk.mem_held (hm.resolve_right hnew)
    rw [read_rescope hf hmem] at he ⊢
    refine registerHeld_kept (hk.cached h (hm.resolve_right hnew) e he) ?_
    intro g hg hid e' he'
    rcases hheld g hg with ⟨r, hr, rfl⟩ | hnone
    · subst hr
      rw [rescope_self] at hid he'
      rw [foldScope_id] at hid
      rw [foldScope_embedding] at he'
      exact hc r rfl e' he' h hmem hid.symm e he
    · rw [hnone] at he'
      cases he'

end Registering

section Steps

theorem Kept.fits_rescope (hk : Kept svc w) (hf : Foldable w filter ns) (i : ℕ) :
    Fits svc (rescope w.filters filter ns) (w.live i) (w.subscriptions.byId i)
      (w.persistent.byId i) :=
  (hk.fits i).congr
    (fun _ hh => read_rescope hf (hk.mem_held ⟨i, Or.inl hh⟩))
    (fun _ hh => read_rescope hf (hk.mem_held ⟨i, Or.inr hh⟩))

theorem Kept.fresh_subscription (hk : Kept svc w) (hi : w.uuids ≤ i) :
    w.subscriptions.byId i = none := by
  have hfits := hk.fits i
  rw [(hk.fresh i hi).1, (hk.fresh i hi).2] at hfits
  generalize w.subscriptions.byId i = sub at hfits
  cases hfits
  rfl

theorem subscriptionFilter_serves (hf : Foldable w filter ns) (eventType : String) :
    Serves svc none ((subscriptionFilter svc w.uuids filter ns).map
        (Held.read (rescope w.filters filter ns)))
      ⟨false, eventType, ns, filter.map w.filters⟩ := by
  cases filter with
  | some r => exact foldScope_serves hf false eventType
  | none =>
    intro event
    cases ns with
    | none => rfl
    | some n =>
      simp only [subscriptionFilter, Option.map_some, Option.map_none, Option.all_some,
        Option.all_none, Held.read, namespaceFilter_accepts, inScope, Bool.and_true,
        Bool.true_and]

theorem persistent_filter_serves (hf : Foldable w filter ns) (eventType : String) :
    Serves svc ns ((filter.map Held.shared).map (Held.read (rescope w.filters filter ns)))
      ⟨true, eventType, ns, filter.map w.filters⟩ := by
  intro event
  have hscope : Serves svc none ((filter.map Held.shared).map
      (Held.read (rescope w.filters filter ns)))
      ⟨true, eventType, filter.bind (fun _ => ns), filter.map w.filters⟩ :=
    foldScope_serves hf true eventType
  have hserves := hscope event
  simp only [inScope, Option.all_none, Bool.true_and] at hserves
  rw [hserves]
  cases filter with
  | none => rfl
  | some r =>
    simp only [inScope, Option.bind_some, ← Bool.and_assoc, Bool.and_self]

theorem subscribe_kept (hk : Kept svc w) (hf : Foldable w filter ns) (hc : Cacheable w filter)
    (eventType : String) : Kept svc (subscribe svc eventType filter ns w) := by
  have hnew : w.subscriptions.byId (w.uuids+1) = none := hk.fresh_subscription (by omega)
  refine ⟨?_, hk.persistent, fun i => ?_, fun h hm e he => ?_, fun i hi => ?_,
    fun rows hrows => ⟨(hk.rows rows hrows).1, fun row hrow => ?_⟩⟩
  · simp only [subscribe]
    rw [TwoIndex.add_eq_put hnew]
    exact TwoIndex.agree_put hk.subscriptions
  · simp only [subscribe, TwoIndex.add_byId, Function.update_apply]
    by_cases hi : i = w.uuids+1
    · subst hi
      rw [if_pos rfl, if_pos rfl, (hk.fresh _ (Nat.le_succ _)).2]
      exact .callback _ _ rfl rfl rfl (subscriptionFilter_serves hf eventType)
    · rw [if_neg hi, if_neg hi]
      exact hk.fits_rescope hf i
  · refine cached_after hk hf hc (fun g hg => ?_) ?_ e he
    · cases filter with
      | some r =>
        cases hg
        exact Or.inl ⟨r, rfl, rfl⟩
      | none =>
        obtain ⟨n, -, rfl⟩ := Option.map_eq_some_iff.mp hg
        exact Or.inr rfl
    · obtain ⟨j, hj⟩ := hm
      simp only [subscribe, TwoIndex.add_byId] at hj
      by_cases hi : j = w.uuids+1
      · subst hi
        rw [if_pos rfl, (hk.fresh _ (Nat.le_succ _)).2] at hj
        exact Or.inr (hj.resolve_right (by simp))
      · rw [if_neg hi] at hj
        exact Or.inl ⟨j, hj⟩
  · have hi : w.uuids+2 ≤ i := hi
    simp only [subscribe, Function.update_of_ne (show i ≠ w.uuids+1 by omega)]
    exact hk.fresh i (by omega)
  · obtain ⟨hlt, hrec⟩ := (hk.rows rows hrows).2 row hrow
    simp only [subscribe, Function.update_of_ne (show row.id ≠ w.uuids+1 by omega)]
    exact ⟨by omega, hrec⟩

theorem unsubscribe_kept (hk : Kept svc w) (id : ℕ) : Kept svc (unsubscribe id w) := by
  unfold unsubscribe
  cases hs : w.subscriptions.byId id with
  | none => exact hk
  | some sub =>
    have hfits := hk.fits id
    rw [hs] at hfits
    obtain ⟨reg, hlive, hd, hper⟩ : ∃ reg, w.live id = some reg ∧ reg.durable = false ∧
        w.persistent.byId id = none := by
      generalize w.live id = live at hfits
      generalize w.persistent.byId id = per at hfits
      cases hfits with
      | callback reg _ hd _ _ _ => exact ⟨reg, rfl, hd, rfl⟩
    refine ⟨TwoIndex.agree_remove hk.subscriptions, hk.persistent, fun i => ?_,
      fun h hm => hk.cached h ?_, fun i hi => ?_,
      fun rows hrows => ⟨(hk.rows rows hrows).1, fun row hrow => ?_⟩⟩
    · simp only [TwoIndex.remove_byId, Function.update_apply]
      by_cases hi : i = id
      · subst hi
        rw [if_pos rfl, if_pos rfl, hper]
        exact .absent
      · rw [if_neg hi, if_neg hi]
        exact hk.fits i
    · obtain ⟨j, hj⟩ := hm
      simp only [TwoIndex.remove_byId] at hj
      by_cases hi : j = id
      · rw [if_pos hi] at hj
        exact ⟨j, Or.inr (hj.resolve_left (by simp))⟩
      · rw [if_neg hi] at hj
        exact ⟨j, hj⟩
    · have hfresh := hk.fresh i hi
      have hne : i ≠ id := by
        rintro rfl
        rw [hfresh.1] at hlive
        cases hlive
      simp only [Function.update_of_ne hne]
      exact hfresh
    · obtain ⟨hlt, hrec⟩ := (hk.rows rows hrows).2 row hrow
      refine ⟨hlt, fun reg' hreg => ?_⟩
      by_cases hi : row.id = id
      · simp only [hi, Function.update_self] at hreg
        cases hreg
      · simp only [Function.update_of_ne hi] at hreg
        exact hrec reg' hreg

theorem rowOf_recorded (eventType : String) :
    Recorded (rowOf (rescope w.filters filter ns)
        ⟨w.uuids, ns, eventType, filter.map Held.shared, false⟩)
      ⟨true, eventType, ns, filter.map w.filters⟩ := by
  refine ⟨rfl, rfl, rfl, rfl, ?_⟩
  cases filter with
  | none => rfl
  | some r =>
    simp only [rowOf, Option.map_some, rescope_self]
    cases ns <;> rfl

theorem registerPersistent_kept (hk : Kept svc w) (hf : Foldable w filter ns)
    (hc : Cacheable w filter) (eventType : String) (persisted : Bool) :
    Kept svc (registerPersistent eventType filter ns persisted w) := by
  unfold registerPersistent
  cases hst : w.subscriptionStore with
  | none =>
    refine ⟨hk.subscriptions, hk.persistent, hk.fits_rescope hf, fun h hm e he => ?_,
      fun i hi => hk.fresh i (by simp only at hi; omega), fun rows hrows => ?_⟩
    · simp only [read_rescope hf (hk.mem_held hm)] at he ⊢
      exact hk.cached h hm e he
    · cases hrows
  | some rows =>
    have hrows := hk.rows rows hst
    have hlive : ∀ row ∈ rows, row.id ≠ w.uuids := fun row hrow =>
      (Nat.ne_of_lt ((hrows.2 row hrow).1))
    have hold : ∀ row ∈ rows, row.id < w.uuids+1 ∧ ∀ reg,
        Function.update w.live w.uuids (some ⟨true, eventType, ns, filter.map w.filters⟩) row.id =
          some reg → Recorded row reg := by
      intro row hrow
      rw [Function.update_of_ne (hlive row hrow)]
      exact ⟨Nat.lt_succ_of_lt (hrows.2 row hrow).1, (hrows.2 row hrow).2⟩
    refine ⟨hk.subscriptions, TwoIndex.agree_put hk.persistent, fun i => ?_, fun h hm e he => ?_,
      fun i hi => ?_, fun rows' hrows' => ?_⟩
    · simp only [TwoIndex.put_byId, Function.update_apply]
      by_cases hi : i = w.uuids
      · subst hi
        rw [if_pos rfl, if_pos rfl, hk.fresh_subscription le_rfl]
        exact .durable _ _ rfl rfl rfl (persistent_filter_serves hf eventType)
      · rw [if_neg hi, if_neg hi]
        exact hk.fits_rescope hf i
    · refine cached_after hk hf hc (fun g hg => ?_) ?_ e he
      · obtain ⟨r, hr, rfl⟩ := Option.map_eq_some_iff.mp hg
        exact Or.inl ⟨r, hr, rfl⟩
      · obtain ⟨j, hj⟩ := hm
        simp only [TwoIndex.put_byId] at hj
        by_cases hi : j = w.uuids
        · rw [if_pos hi] at hj
          rcases hj with hj | hj
          · exact Or.inl ⟨j, Or.inl hj⟩
          · exact Or.inr hj
        · rw [if_neg hi] at hj
          exact Or.inl ⟨j, hj⟩
    · have hne : i ≠ w.uuids := Nat.ne_of_gt hi
      simp only [TwoIndex.put_byId, Function.update_of_ne hne, if_neg hne]
      exact hk.fresh i (Nat.le_of_succ_le hi)
    · obtain rfl := Option.some.inj hrows'
      cases persisted with
      | false => exact ⟨hrows.1, hold⟩
      | true =>
        refine ⟨?_, fun row hrow => ?_⟩
        · simp only [if_true, List.map_append, List.nodup_append]
          refine ⟨hrows.1, List.nodup_singleton _, ?_⟩
          intro a ha b hb hab
          obtain ⟨row, hrow, rfl⟩ := List.mem_map.mp ha
          rw [List.map_singleton, List.mem_singleton] at hb
          exact hlive row hrow (hab.trans hb)
        · rcases List.mem_append.mp hrow with hrow | hrow
          · exact hold row hrow
          · obtain rfl := List.mem_singleton.mp hrow
            refine ⟨Nat.lt_succ_self _, fun reg hreg => ?_⟩
            have hself := Function.update_self w.uuids
              (some (⟨true, eventType, ns, filter.map w.filters⟩ : Registration μ θ δ)) w.live
            obtain rfl := Option.some.inj (hself.symm.trans hreg)
            exact rowOf_recorded eventType

end Steps

section Loading

theorem load_cache (rows : List (Row μ θ)) :
    (rows.map _rowToSubscription).foldl
      (fun cache sub => registerHeld filters cache sub.filter) cache = cache := by
  induction rows generalizing cache with
  | nil => rfl
  | cons row rows ih =>
    rw [List.map_cons, List.foldl_cons]
    have hrow : registerHeld filters cache (_rowToSubscription row : PersistentSubscription μ θ δ).filter =
        cache := by
      unfold _rowToSubscription
      cases row.filter <;> rfl
    rw [hrow]
    exact ih

theorem load_byId {rows : List (Row μ θ)} (hn : (rows.map (·.id)).Nodup) (i : ℕ) :
    ((rows.map _rowToSubscription).foldl _addPersistentInMemory
        (TwoIndex.empty : TwoIndex String ℕ (PersistentSubscription μ θ δ))).byId i =
      (rows.find? (fun row => row.id == i)).map _rowToSubscription := by
  have hids : ((rows.map _rowToSubscription).map
      (fun sub : PersistentSubscription μ θ δ => sub.id)).Nodup := by
    rwa [List.map_map]
  refine (TwoIndex.put_all_byId _ hids i).trans ?_
  rw [List.find?_map]
  exact Option.or_none

/-- What a reloadable registration gets back serves it. -/
theorem Recorded.serves {row : Row μ θ} {reg : Registration μ θ δ} (hr : Recorded row reg)
    (hf : ∀ f, reg.filter = some f → f.embedding = none ∧
      (f.namespaceId = none ∨ f.namespaceId = reg.namespaceId)) :
    Serves svc (_rowToSubscription row : PersistentSubscription μ θ δ).namespaceId
      ((_rowToSubscription row).filter.map (Held.read filters)) reg := by
  intro event
  simp only [_rowToSubscription, hr.filter, hr.namespaceId]
  cases hreg : reg.filter with
  | none => rfl
  | some f => exact deserialize_accepts (hf f hreg).1 (hf f hreg).2

theorem registrationOf_recorded {row : Row μ θ} (hp : row.paused = false) :
    Recorded row (registrationOf row : Registration μ θ δ) := by
  refine ⟨rfl, hp, rfl, rfl, ?_⟩
  rw [registrationOf]
  cases row.filter <;> rfl

theorem registrationOf_filter {row : Row μ θ} {f : SemanticFilter μ θ δ}
    (h : (registrationOf row).filter = some f) : f.embedding = none ∧
      (f.namespaceId = none ∨
        f.namespaceId = (registrationOf row : Registration μ θ δ).namespaceId) := by
  obtain ⟨raw, -, rfl⟩ := Option.map_eq_some_iff.mp h
  exact ⟨rfl, Or.inr rfl⟩

theorem loadPersistent_kept (hk : Kept svc w) (loaded : Bool)
    (hr : loaded = true → ∀ rows, w.subscriptionStore = some rows → Reloadable w rows) :
    Kept svc (loadPersistent loaded w) := by
  unfold loadPersistent
  split
  · rename_i rows hst
    have hrows := hk.rows rows hst
    have hload := hr rfl rows hst
    have hlt : ∀ i reg, w.live i = some reg → i < w.uuids := by
      intro i reg hreg
      by_contra hge
      rw [(hk.fresh i (not_lt.mp hge)).1] at hreg
      cases hreg
    have hmem : ∀ i row, rows.find? (fun row => row.id == i) = some row → row ∈ rows ∧ row.id = i :=
      fun i row hfind => ⟨List.mem_of_find?_eq_some hfind, by
        simpa using List.find?_some hfind⟩
    refine ⟨hk.subscriptions, TwoIndex.agree_put_all _ TwoIndex.agree_empty, fun i => ?_,
      fun h hm e he => ?_, fun i hi => ?_, fun rows' hrows' => ?_⟩
    · simp only [load_byId hrows.1]
      have hfits := hk.fits i
      have hrec := fun row hfind => (hrows.2 row (hmem i row hfind).1).2
      have hreload := fun reg hreg => hload i (hlt i reg hreg) reg hreg
      cases hfind : rows.find? (fun row => row.id == i) with
      | none =>
        simp only [Option.filter_none, Option.map_none, Option.or_none]
        generalize w.live i = live at hfits hreload
        generalize w.subscriptions.byId i = sub at hfits
        generalize w.persistent.byId i = per at hfits
        cases hfits with
        | absent => exact .absent
        | paused => exact .absent
        | callback reg sub hd he ht hs => exact .callback reg sub hd he ht hs
        | durable reg sub hd hp ht hs =>
          obtain ⟨⟨row, hrow, hid⟩, -⟩ := hreload reg rfl hd
          exact absurd hid (by simpa using List.find?_eq_none.mp hfind row hrow)
      | some row =>
        have hrec := hrec row hfind
        rw [(hmem i row hfind).2] at hrec
        have hrow : Fits svc w.filters
            (((some row).filter (fun row => !row.paused)).map registrationOf) none
            (some (_rowToSubscription row)) := by
          cases hp : row.paused with
          | true =>
            simp only [Option.filter, hp, Bool.not_true, Bool.false_eq_true, if_false,
              Option.map_none]
            exact .paused _ hp
          | false =>
            simp only [Option.filter, hp, Bool.not_false, if_true, Option.map_some]
            exact .durable _ _ rfl hp rfl
              ((registrationOf_recorded hp).serves (fun f hf => registrationOf_filter hf))
        generalize w.live i = live at hfits hreload hrec
        generalize w.subscriptions.byId i = sub at hfits
        generalize w.persistent.byId i = per at hfits
        cases hfits with
        | absent => exact hrow
        | paused => exact hrow
        | callback reg sub hd he ht hs =>
          have hdur := (hrec reg rfl).durable
          rw [hd] at hdur
          cases hdur
        | durable reg sub hd hp ht hs =>
          have hr := hrec reg rfl
          exact .durable reg _ hd hr.paused hr.eventType (hr.serves (hreload reg rfl hd).2)
    · simp only [load_cache]
      obtain ⟨j, hj | hj⟩ := hm
      · exact hk.cached h ⟨j, Or.inl hj⟩ e he
      · simp only [load_byId hrows.1] at hj
        obtain ⟨sub, hsub, hh⟩ := Option.bind_eq_some_iff.mp hj
        obtain ⟨row, -, rfl⟩ := Option.map_eq_some_iff.mp hsub
        obtain ⟨raw, -, rfl⟩ := Option.map_eq_some_iff.mp hh
        cases he
    · have hnone : rows.find? (fun row => row.id == i) = none := by
        rw [List.find?_eq_none]
        intro row hrow
        simpa using Nat.ne_of_lt ((hrows.2 row hrow).1.trans_le hi)
      simp only [load_byId hrows.1, hnone, (hk.fresh i hi).1]
      exact ⟨rfl, rfl⟩
    · obtain rfl := Option.some.inj (hst.symm.trans hrows')
      refine ⟨hrows.1, fun row hrow => ⟨(hrows.2 row hrow).1, fun reg hreg => ?_⟩⟩
      rcases Option.or_eq_some_iff.mp hreg with hreg | ⟨-, hreg⟩
      · exact (hrows.2 row hrow).2 reg hreg
      · obtain ⟨row', hfind, rfl⟩ := Option.map_eq_some_iff.mp hreg
        obtain ⟨hfind, hp⟩ := Option.filter_eq_some_iff.mp hfind
        obtain ⟨hrow', hid⟩ := hmem _ row' hfind
        obtain rfl := List.inj_on_of_nodup_map hrows.1 hrow' hrow hid
        exact registrationOf_recorded (by simpa using hp)
  · exact hk

end Loading

section Runs

theorem start_kept (s : Start μ θ δ) : Kept svc s.world where
  subscriptions := TwoIndex.agree_empty
  persistent := TwoIndex.agree_empty
  fits := fun _ => .absent
  cached := by
    rintro h ⟨i, hi | hi⟩ <;> cases hi
  fresh := fun _ _ => ⟨rfl, rfl⟩
  rows := by
    intro rows hrows
    refine ⟨s.nodup rows hrows, fun row hrow => ⟨s.fresh rows hrows row hrow, fun reg hreg => ?_⟩⟩
    cases hreg

theorem step_kept (hk : Kept svc w) {e : Event} (hm : Harmless w e) {w' : World μ θ δ}
    (h : step svc w e = some w') : Kept svc w' := by
  cases e with
  | subscribe eventType filter ns =>
    obtain rfl := Option.some.inj h
    exact subscribe_kept hk hm.1 hm.2 eventType
  | unsubscribe id =>
    obtain rfl := Option.some.inj h
    exact unsubscribe_kept hk id
  | registerPersistent eventType filter ns persisted =>
    obtain rfl := Option.some.inj h
    exact registerPersistent_kept hk hm.1 hm.2 eventType persisted
  | loadPersistent loaded =>
    obtain rfl := Option.some.inj h
    exact loadPersistent_kept hk loaded hm

instance (w : World μ θ δ) (filter ns : Option ℕ) : Decidable (Foldable w filter ns) :=
  inferInstanceAs (Decidable (∀ r, filter = some r → ∀ n, ns = some n →
    (w.filters r).namespaceId = some n ∨
      ((w.filters r).namespaceId = none ∧ ∀ h ∈ heldInMemory w, h.shares r = false)))

instance [DecidableEq δ] (w : World μ θ δ) (filter : Option ℕ) : Decidable (Cacheable w filter) :=
  inferInstanceAs (Decidable (∀ r, filter = some r → ∀ e, (w.filters r).embedding = some e →
    ∀ h ∈ heldInMemory w, (h.read w.filters).id = (w.filters r).id →
      ∀ e', (h.read w.filters).embedding = some e' → e = e'))

instance (w : World μ θ δ) (rows : List (Row μ θ)) : Decidable (Reloadable w rows) :=
  inferInstanceAs (Decidable (∀ i < w.uuids, ∀ reg, w.live i = some reg → reg.durable = true →
    (∃ row ∈ rows, row.id = i) ∧ ∀ f, reg.filter = some f → f.embedding = none ∧
      (f.namespaceId = none ∨ f.namespaceId = reg.namespaceId)))

instance [DecidableEq δ] (w : World μ θ δ) : ∀ e, Decidable (Harmless w e)
  | .subscribe _ filter ns | .registerPersistent _ filter ns _ =>
    inferInstanceAs (Decidable (Foldable w filter ns ∧ Cacheable w filter))
  | .unsubscribe _ => isTrue trivial
  | .loadPersistent loaded =>
    inferInstanceAs (Decidable (loaded = true →
      ∀ rows, w.subscriptionStore = some rows → Reloadable w rows))

/-- Services over one-point patterns and payloads, with vectors and thresholds as
numbers. -/
def plainServices : Services Unit ℕ ℕ Unit where
  matchesPattern := fun _ _ => true
  half := 50
  disabled := fun t => t == 0
  dims := fun _ => 1
  near := fun _ _ => true
  similar := fun _ e f => e == f
  llmEvaluationEnabled := false
  evaluate := fun _ _ => true

/-- The caller has a filter object for each number; the third comes with a scope
of its own. -/
def twoTenants : Start Unit ℕ ℕ where
  filters := fun r => { namespaceFilter plainServices (100+r) 0 with
    namespaceId := if r = 3 then some 1 else none }
  rows := some []
  uuids := 0
  nodup := by
    rintro rs hrs
    obtain rfl := Option.some.inj hrs
    exact List.nodup_nil
  fresh := by
    rintro rs hrs row hrow
    obtain rfl := Option.some.inj hrs
    cases hrow

def createdIn (n : ℕ) : MemoryEvent ℕ Unit where
  eventType := "entity.created"
  namespaceId := n
  resourceType := "entity"
  entityType := ""
  relationshipType := ""
  opType := ""
  decision := ""
  embedding := none
  data := ()

def delivered (es : List Event) (n : ℕ) : Option (List ℕ) :=
  (Machine.run (step plainServices) twoTenants.world es).map
    (fun w => dispatch plainServices w (createdIn n))

end Runs

end Uru.Hooks
