import Mathlib.Algebra.Order.Ring.Rat
import Mathlib.Data.List.Pairwise
import Mathlib.Tactic
import Uru.Lib.Machine

/-!
# Shared entity searches

Concurrent searches for one namespace and one embedding share a task. The first
of them starts it, with its own floor and at least twenty as its limit; the
others wait for it and cut its result to their own limit. Cancelling a caller
that waits cancels the task. A task leaves the cache when it is done, and a
failed or cancelled one that is still there is replaced. The embedding stands
for the digest that the cache is keyed by.
-/

set_option autoImplicit false

namespace Uru.Query.EntitySearch
open Uru.Lib

variable {E : Type} [DecidableEq E]

abbrev Scored := ℕ × ℚ

/-- The entities of a namespace with their similarities to an embedding, the
most similar ones first. -/
structure Storage (E : Type) where
  ranking : ℕ → E → List Scored
  sorted : ∀ namespaceId embedding,
    (ranking namespaceId embedding).Pairwise (fun a b => b.2 ≤ a.2)

structure Call (E : Type) where
  namespaceId : ℕ
  queryEmbedding : E
  limit : ℕ
  minSimilarity : ℚ

def searchSimilarEntities (storage : Storage E) (call : Call E) (limit : ℕ) : List Scored :=
  ((storage.ranking call.namespaceId call.queryEmbedding).filter
    (fun e => call.minSimilarity ≤ e.2)).take limit

def direct (storage : Storage E) (call : Call E) : List Scored :=
  searchSimilarEntities storage call call.limit

inductive Outcome
  | results (entities : List Scored)
  | failed
  | cancelled
deriving DecidableEq

inductive Status
  | running
  | cancelling
  | done (outcome : Outcome)
deriving DecidableEq

/-- A task keeps the call that has started it. -/
structure SearchTask (E : Type) where
  call : Call E
  status : Status

/-- `mustCancel` says that a caller is cancelled after its task is done. -/
inductive Phase
  | idle
  | waiting (task : ℕ) (mustCancel : Bool)
  | ended (task : Option ℕ) (outcome : Outcome)
deriving DecidableEq

/-- `cancelled` says that the caller of the call has cancelled it. -/
structure Caller where
  phase : Phase
  cancelled : Bool

structure State (E : Type) where
  tasks : List (SearchTask E)
  cache : ℕ → E → Option ℕ
  callers : ℕ → Caller

def initial : State E := ⟨[],fun _ _ => none,fun _ => ⟨.idle,false⟩⟩

def setCaller (s : State E) (i : ℕ) (c : Caller) : State E :=
  { s with callers := Function.update s.callers i c }

def setCache (s : State E) (call : Call E) (entry : Option ℕ) : State E :=
  let row := Function.update (s.cache call.namespaceId) call.queryEmbedding entry
  { s with cache := Function.update s.cache call.namespaceId row }

def setStatus (s : State E) (t : ℕ) (status : Status) : State E :=
  { s with tasks := s.tasks.modify t (fun task => { task with status := status }) }

/-- The task that a call finds in the cache and can wait for: one that is not
done, or done with results. -/
def usable (s : State E) (call : Call E) : Option (ℕ × SearchTask E) :=
  match s.cache call.namespaceId call.queryEmbedding with
  | none => none
  | some t =>
    match s.tasks[t]? with
    | none => none
    | some task =>
      match task.status with
      | .done .failed => none
      | .done .cancelled => none
      | _ => some (t,task)

def issued (call : Call E) : Call E := { call with limit := max call.limit 20 }

def limited (call : Call E) : Outcome → Outcome
  | .results entities => .results (entities.take call.limit)
  | outcome => outcome

inductive Event
  | start (i : ℕ)
  | cancel (i : ℕ)
  | finish (t : ℕ) (outcome : Outcome)
  | evict (t : ℕ)
  | resume (i : ℕ)

/-- A call up to where it waits. A task that is done is not waited for. -/
def start (calls : ℕ → Call E) (s : State E) (i : ℕ) : State E :=
  match usable s (calls i) with
  | some (t,task) =>
    match task.status with
    | .done outcome =>
      setCaller s i ⟨.ended (some t) (limited (calls i) outcome),(s.callers i).cancelled⟩
    | _ => setCaller s i ⟨.waiting t false,(s.callers i).cancelled⟩
  | none =>
    setCaller (setCache { s with tasks := s.tasks++[⟨issued (calls i),.running⟩] } (calls i)
      (some s.tasks.length)) i ⟨.waiting s.tasks.length false,(s.callers i).cancelled⟩

def cancel (s : State E) (i : ℕ) : Option (State E) :=
  match (s.callers i).phase with
  | .idle => some (setCaller s i ⟨.ended none .cancelled,true⟩)
  | .ended _ _ => none
  | .waiting t mustCancel =>
    match s.tasks[t]? with
    | none => none
    | some task =>
      match task.status with
      | .done _ => some (setCaller s i ⟨.waiting t true,true⟩)
      | _ => some (setStatus (setCaller s i ⟨.waiting t mustCancel,true⟩) t .cancelling)

/-- The storage answers a running task with the results of its call or fails; a
task that is being cancelled may also end as cancelled. -/
def finish (storage : Storage E) (s : State E) (t : ℕ) (outcome : Outcome) : Option (State E) :=
  match s.tasks[t]? with
  | none => none
  | some task =>
    let answer := Outcome.results (searchSimilarEntities storage task.call task.call.limit)
    match task.status with
    | .done _ => none
    | .running =>
      if outcome = answer ∨ outcome = .failed then some (setStatus s t (.done outcome)) else none
    | .cancelling =>
      if outcome = answer ∨ outcome = .failed ∨ outcome = .cancelled then
        some (setStatus s t (.done outcome))
      else none

def evict (s : State E) (t : ℕ) : Option (State E) :=
  match s.tasks[t]? with
  | none => none
  | some task =>
    match task.status with
    | .done _ =>
      if s.cache task.call.namespaceId task.call.queryEmbedding = some t then
        some (setCache s task.call none)
      else some s
    | _ => none

def resume (calls : ℕ → Call E) (s : State E) (i : ℕ) : Option (State E) :=
  match (s.callers i).phase with
  | .waiting t mustCancel =>
    match s.tasks[t]? with
    | none => none
    | some task =>
      match task.status with
      | .done outcome =>
        let result := if mustCancel = true then .cancelled else limited (calls i) outcome
        some (setCaller s i ⟨.ended (some t) result,(s.callers i).cancelled⟩)
      | _ => none
  | _ => none

def step (storage : Storage E) (calls : ℕ → Call E) (s : State E) : Event → Option (State E)
  | .start i => if (s.callers i).phase = .idle then some (start calls s i) else none
  | .cancel i => cancel s i
  | .finish t outcome => finish storage s t outcome
  | .evict t => evict s t
  | .resume i => resume calls s i

/-- How many entities are at or above the floor of a call. -/
def above (storage : Storage E) (call : Call E) : ℕ :=
  ((storage.ranking call.namespaceId call.queryEmbedding).filter
    (fun e => call.minSimilarity ≤ e.2)).length

/-- The search of the first call finds as many entities for the second one as
its own search would: within both limits, above either floor. -/
def Covers (storage : Storage E) (started call : Call E) : Prop :=
  min (min (above storage started) started.limit) call.limit = min (above storage call) call.limit

theorem filter_floor {l : List Scored} (h : l.Pairwise (fun a b => b.2 ≤ a.2)) (floor : ℚ) :
    l.filter (fun e => floor ≤ e.2) = l.take (l.filter (fun e => floor ≤ e.2)).length := by
  induction l with
  | nil => rfl
  | cons e l ih =>
    obtain ⟨he, hl⟩ := List.pairwise_cons.mp h
    by_cases hfloor : floor ≤ e.2
    · rw [List.filter_cons_of_pos (by simpa using hfloor), List.length_cons, List.take_succ_cons,
        ← ih hl]
    · have hnone : l.filter (fun e => floor ≤ e.2) = [] := by
        refine List.filter_eq_nil_iff.mpr (fun e' he' => ?_)
        simpa using (he e' he').trans_lt (not_le.mp hfloor)
      rw [List.filter_cons_of_neg (by simpa using hfloor), hnone]
      rfl

omit [DecidableEq E] in
/-- The shared result cut to the limit of a call is that of its own search
exactly when the search covers it. -/
theorem covers_iff (storage : Storage E) {started call : Call E}
    (hnamespace : started.namespaceId = call.namespaceId)
    (hembedding : started.queryEmbedding = call.queryEmbedding) :
    (searchSimilarEntities storage started started.limit).take call.limit = direct storage call ↔
      Covers storage started call := by
  have hsorted := storage.sorted call.namespaceId call.queryEmbedding
  have habove : ∀ floor, ((storage.ranking call.namespaceId call.queryEmbedding).filter
      (fun e => floor ≤ e.2)).length ≤
        (storage.ranking call.namespaceId call.queryEmbedding).length :=
    fun floor => List.length_filter_le _ _
  rw [direct, searchSimilarEntities, searchSimilarEntities, Covers, above, above, hnamespace,
    hembedding, filter_floor hsorted started.minSimilarity,
    filter_floor hsorted call.minSimilarity]
  simp only [List.take_take, List.length_take]
  have hstarted := habove started.minSimilarity
  have hcall := habove call.minSimilarity
  constructor
  · intro h
    have hlength := congrArg List.length h
    simp only [List.length_take] at hlength
    omega
  · intro h
    congr 1
    omega

/-- What a caller that is not cancelled may end with: the result of its own
search, or a failure of the search that it waited for. -/
def Settled (storage : Storage E) (calls : ℕ → Call E) (s : State E) (i : ℕ) : Prop :=
  ∀ t outcome, (s.callers i).cancelled = false → (s.callers i).phase = .ended t outcome →
    outcome = .results (direct storage (calls i)) ∨
      outcome = .failed ∧ ∃ t' task, t = some t' ∧ s.tasks[t']? = some task ∧
        task.status = .done .failed

/-- A call joins no task that is being cancelled or that does not cover it, and
no caller is cancelled while another one waits for its running task. -/
def Apart (storage : Storage E) (calls : ℕ → Call E) (s : State E) : Event → Prop
  | .start i => ∀ t task, usable s (calls i) = some (t,task) →
    task.status ≠ .cancelling ∧ Covers storage task.call (calls i)
  | .cancel i => ∀ t b task, (s.callers i).phase = .waiting t b → s.tasks[t]? = some task →
    (∀ outcome, task.status ≠ .done outcome) → ∀ j ≠ i, (s.callers j).cancelled = false →
      ∀ b', (s.callers j).phase ≠ .waiting t b'
  | _ => True

structure Fits (storage : Storage E) (call : Call E) (task : SearchTask E) : Prop where
  namespaceId : task.call.namespaceId = call.namespaceId
  embedding : task.call.queryEmbedding = call.queryEmbedding
  covers : Covers storage task.call call
  uncancelled : task.status ≠ .cancelling ∧ task.status ≠ .done .cancelled

structure Inv (storage : Storage E) (calls : ℕ → Call E) (s : State E) : Prop where
  waits : ∀ i t b, (s.callers i).cancelled = false → (s.callers i).phase = .waiting t b →
    b = false ∧ ∃ task, s.tasks[t]? = some task ∧ Fits storage (calls i) task
  answers : ∀ (t : ℕ) (task : SearchTask E) (entities : List Scored), s.tasks[t]? = some task →
    task.status = .done (.results entities) →
      entities = searchSimilarEntities storage task.call task.call.limit
  cached : ∀ namespaceId embedding t, s.cache namespaceId embedding = some t →
    ∃ task, s.tasks[t]? = some task ∧ task.call.namespaceId = namespaceId ∧
      task.call.queryEmbedding = embedding
  settled : ∀ i, Settled storage calls s i

section Run

variable {storage : Storage E} {calls : ℕ → Call E} {s s' : State E}

omit [DecidableEq E] in
theorem initial_inv : Inv storage calls (initial : State E) where
  waits _ _ _ _ h := nomatch h
  answers _ _ _ h := nomatch h
  cached _ _ _ h := nomatch h
  settled _ _ _ _ h := nomatch h

omit [DecidableEq E] in
/-- What a fitting task that is done hands on. -/
theorem limited_fits {call : Call E} {task : SearchTask E} {outcome : Outcome} (h : Fits storage call task)
    (hdone : task.status = .done outcome) (hanswer : ∀ entities, outcome = .results entities →
      entities = searchSimilarEntities storage task.call task.call.limit) :
    limited call outcome = .results (direct storage call) ∨
      limited call outcome = .failed ∧ outcome = .failed := by
  cases outcome with
  | results entities =>
    left
    rw [limited, hanswer entities rfl, (covers_iff storage h.namespaceId h.embedding).mpr h.covers]
  | failed => exact Or.inr ⟨rfl, rfl⟩
  | cancelled => exact absurd hdone h.uncancelled.2

omit [DecidableEq E] in
/-- A caller changes, the tasks and the cache stay. -/
theorem setCaller_inv (h : Inv storage calls s) (i : ℕ) (c : Caller)
    (hwaits : ∀ t b, c.cancelled = false → c.phase = .waiting t b →
      b = false ∧ ∃ task, s.tasks[t]? = some task ∧ Fits storage (calls i) task)
    (hsettled : ∀ t outcome, c.cancelled = false → c.phase = .ended t outcome →
      outcome = .results (direct storage (calls i)) ∨
        outcome = .failed ∧ ∃ t' task, t = some t' ∧ s.tasks[t']? = some task ∧
          task.status = .done .failed) : Inv storage calls (setCaller s i c) where
  waits j t b hj hphase := by
    by_cases he : j = i
    · subst he
      simp only [setCaller, Function.update_self] at hj hphase
      exact hwaits t b hj hphase
    · simp only [setCaller, Function.update_of_ne he] at hj hphase
      exact h.waits j t b hj hphase
  answers := h.answers
  cached := h.cached
  settled j t outcome hj hphase := by
    by_cases he : j = i
    · subst he
      simp only [setCaller, Function.update_self] at hj hphase
      exact hsettled t outcome hj hphase
    · simp only [setCaller, Function.update_of_ne he] at hj hphase
      exact h.settled j t outcome hj hphase

omit [DecidableEq E] in
theorem usable_cached {call : Call E} {t : ℕ} {task : SearchTask E}
    (h : usable s call = some (t,task)) :
    s.cache call.namespaceId call.queryEmbedding = some t ∧ s.tasks[t]? = some task ∧
      task.status ≠ .done .failed ∧ task.status ≠ .done .cancelled := by
  unfold usable at h
  rcases hcache : s.cache call.namespaceId call.queryEmbedding with _ | t'
  · rw [hcache] at h
    cases h
  · rw [hcache] at h
    rcases htask : s.tasks[t']? with _ | task'
    · simp only [htask] at h
      cases h
    · simp only [htask] at h
      split at h
      · cases h
      · cases h
      · rename_i hfailed hcancelled
        rw [Option.some.injEq, Prod.mk.injEq] at h
        obtain ⟨rfl, rfl⟩ := h
        exact ⟨rfl, htask, hfailed, hcancelled⟩

theorem getElem?_snoc {α : Type} {l : List α} {x y : α} {t : ℕ} :
    (l++[x])[t]? = some y ↔ l[t]? = some y ∨ t = l.length ∧ x = y := by
  rcases Nat.lt_or_ge t l.length with hlt | hge
  · rw [List.getElem?_append_left hlt]
    exact ⟨Or.inl, fun h => h.elim id (fun h => absurd h.1 hlt.ne)⟩
  · rw [List.getElem?_append_right hge, List.getElem?_eq_none hge]
    rcases hge.eq_or_lt with rfl | hgt
    · simp
    · have hout : [x][t-l.length]? = none := List.getElem?_eq_none (by simp; omega)
      rw [hout]
      exact ⟨fun h => (nomatch h), fun h => h.elim (fun h => (nomatch h)) (fun h => by omega)⟩

omit [DecidableEq E] in
theorem issued_fits (call : Call E) : Fits storage call ⟨issued call,.running⟩ where
  namespaceId := rfl
  embedding := rfl
  covers := by
    have hsame : above storage (issued call) = above storage call := rfl
    rw [Covers, hsame, issued]
    simp only
    omega
  uncancelled := ⟨fun h => (nomatch h), fun h => (nomatch h)⟩

/-- A call either waits for a task of its own or for one that fits. -/
theorem start_inv (h : Inv storage calls s) {i : ℕ} (hok : Apart storage calls s (.start i)) :
    Inv storage calls (start calls s i) := by
  unfold start
  rcases husable : usable s (calls i) with _ | ⟨t, task⟩
  · refine setCaller_inv ⟨?_, ?_, ?_, ?_⟩ i _ ?_ (fun t outcome _ hphase => nomatch hphase)
    · intro j t b hj hphase
      obtain ⟨hb, task, htask, hfits⟩ := h.waits j t b hj hphase
      exact ⟨hb, task, getElem?_snoc.mpr (Or.inl htask), hfits⟩
    · intro t task entities htask hdone
      rcases getElem?_snoc.mp htask with htask | ⟨_, rfl⟩
      · exact h.answers t task entities htask hdone
      · cases hdone
    · intro namespaceId embedding t hcache
      simp only [setCache] at hcache ⊢
      by_cases hn : namespaceId = (calls i).namespaceId
      · subst hn
        rw [Function.update_self] at hcache
        by_cases he : embedding = (calls i).queryEmbedding
        · subst he
          rw [Function.update_self, Option.some.injEq] at hcache
          exact ⟨_, getElem?_snoc.mpr (Or.inr ⟨hcache.symm, rfl⟩), rfl, rfl⟩
        · rw [Function.update_of_ne he] at hcache
          obtain ⟨task, htask, hown⟩ := h.cached _ _ t hcache
          exact ⟨task, getElem?_snoc.mpr (Or.inl htask), hown⟩
      · rw [Function.update_of_ne hn] at hcache
        obtain ⟨task, htask, hown⟩ := h.cached _ _ t hcache
        exact ⟨task, getElem?_snoc.mpr (Or.inl htask), hown⟩
    · intro j t outcome hj hphase
      rcases h.settled j t outcome hj hphase with hresult | ⟨hfail, t', task, rfl, htask, hdone⟩
      · exact Or.inl hresult
      · exact Or.inr ⟨hfail, t', task, rfl, getElem?_snoc.mpr (Or.inl htask), hdone⟩
    · intro t b _ hphase
      rw [Phase.waiting.injEq] at hphase
      exact ⟨hphase.2.symm, _, getElem?_snoc.mpr (Or.inr ⟨hphase.1.symm, rfl⟩),
        issued_fits (calls i)⟩
  · obtain ⟨hcache, htask, hfailed, hcancelled⟩ := usable_cached husable
    obtain ⟨hcancelling, hcovers⟩ := hok t task husable
    obtain ⟨task', htask', hnamespace, hembedding⟩ := h.cached _ _ t hcache
    rw [htask, Option.some.injEq] at htask'
    subst htask'
    have hfits : Fits storage (calls i) task :=
      ⟨hnamespace, hembedding, hcovers, hcancelling, hcancelled⟩
    have hwaits : Inv storage calls (setCaller s i ⟨.waiting t false,(s.callers i).cancelled⟩) := by
      refine setCaller_inv h i _ (fun t' b _ hphase => ?_) (fun t outcome _ hphase => nomatch hphase)
      rw [Phase.waiting.injEq] at hphase
      exact ⟨hphase.2.symm, task, hphase.1 ▸ htask, hfits⟩
    simp only
    split
    · rename_i outcome hdone
      refine setCaller_inv h i _ (fun t b _ hphase => nomatch hphase) (fun t' o _ hphase => ?_)
      rw [Phase.ended.injEq] at hphase
      obtain ⟨rfl, rfl⟩ := hphase
      rcases limited_fits hfits hdone (fun entities he => h.answers t task entities htask
        (he ▸ hdone)) with hresult | ⟨hlimited, hout⟩
      · exact Or.inl hresult
      · exact absurd (hout ▸ hdone) hfailed
    · exact hwaits

omit [DecidableEq E] in
/-- A task that is not done takes on another status. -/
theorem setStatus_inv (h : Inv storage calls s) {t : ℕ} {task : SearchTask E} {status : Status}
    (htask : s.tasks[t]? = some task) (hopen : ∀ outcome, task.status ≠ .done outcome)
    (hfits : ∀ i b, (s.callers i).cancelled = false → (s.callers i).phase = .waiting t b →
      status ≠ .cancelling ∧ status ≠ .done .cancelled)
    (hanswer : ∀ entities, status = .done (.results entities) →
      entities = searchSimilarEntities storage task.call task.call.limit) :
    Inv storage calls (setStatus s t status) := by
  have hget : ∀ {u : ℕ} {task' : SearchTask E}, s.tasks[u]? = some task' →
      (setStatus s t status).tasks[u]? =
        some (if u = t then { task' with status := status } else task') := by
    intro u task' hu
    rw [setStatus, List.getElem?_modify, hu]
    by_cases hut : u = t
    · subst hut
      simp
    · simp [hut, Ne.symm hut]
  have hback : ∀ {u : ℕ} {task' : SearchTask E}, (setStatus s t status).tasks[u]? = some task' →
      ∃ task₀, s.tasks[u]? = some task₀ ∧
        task' = if u = t then { task₀ with status := status } else task₀ := by
    intro u task' hu
    rcases hold : s.tasks[u]? with _ | task₀
    · rw [setStatus, List.getElem?_modify, hold] at hu
      cases hu
    · rw [hget hold, Option.some.injEq] at hu
      exact ⟨task₀, rfl, hu.symm⟩
  refine ⟨fun i u b hi hphase => ?_, fun u task' entities hu hdone => ?_,
    fun namespaceId embedding u hcache => ?_, fun i u outcome hi hphase => ?_⟩
  · obtain ⟨hb, task', htask', hfit⟩ := h.waits i u b hi hphase
    refine ⟨hb, _, hget htask', ?_⟩
    by_cases hu : u = t
    · subst hu
      rw [if_pos rfl]
      exact ⟨hfit.namespaceId, hfit.embedding, hfit.covers, hfits i b hi hphase⟩
    · rw [if_neg hu]
      exact hfit
  · obtain ⟨task₀, htask₀, rfl⟩ := hback hu
    by_cases hut : u = t
    · subst hut
      rw [htask, Option.some.injEq] at htask₀
      subst htask₀
      rw [if_pos rfl] at hdone ⊢
      exact hanswer entities hdone
    · rw [if_neg hut] at hdone ⊢
      exact h.answers u task₀ entities htask₀ hdone
  · obtain ⟨task', htask', hown⟩ := h.cached namespaceId embedding u hcache
    refine ⟨_, hget htask', ?_⟩
    split_ifs
    · exact hown
    · exact hown
  · rcases h.settled i u outcome hi hphase with hresult | ⟨hfail, t', task', rfl, htask', hdone⟩
    · exact Or.inl hresult
    · refine Or.inr ⟨hfail, t', task', rfl, ?_, hdone⟩
      have hne : t' ≠ t := by
        rintro rfl
        rw [htask, Option.some.injEq] at htask'
        exact hopen _ (htask' ▸ hdone)
      rw [hget htask', if_neg hne]

omit [DecidableEq E] in
theorem set_cancelled_inv (h : Inv storage calls s) (i : ℕ) (phase : Phase) :
    Inv storage calls (setCaller s i ⟨phase,true⟩) :=
  setCaller_inv h i _ (fun _ _ hc => nomatch hc) (fun _ _ hc => nomatch hc)

omit [DecidableEq E] in
theorem cancel_inv (h : Inv storage calls s) {i : ℕ} (hok : Apart storage calls s (.cancel i))
    (hstep : cancel s i = some s') : Inv storage calls s' := by
  unfold cancel at hstep
  split at hstep
  · obtain rfl := Option.some.inj hstep
    exact set_cancelled_inv h i _
  · cases hstep
  · rename_i t mustCancel hphase
    rcases htask : s.tasks[t]? with _ | task
    · simp only [htask] at hstep
      cases hstep
    · simp only [htask] at hstep
      split at hstep
      · obtain rfl := Option.some.inj hstep
        exact set_cancelled_inv h i _
      · rename_i hopen
        obtain rfl := Option.some.inj hstep
        refine setStatus_inv (set_cancelled_inv h i _) htask hopen (fun j b hj hwait => ?_)
          (fun entities he => nomatch he)
        by_cases hji : j = i
        · subst hji
          simp only [setCaller, Function.update_self] at hj
          cases hj
        · simp only [setCaller, Function.update_of_ne hji] at hj hwait
          exact absurd hwait (hok t mustCancel task hphase htask hopen j hji hj b)

omit [DecidableEq E] in
theorem finish_inv (h : Inv storage calls s) {t : ℕ} {outcome : Outcome}
    (hstep : finish storage s t outcome = some s') : Inv storage calls s' := by
  unfold finish at hstep
  rcases htask : s.tasks[t]? with _ | task
  · simp only [htask] at hstep
    cases hstep
  · simp only [htask] at hstep
    have hresults : ∀ entities, Status.done outcome = .done (.results entities) →
        (outcome = .results (searchSimilarEntities storage task.call task.call.limit) ∨
          outcome = .failed ∨ outcome = .cancelled) →
        entities = searchSimilarEntities storage task.call task.call.limit := by
      rintro entities he (rfl | rfl | rfl)
      · rw [Status.done.injEq, Outcome.results.injEq] at he
        exact he.symm
      · cases he
      · cases he
    split at hstep
    · cases hstep
    · rename_i hrunning
      split_ifs at hstep with hout
      obtain rfl := Option.some.inj hstep
      refine setStatus_inv h htask (fun o ho => ?_) (fun i b hi hwait => ⟨fun hc => (nomatch hc), ?_⟩)
        (fun entities he => hresults entities he (hout.imp_right Or.inl))
      · rw [hrunning] at ho
        cases ho
      · rintro hc
        rw [Status.done.injEq] at hc
        subst hc
        rcases hout with hout | hout
        · cases hout
        · cases hout
    · rename_i hcancelling
      split_ifs at hstep with hout
      obtain rfl := Option.some.inj hstep
      refine setStatus_inv h htask (fun o ho => ?_) (fun i b hi hwait => ?_)
        (fun entities he => hresults entities he hout)
      · rw [hcancelling] at ho
        cases ho
      · obtain ⟨_, task', htask', hfit⟩ := h.waits i t b hi hwait
        rw [htask, Option.some.injEq] at htask'
        exact absurd hcancelling (htask' ▸ hfit.uncancelled.1)

theorem evict_inv (h : Inv storage calls s) {t : ℕ} (hstep : evict s t = some s') :
    Inv storage calls s' := by
  unfold evict at hstep
  rcases htask : s.tasks[t]? with _ | task
  · simp only [htask] at hstep
    cases hstep
  · simp only [htask] at hstep
    split at hstep
    · split_ifs at hstep
      · obtain rfl := Option.some.inj hstep
        refine ⟨h.waits, h.answers, fun namespaceId embedding u hcache => ?_, h.settled⟩
        simp only [setCache] at hcache
        by_cases hn : namespaceId = task.call.namespaceId
        · subst hn
          rw [Function.update_self] at hcache
          by_cases he : embedding = task.call.queryEmbedding
          · subst he
            rw [Function.update_self] at hcache
            cases hcache
          · rw [Function.update_of_ne he] at hcache
            exact h.cached _ _ u hcache
        · rw [Function.update_of_ne hn] at hcache
          exact h.cached _ _ u hcache
      · obtain rfl := Option.some.inj hstep
        exact h
    · cases hstep

omit [DecidableEq E] in
theorem resume_inv (h : Inv storage calls s) {i : ℕ} (hstep : resume calls s i = some s') :
    Inv storage calls s' := by
  unfold resume at hstep
  split at hstep
  · rename_i t mustCancel hphase
    rcases htask : s.tasks[t]? with _ | task
    · simp only [htask] at hstep
      cases hstep
    · simp only [htask] at hstep
      split at hstep
      · rename_i outcome hdone
        obtain rfl := Option.some.inj hstep
        refine setCaller_inv h i _ (fun _ _ _ hwait => nomatch hwait) (fun u o hi hended => ?_)
        obtain ⟨rfl, task', htask', hfit⟩ := h.waits i t mustCancel hi hphase
        rw [htask, Option.some.injEq] at htask'
        subst htask'
        simp only [Bool.false_eq_true, if_false, Phase.ended.injEq] at hended
        obtain ⟨rfl, rfl⟩ := hended
        rcases limited_fits hfit hdone (fun entities he => h.answers t task entities htask
          (he ▸ hdone)) with hresult | ⟨hlimited, hout⟩
        · exact Or.inl hresult
        · exact Or.inr ⟨hlimited, t, task, rfl, htask, hout ▸ hdone⟩
      · cases hstep
  · cases hstep

theorem step_inv (h : Inv storage calls s) {e : Event} (hok : Apart storage calls s e)
    (hstep : step storage calls s e = some s') : Inv storage calls s' := by
  cases e with
  | start i =>
    simp only [step] at hstep
    split_ifs at hstep
    obtain rfl := Option.some.inj hstep
    exact start_inv h hok
  | cancel i => exact cancel_inv h hok hstep
  | finish t outcome => exact finish_inv h hstep
  | evict t => exact evict_inv h hstep
  | resume i => exact resume_inv h hstep

end Run

/-- In every run in which no call joins a task that is being cancelled or does
not cover it, and no caller is cancelled while another one waits for its running
task, each call that is not cancelled ends with the result of its own search or
with the failure of the search that it waited for. -/
theorem shared_searches (storage : Storage E) (calls : ℕ → Call E) (events : List Event)
    (hok : Machine.Meets (step storage calls) (Apart storage calls) initial events) :
    Machine.Always (step storage calls) (fun s => ∀ i, Settled storage calls s i) initial events :=
  Machine.always_of_invariant (fun _ _ _ hinv hok hstep => step_inv hinv hok hstep)
    (fun _ hinv => hinv.settled) events initial initial_inv hok

namespace Shared

def storage : Storage ℕ where
  ranking _ _ := [(7,3/4),(8,1/4)]
  sorted _ _ := by
    simp only [List.pairwise_cons, List.mem_singleton, forall_eq, List.not_mem_nil,
      false_imp_iff, implies_true, List.Pairwise.nil, and_true]
    norm_num

def calls : ℕ → Call ℕ
  | 0 => ⟨0,0,10,1/2⟩
  | _ => ⟨0,0,10,0⟩

/-- A caller that is cancelled takes the other one with it, and the floor of the
first caller is that of the second one. -/
theorem not_transparent :
    (Machine.run (step storage calls) initial
      [.start 0,.start 1,.cancel 0,.finish 0 .cancelled,.resume 1]).map
        (fun s => ((s.callers 1).cancelled,(s.callers 1).phase)) =
      some (false,.ended (some 0) .cancelled) ∧
    (Machine.run (step storage calls) initial
      [.start 0,.start 1,.finish 0 (.results [(7,3/4)]),.resume 1]).map
        (fun s => ((s.callers 1).cancelled,(s.callers 1).phase)) =
      some (false,.ended (some 0) (.results [(7,3/4)])) ∧
    direct storage (calls 1) = [(7,3/4),(8,1/4)] := by
  refine ⟨?_, ?_, ?_⟩
  · decide +kernel
  · decide +kernel
  · decide +kernel

/-- The second caller has a lower limit and a higher floor, between the same entities. -/
def narrower : ℕ → Call ℕ
  | 0 => ⟨0,0,10,1/2⟩
  | _ => ⟨0,0,5,2/3⟩

theorem narrower_settled :
    (Machine.run (step storage narrower) initial
      [.start 0,.start 1,.finish 0 (.results [(7,3/4)]),.resume 1,.resume 0]).map
        (fun s => ((s.callers 0).phase,(s.callers 1).phase)) =
      some (.ended (some 0) (.results [(7,3/4)]),.ended (some 0) (.results [(7,3/4)])) ∧
    Machine.Always (step storage narrower) (fun s => ∀ i, Settled storage narrower s i) initial
      [.start 0,.start 1,.finish 0 (.results [(7,3/4)]),.resume 1,.resume 0] := by
  refine ⟨by decide +kernel, shared_searches storage narrower _
    ⟨fun t task h => (nomatch h), fun s hs => ?_⟩⟩
  obtain rfl := Option.some.inj hs
  refine ⟨fun t task h => ?_, fun _ _ => ⟨trivial, fun _ _ => ⟨trivial, fun _ _ =>
    ⟨trivial, fun _ _ => trivial⟩⟩⟩⟩
  have hfound : usable (start narrower initial 0) (narrower 1) =
      some (0,⟨issued (narrower 0),.running⟩) := rfl
  rw [hfound, Option.some.injEq, Prod.mk.injEq] at h
  obtain ⟨rfl, rfl⟩ := h
  refine ⟨fun hc => (nomatch hc), ?_⟩
  unfold Covers
  decide +kernel

end Shared

end Uru.Query.EntitySearch
