import Uru.Lib.Calls
import Uru.Dream.Lock

/-!
# Mutual exclusion, release and transparency

A call owns the lock of its namespace from its acquire to the end of its body,
and whoever owns a lock has not yet closed its session. An exception in flight
is the one the body ended with. Both are kept as long as no `RuntimeError` comes
back to `_lock`.
-/

set_option autoImplicit false

namespace Uru.Dream.Lock

open Uru.Lib

variable {η κ ε : Type*}

section Condition

variable [DecidableEq η] [DecidableEq ε] (dialect : Dialect) (lockId : η → κ)

/-- No `RuntimeError` comes back to `_lock`, nothing fails after the body has
raised, and a single attempt outside PostgreSQL finds the lock free. -/
def Orderly (w : World η κ ε) : Event η ε → Prop
  | .start _ _ => True
  | .opened i raised => ∀ c, w.calls[i]? = some c → c.stage = .opening →
      ∀ e, raised = some e → c.caught e = false
  | .attempt i _ => ∀ c, w.calls[i]? = some c → dialect = .embedded →
      c.route.timeoutSeconds = 0 → w.locks (lockId c.namespaceId) = none
  | .attemptFails i e _ => ∀ c, w.calls[i]? = some c → c.caught e = false
  | .leave i raised => ∀ c, w.calls[i]? = some c → c.stage = .body true →
      ∀ e, raised = some e → c.caught e = false
  | .settle i raised => ∀ c, w.calls[i]? = some c → ∀ e, raised = some e →
      c.left = some none ∨ (c.left = none ∧ c.caught e = false)

end Condition

/-- The exception in flight is what the body raised, or it comes from before
the body and is none that `_lock` handles. -/
structure Carried (c : Call η ε) (result : Option (Error η ε)) : Prop where
  once : c.entered ≤ 1
  raised : ∀ e, c.left = some (some e) → result = some e ∧ c.caught e = false
  before : c.left = none → ∃ e, result = some e ∧ c.caught e = false

def Fine (c : Call η ε) : Prop :=
  match c.stage with
  | .opening | .attempting => c.entered = 0 ∧ c.left = none ∧ c.timedOut = false
  | .body locked => locked = true ∧ c.entered = 1 ∧ c.left = none ∧ c.timedOut = false
  | .committing => c.entered = 1 ∧ c.left = some none
  | .rollingBack e => Carried c (some e)
  | .closing result => Carried c result
  | .done result => c.entered ≤ 1 ∧ ∀ e, c.left = some (some e) → result = some e

def Call.openSession (c : Call η ε) : Bool :=
  match c.stage with
  | .opening | .attempting | .done _ => false
  | _ => !c.timedOut

structure Kept (lockId : η → κ) (w : World η κ ε) : Prop where
  owner : ∀ (id : κ) (i : ℕ), w.locks id = some i →
    ∃ c, w.calls[i]? = some c ∧ lockId c.namespaceId = id ∧ c.openSession = true
  inside : ∀ (i : ℕ) (c : Call η ε), w.calls[i]? = some c → c.stage = .body true →
    w.locks (lockId c.namespaceId) = some i
  fine : ∀ c ∈ w.calls, Fine c
  single : ∀ c ∈ w.calls, c.route.timeoutSeconds = 0 → c.waits = 0

variable {lockId : η → κ} {w : World η κ ε} {i : ℕ} {c d : Call η ε} {e : Error η ε}
  {result : Option (Error η ε)} {locks : κ → Option ℕ}

theorem kept_initial : Kept lockId (World.initial (η := η) (κ := κ) (ε := ε)) where
  owner := fun _ _ h => by cases h
  inside := fun _ _ h => by cases h
  fine := fun _ h => by cases h
  single := fun _ h => by cases h

theorem exclusive_of_kept (h : Kept lockId w) : Exclusive w where
  alone := by
    intro i j a b x y hi hj hns hx hy
    have hlocked : ∀ {k : ℕ} {c : Call η ε} {z : Bool}, w.calls[k]? = some c →
        c.stage = .body z → w.locks (lockId c.namespaceId) = some k := by
      intro k c z hk hz
      have hf := h.fine c (List.mem_of_getElem? hk)
      rw [Fine, hz] at hf
      exact h.inside k c hk (by rw [hz, hf.1])
    have ha := hlocked hi hx
    rw [hns, hlocked hj hy] at ha
    exact (Option.some.inj ha).symm
  released := by
    intro i a r ha hr id hid
    obtain ⟨c, hc, -, hopen⟩ := h.owner id i hid
    obtain rfl := Option.some.inj (ha.symm.trans hc)
    rw [Call.openSession, hr] at hopen
    cases hopen
  timedOut := by
    intro i a ha ht id hid
    obtain ⟨c, hc, -, hopen⟩ := h.owner id i hid
    obtain rfl := Option.some.inj (ha.symm.trans hc)
    rw [Call.openSession, ht] at hopen
    split at hopen <;> cases hopen
  transparent := by
    intro a ha e r hleft hr
    have hf := h.fine a ha
    rw [Fine, hr] at hf
    exact hf.2 e hleft
  once := by
    intro a ha
    have hf := h.fine a ha
    rw [Fine] at hf
    split at hf
    · omega
    · omega
    · omega
    · omega
    · exact hf.once
    · exact hf.once
    · exact hf.1
  single := h.single

/-- A call moves on and the table follows: a lock that another call holds stays
with it, and what the call itself then holds is the lock of its namespace. -/
theorem kept_put (h : Kept lockId w) (hc : w.calls[i]? = some c)
    (hns : d.namespaceId = c.namespaceId)
    (hothers : ∀ (id : κ) (j : ℕ), j ≠ i → w.locks id = some j → locks id = some j)
    (hnew : ∀ (id : κ) (j : ℕ), j ≠ i → locks id = some j → w.locks id = some j)
    (hown : ∀ id, locks id = some i → id = lockId c.namespaceId ∧ d.openSession = true)
    (hin : d.stage = .body true → locks (lockId c.namespaceId) = some i)
    (hfine : Fine d) (hsingle : d.route.timeoutSeconds = 0 → d.waits = 0) :
    Kept lockId (put w i locks d) where
  owner := by
    intro id j hid
    have hlt : i < w.calls.length := (List.getElem?_eq_some_iff.mp hc).1
    by_cases hj : j = i
    · subst hj
      obtain ⟨rfl, hopen⟩ := hown id hid
      exact ⟨d, List.getElem?_set_self hlt, by rw [hns], hopen⟩
    · obtain ⟨b, hb, hrest⟩ := h.owner id j (hnew id j hj hid)
      exact ⟨b, by rw [put, List.getElem?_set_ne (Ne.symm hj), hb], hrest⟩
  inside := by
    intro j b hb hbody
    rcases Calls.getElem?_set_cases hb with ⟨rfl, rfl⟩ | ⟨hne, hold⟩
    · rw [hns]
      exact hin hbody
    · exact hothers _ j hne (h.inside j b hold hbody)
  fine := by
    intro b hb
    rcases List.mem_or_eq_of_mem_set hb with hold | rfl
    · exact h.fine b hold
    · exact hfine
  single := by
    intro b hb
    rcases List.mem_or_eq_of_mem_set hb with hold | rfl
    · exact h.single b hold
    · exact hsingle

/-- The call moves on while the table stays. -/
theorem kept_stay (h : Kept lockId w) (hc : w.calls[i]? = some c)
    (hns : d.namespaceId = c.namespaceId) (hopen : c.openSession = true → d.openSession = true)
    (hin : d.stage = .body true → c.stage = .body true)
    (hfine : Fine d) (hsingle : d.route.timeoutSeconds = 0 → d.waits = 0) :
    Kept lockId (put w i w.locks d) := by
  refine kept_put h hc hns (fun _ _ _ hid => hid) (fun _ _ _ hid => hid) ?_
    (fun hbody => h.inside i c hc (hin hbody)) hfine hsingle
  intro id hid
  obtain ⟨b, hb, hkey, hb'⟩ := h.owner id i hid
  obtain rfl := Option.some.inj (hc.symm.trans hb)
  exact ⟨hkey.symm, hopen hb'⟩

section Table

variable [DecidableEq κ]

theorem kept_take (h : Kept lockId w) (hc : w.calls[i]? = some c)
    (hfree : w.locks (lockId c.namespaceId) = none) (hclosed : c.openSession = false)
    (hns : d.namespaceId = c.namespaceId) (hopen : d.openSession = true)
    (hfine : Fine d) (hsingle : d.route.timeoutSeconds = 0 → d.waits = 0) :
    Kept lockId (put w i (take w.locks i (lockId c.namespaceId)) d) := by
  refine kept_put h hc hns (fun id j _ hid => take_keeps hfree hid) ?_ ?_
    (fun _ => Function.update_self _ _ _) hfine hsingle
  · intro id j hj hid
    rcases take_eq hid with ⟨-, hi⟩ | ⟨-, hold⟩
    · exact absurd hi hj
    · exact hold
  · intro id hid
    rcases take_eq hid with ⟨hkey, -⟩ | ⟨-, hold⟩
    · exact ⟨hkey, hopen⟩
    · obtain ⟨b, hb, -, hb'⟩ := h.owner id i hold
      obtain rfl := Option.some.inj (hc.symm.trans hb)
      rw [hclosed] at hb'
      cases hb'

theorem kept_release (h : Kept lockId w) (hc : w.calls[i]? = some c)
    (hns : d.namespaceId = c.namespaceId) (hin : d.stage ≠ .body true)
    (hfine : Fine d) (hsingle : d.route.timeoutSeconds = 0 → d.waits = 0) :
    Kept lockId (put w i (release w.locks i (lockId c.namespaceId)) d) := by
  refine kept_put h hc hns (fun id j hj hid => release_keeps hj hid)
    (fun id j _ hid => release_eq hid) ?_ (fun hbody => absurd hbody hin) hfine hsingle
  intro id hid
  obtain ⟨b, hb, hkey, -⟩ := h.owner id i (release_eq hid)
  obtain rfl := Option.some.inj (hc.symm.trans hb)
  subst hkey
  exact absurd hid release_not_own

end Table

theorem kept_start (h : Kept lockId w) (namespaceId : η) (route : Route) :
    Kept lockId { w with calls := w.calls++[Call.started namespaceId route] } where
  owner := by
    intro id j hid
    obtain ⟨b, hb, hrest⟩ := h.owner id j hid
    have hlt : j < w.calls.length := (List.getElem?_eq_some_iff.mp hb).1
    exact ⟨b, by rw [List.getElem?_append_left hlt, hb], hrest⟩
  inside := by
    intro j b hb hbody
    rw [List.getElem?_append] at hb
    split at hb
    · exact h.inside j b hb hbody
    · rw [List.getElem?_singleton] at hb
      split at hb
      · rw [← Option.some.inj hb] at hbody
        cases hbody
      · cases hb
  fine := by
    intro b hb
    rcases List.mem_append.mp hb with hold | hnew
    · exact h.fine b hold
    · rw [List.mem_singleton.mp hnew]
      exact ⟨rfl, rfl, rfl⟩
  single := by
    intro b hb
    rcases List.mem_append.mp hb with hold | hnew
    · exact h.single b hold
    · rw [List.mem_singleton.mp hnew]
      exact fun _ => rfl

theorem fine_unwind (h : Carried c (some e)) : Fine (c.unwind e) := by
  rw [Fine, Call.unwind]
  split_ifs with he
  · exact ⟨h.once, h.raised, h.before⟩
  · exact ⟨h.once, h.raised, h.before⟩

theorem unwind_openSession : (c.unwind e).openSession = !c.timedOut := by
  rw [Call.openSession, Call.unwind]
  split_ifs <;> rfl

theorem unwind_not_body {x : Bool} : (c.unwind e).stage ≠ .body x := by
  rw [Call.unwind]
  split_ifs <;> (intro h; cases h)

/-- Before the body an exception that `_lock` does not handle is carried. -/
theorem carried_before (hentered : c.entered = 0) (hleft : c.left = none)
    (he : c.caught e = false) : Carried c (some e) where
  once := by omega
  raised := fun x hx => by rw [hleft] at hx; cases hx
  before := fun _ => ⟨e, rfl, he⟩

theorem finish_done (h : Carried c result) :
    ∃ r, c.finish result = { c with stage := .done r } ∧
      ∀ e, c.left = some (some e) → r = some e := by
  cases result with
  | none => exact ⟨none, rfl, fun e he => (h.raised e he).1⟩
  | some e =>
    cases hcaught : c.caught e with
    | false =>
      refine ⟨some e, ?_, fun x hx => (h.raised x hx).1⟩
      simp only [Call.finish, hcaught, Bool.false_eq_true, if_false]
    | true =>
      have hleft : c.left = some none := by
        rcases hc : c.left with _ | _ | x
        · obtain ⟨x, hx, hnot⟩ := h.before hc
          rw [← Option.some.inj hx, hcaught] at hnot
          cases hnot
        · rfl
        · obtain ⟨hx, hnot⟩ := h.raised x hc
          rw [← Option.some.inj hx, hcaught] at hnot
          cases hnot
      refine ⟨some (.RuntimeError "generator didn't stop"), ?_, fun x hx => ?_⟩
      · simp only [Call.finish, hcaught, hleft, if_true]
      · rw [hleft] at hx
        cases hx

section Steps

variable {dialect : Dialect} {raised : Option (Error η ε)} {late granted : Bool}

theorem not_caught (h : e.isRuntime = false) : c.caught e = false := by
  rw [Call.caught, h, Bool.and_false]

/-- Before the lock is found free the table does not know the call. -/
theorem kept_opened (h : Kept lockId w) (hc : w.calls[i]? = some c) (hs : c.stage = .opening)
    (hcaught : ∀ e, raised = some e → c.caught e = false) :
    Kept lockId (put w i w.locks (opened c raised)) := by
  have hf : Fine c := h.fine c (List.mem_of_getElem? hc)
  rw [Fine, hs] at hf
  have hclosed : c.openSession = false := by rw [Call.openSession, hs]
  have hsingle := h.single c (List.mem_of_getElem? hc)
  cases raised with
  | some e =>
    have he := hcaught e rfl
    obtain ⟨r, hr, hleft⟩ := finish_done (carried_before hf.1 hf.2.1 he)
    rw [opened, hr]
    have hentered : c.entered ≤ 1 := by omega
    refine kept_stay h hc rfl (fun ho => ?_) (fun hb => by cases hb) ⟨hentered, hleft⟩ hsingle
    rw [hclosed] at ho
    cases ho
  | none =>
    rw [opened]
    split_ifs with ht
    · refine kept_stay h hc ?_ (fun ho => ?_) (fun hb => absurd hb unwind_not_body)
        (fine_unwind (carried_before hf.1 hf.2.1 ?_)) ?_
      · rw [Call.unwind]
      · rw [hclosed] at ho
        cases ho
      · exact not_caught rfl
      · rw [Call.unwind]
        exact hsingle
    · refine kept_stay h hc rfl (fun ho => ?_) (fun hb => by cases hb) hf hsingle
      rw [hclosed] at ho
      cases ho

theorem kept_refused (h : Kept lockId w) (hc : w.calls[i]? = some c)
    (hs : c.stage = .attempting)
    (hwait : c.route.timeoutSeconds = 0 → dialect = .postgresql) :
    Kept lockId (put w i w.locks (attempted dialect c false late)) := by
  have hf : Fine c := h.fine c (List.mem_of_getElem? hc)
  rw [Fine, hs] at hf
  have hclosed : c.openSession = false := by rw [Call.openSession, hs]
  have hsingle := h.single c (List.mem_of_getElem? hc)
  rw [attempted, if_neg (by decide)]
  split_ifs with hexp
  · refine kept_stay h hc ?_ (fun ho => ?_) (fun hb => absurd hb unwind_not_body)
      (fine_unwind (carried_before hf.1 hf.2.1 ?_)) ?_
    · rw [Call.unwind]
    · rw [hclosed] at ho
      cases ho
    · exact not_caught rfl
    · rw [Call.unwind]
      exact hsingle
  · refine kept_stay h hc rfl (fun ho => ?_) id ?_ (fun hzero => ?_)
    · rw [hclosed] at ho
      cases ho
    · rw [Fine, hs]
      exact hf
    · refine absurd ?_ hexp
      rw [hwait hzero, expires, decide_eq_true hzero, Bool.or_true]

variable [DecidableEq κ]

theorem kept_acquired (h : Kept lockId w) (hc : w.calls[i]? = some c)
    (hs : c.stage = .attempting) (hfree : w.locks (lockId c.namespaceId) = none) :
    Kept lockId
      (put w i (take w.locks i (lockId c.namespaceId)) (attempted dialect c true late)) := by
  have hf : Fine c := h.fine c (List.mem_of_getElem? hc)
  rw [Fine, hs] at hf
  obtain ⟨hentered, hleft, htimed⟩ := hf
  refine kept_take h hc hfree (by rw [Call.openSession, hs]) rfl ?_ ?_
    (h.single c (List.mem_of_getElem? hc))
  · simp only [attempted, if_true, Call.enter, Call.openSession, htimed, Bool.not_false]
  · simp only [attempted, if_true, Call.enter, Fine, hentered, hleft, htimed, and_self]

theorem kept_attemptFails (h : Kept lockId w) (hc : w.calls[i]? = some c)
    (hs : c.stage = .attempting) (he : c.caught e = false) :
    Kept lockId (put w i w.locks (c.unwind e)) ∧
      (w.locks (lockId c.namespaceId) = none →
        Kept lockId (put w i (take w.locks i (lockId c.namespaceId)) (c.unwind e))) := by
  have hf : Fine c := h.fine c (List.mem_of_getElem? hc)
  rw [Fine, hs] at hf
  have hclosed : c.openSession = false := by rw [Call.openSession, hs]
  have hfine : Fine (c.unwind e) := fine_unwind (carried_before hf.1 hf.2.1 he)
  have hns : (c.unwind e).namespaceId = c.namespaceId := by rw [Call.unwind]
  have hopen : (c.unwind e).openSession = true := by rw [unwind_openSession, hf.2.2]; rfl
  have hsingle : (c.unwind e).route.timeoutSeconds = 0 → (c.unwind e).waits = 0 := by
    rw [Call.unwind]
    exact h.single c (List.mem_of_getElem? hc)
  exact ⟨kept_stay h hc hns (fun _ => hopen) (fun hb => absurd hb unwind_not_body) hfine hsingle,
    fun hfree => kept_take h hc hfree hclosed hns hopen hfine hsingle⟩

/-- The body ends; outside PostgreSQL the lock ends with it. -/
theorem kept_leave (h : Kept lockId w) (hc : w.calls[i]? = some c) (hs : c.stage = .body true)
    (hcaught : ∀ e, raised = some e → c.caught e = false) :
    Kept lockId (put w i w.locks (left c raised)) ∧
      Kept lockId (put w i (release w.locks i (lockId c.namespaceId)) (left c raised)) := by
  have hf : Fine c := h.fine c (List.mem_of_getElem? hc)
  rw [Fine, hs] at hf
  obtain ⟨-, hentered, hleft, htimed⟩ := hf
  have hsingle := h.single c (List.mem_of_getElem? hc)
  have hns : (left c raised).namespaceId = c.namespaceId := by cases raised <;> rfl
  have hbody : (left c raised).stage ≠ .body true := by
    cases raised with
    | none => intro hb; cases hb
    | some e => exact unwind_not_body
  have hopen : (left c raised).openSession = true := by
    cases raised with
    | none => simp only [left, Call.openSession, htimed, Bool.not_false]
    | some e => rw [left, unwind_openSession, htimed]; rfl
  have hfine : Fine (left c raised) := by
    cases raised with
    | none => exact ⟨hentered, rfl⟩
    | some e =>
      refine fine_unwind ⟨hentered.le, fun x hx => ?_, fun hx => by cases hx⟩
      obtain rfl := Option.some.inj (Option.some.inj hx)
      exact ⟨rfl, hcaught e rfl⟩
  have hs' : (left c raised).route.timeoutSeconds = 0 → (left c raised).waits = 0 := by
    cases raised <;> exact hsingle
  exact ⟨kept_stay h hc hns (fun _ => hopen) (fun hb => absurd hb hbody) hfine hs',
    kept_release h hc hns hbody hfine hs'⟩

/-- What is raised after the body, or before it, takes the place of what was
carried. -/
theorem carried_replaced (honce : c.entered ≤ 1)
    (h : c.left = some none ∨ (c.left = none ∧ c.caught e = false)) : Carried c (some e) where
  once := honce
  raised := by
    intro x hx
    rcases h with h | ⟨h, -⟩ <;> (rw [h] at hx; cases hx)
  before := by
    intro hx
    rcases h with h | ⟨-, h⟩
    · rw [h] at hx
      cases hx
    · exact ⟨e, rfl, h⟩

theorem kept_finish (h : Kept lockId w) (hc : w.calls[i]? = some c) (hr : Carried c result) :
    Kept lockId (put w i (release w.locks i (lockId c.namespaceId)) (c.finish result)) := by
  obtain ⟨r, hdone, hleft⟩ := finish_done hr
  rw [hdone]
  have hbody : ({ c with stage := .done r } : Call η ε).stage ≠ .body true := by
    intro hb
    cases hb
  exact kept_release h hc rfl hbody ⟨hr.once, hleft⟩ (h.single c (List.mem_of_getElem? hc))

theorem kept_settle (h : Kept lockId w) (hc : w.calls[i]? = some c)
    (hok : ∀ e, raised = some e → c.left = some none ∨ (c.left = none ∧ c.caught e = false))
    {r : (κ → Option ℕ) × Call η ε} (hr : settled lockId w.locks i c raised = some r) :
    Kept lockId (put w i r.1 r.2) := by
  have hf : Fine c := h.fine c (List.mem_of_getElem? hc)
  have hsingle := h.single c (List.mem_of_getElem? hc)
  have hclosing : ∀ (x : Option (Error η ε)),
      ({ c with stage := .closing x } : Call η ε).stage ≠ .body true := by
    intro x hb
    cases hb
  unfold settled at hr
  split at hr
  next hs =>
    cases hr
    rw [Fine, hs] at hf
    have hnone : ∀ {y : Option (Error η ε)}, some y = c.left → y = none := by
      intro y hy
      exact Option.some.inj (hy.trans hf.2)
    refine kept_release h hc rfl (hclosing none) ⟨hf.1.le, fun x hx => ?_, fun hx => ?_⟩ hsingle
    · cases hnone hx.symm
    · cases hx.symm.trans hf.2
  next e hs =>
    cases hr
    rw [Fine, hs] at hf
    refine kept_stay h hc ?_ (fun ho => ?_) (fun hb => absurd hb unwind_not_body)
      (fine_unwind (carried_replaced hf.1.le (hok e rfl))) ?_
    · rw [Call.unwind]
    · rw [unwind_openSession]
      rwa [Call.openSession, hs] at ho
    · rw [Call.unwind]
      exact hsingle
  next e hs =>
    cases hr
    rw [Fine, hs] at hf
    exact kept_release h hc rfl (hclosing (some e)) ⟨hf.once, hf.raised, hf.before⟩ hsingle
  next e hs =>
    cases hr
    rw [Fine, hs] at hf
    have hcarried : Carried c (some e) := carried_replaced hf.once (hok e rfl)
    refine kept_stay h hc rfl (fun ho => ?_) (fun hb => absurd hb (hclosing (some e)))
      ⟨hcarried.once, hcarried.raised, hcarried.before⟩ hsingle
    rwa [Call.openSession, hs] at ho
  next hs =>
    cases hr
    rw [Fine, hs] at hf
    exact kept_finish h hc hf
  next e hs =>
    cases hr
    rw [Fine, hs] at hf
    exact kept_finish h hc (carried_replaced hf.once (hok e rfl))
  · cases hr

theorem kept_step (h : Kept lockId w) (event : Event η ε) (hok : Orderly dialect lockId w event)
    {w' : World η κ ε} (hw : step dialect lockId w event = some w') : Kept lockId w' := by
  cases event with
  | start namespaceId route =>
    cases hw
    exact kept_start h namespaceId route
  | opened i raised =>
    obtain ⟨c, hc, hw⟩ := Option.bind_eq_some_iff.mp hw
    split at hw
    next hs =>
      cases hw
      exact kept_opened h hc hs (hok c hc hs)
    · cases hw
  | attempt i late =>
    obtain ⟨c, hc, hw⟩ := Option.bind_eq_some_iff.mp hw
    split at hw
    next hs hfree =>
      cases hw
      exact kept_acquired h hc hs hfree
    next j hs hheld =>
      cases hw
      refine kept_refused h hc hs (fun hzero => ?_)
      cases hd : dialect with
      | postgresql => rfl
      | embedded =>
        rw [hok c hc hd hzero] at hheld
        cases hheld
    · cases hw
  | attemptFails i e granted =>
    obtain ⟨c, hc, hw⟩ := Option.bind_eq_some_iff.mp hw
    split at hw
    next hs hfree =>
      cases hw
      obtain ⟨hstay, htake⟩ := kept_attemptFails h hc hs (hok c hc)
      split_ifs
      · exact htake hfree
      · exact hstay
    next j hs hheld =>
      cases hw
      exact (kept_attemptFails h hc hs (hok c hc)).1
    · cases hw
  | leave i raised =>
    obtain ⟨c, hc, hw⟩ := Option.bind_eq_some_iff.mp hw
    split at hw
    next hs =>
      cases hw
      obtain ⟨hstay, hrelease⟩ := kept_leave h hc hs (hok c hc hs)
      split_ifs
      · exact hrelease
      · exact hstay
    next hs =>
      have hf : Fine c := h.fine c (List.mem_of_getElem? hc)
      rw [Fine, hs] at hf
      exact absurd hf.1 (by decide)
    · cases hw
  | settle i raised =>
    obtain ⟨c, hc, hw⟩ := Option.bind_eq_some_iff.mp hw
    obtain ⟨r, hr, rfl⟩ := Option.map_eq_some_iff.mp hw
    exact kept_settle h hc (hok c hc) hr

/-- As long as no `RuntimeError` comes back to `_lock`, nothing fails after the
body has raised, and a single attempt outside PostgreSQL finds the lock free,
runs exclude each other, release, and pass on what their bodies raise. -/
theorem lock_exclusive (es : List (Event η ε))
    (hok : Machine.Meets (step dialect lockId) (Orderly dialect lockId) World.initial es) :
    Machine.Always (step dialect lockId) Exclusive World.initial es :=
  Machine.always_of_invariant (fun _ e _ h hk hw => kept_step h e hk hw)
    (fun _ h => exclusive_of_kept h) es _ kept_initial hok

end Steps

instance [DecidableEq η] [DecidableEq ε] (dialect : Dialect) (lockId : η → κ)
    (w : World η κ ε) : ∀ e, Decidable (Orderly dialect lockId w e)
  | .start _ _ => isTrue trivial
  | .opened i raised => inferInstanceAs (Decidable (∀ c, w.calls[i]? = some c →
      c.stage = .opening → ∀ e, raised = some e → c.caught e = false))
  | .attempt i _ => inferInstanceAs (Decidable (∀ c, w.calls[i]? = some c →
      dialect = .embedded → c.route.timeoutSeconds = 0 →
        w.locks (lockId c.namespaceId) = none))
  | .attemptFails i e _ => inferInstanceAs (Decidable (∀ c, w.calls[i]? = some c →
      c.caught e = false))
  | .leave i raised => inferInstanceAs (Decidable (∀ c, w.calls[i]? = some c →
      c.stage = .body true → ∀ e, raised = some e → c.caught e = false))
  | .settle i raised => inferInstanceAs (Decidable (∀ c, w.calls[i]? = some c →
      ∀ e, raised = some e → c.left = some none ∨ (c.left = none ∧ c.caught e = false)))

/-- Two runs of one namespace on PostgreSQL; the second waits once and is
cancelled inside, a caller with a single attempt is refused. -/
def takingTurns : List (Event ℕ ℕ) :=
  [.start 0 .lock, .start 0 .lock, .start 0 (.acquire 0), .opened 0 none, .opened 1 none,
    .opened 2 none, .attempt 0 false, .attempt 1 false, .attempt 2 false, .settle 2 none,
    .settle 2 none, .leave 0 none, .settle 0 none, .settle 0 none, .attempt 1 false,
    .leave 1 (some (.other .base 3)), .settle 1 none]

theorem taking_turns_exclusive :
    Machine.Always (step .postgresql (id : ℕ → ℕ)) Exclusive World.initial takingTurns :=
  lock_exclusive takingTurns (by decide)

def runtimeErrorInside : List (Event ℕ ℕ) :=
  [.start 0 .lock, .opened 0 none, .attempt 0 false, .leave 0 (some (.other .runtime 5)),
    .settle 0 none, .settle 0 none]

def runtimeErrorOpening : List (Event ℕ ℕ) :=
  [.start 0 .lock, .start 0 .lock, .opened 0 none, .attempt 0 false,
    .opened 1 (some (.other .runtime 5))]

def singleAttempt : List (Event ℕ ℕ) :=
  [.start 0 .lock, .start 0 (.acquire 0), .opened 0 none, .opened 1 none, .attempt 0 false,
    .attempt 1 true]

/-- The caller gets another `RuntimeError` than the body raised; the run that
could not open its transaction enters beside the holder; the single attempt
waits. -/
theorem lock_not_exclusive :
    (∃ w, Machine.run (step .postgresql (id : ℕ → ℕ)) World.initial runtimeErrorInside =
      some w ∧ ¬ Exclusive w) ∧
    (∃ w, Machine.run (step .postgresql (id : ℕ → ℕ)) World.initial runtimeErrorOpening =
      some w ∧ ¬ Exclusive w) ∧
    ∃ w, Machine.run (step .embedded (id : ℕ → ℕ)) World.initial singleAttempt =
      some w ∧ ¬ Exclusive w := by
  refine ⟨⟨_, rfl, fun h => ?_⟩, ⟨_, rfl, fun h => ?_⟩, ⟨_, rfl, fun h => ?_⟩⟩
  · have ht := h.transparent _ (List.mem_singleton.mpr rfl) (.other .runtime 5) _ rfl rfl
    cases ht
  · have ha := h.alone 0 1 _ _ true false rfl rfl rfl rfl rfl
    cases ha
  · have hw := h.single _ (List.mem_cons_of_mem _ (List.mem_singleton.mpr rfl)) rfl
    cases hw

end Uru.Dream.Lock
