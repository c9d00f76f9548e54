import Uru.Lib.Machine
import Mathlib.Data.Rat.Defs
import Mathlib.Tactic

/-!
# Requests in flight and the idle watchdog

The middleware and the bodies of streaming responses count what is in flight;
the watchdog looks at the count between two sleeps and shuts the sidecar down
when it was idle for long enough. The two clocks, the order of the requests
and how each of them ends are open.
-/

set_option autoImplicit false

namespace Uru.Runtime
open Uru.Lib.Machine

inductive Status where
  | starting
  | ok
  | error
  | stopping
  deriving DecidableEq

namespace Activity

structure SidecarRuntime where
  status : Status
  lastActivity : ℚ
  inflight : ℤ

namespace SidecarRuntime

def touch (r : SidecarRuntime) (now : ℚ) : SidecarRuntime := { r with lastActivity := now }

def beginRequest (r : SidecarRuntime) : SidecarRuntime := { r with inflight := r.inflight+1 }

def endRequest (r : SidecarRuntime) : SidecarRuntime := { r with inflight := max 0 (r.inflight-1) }

def hasInflight (r : SidecarRuntime) : Bool := 0 < r.inflight

def idleSeconds (r : SidecarRuntime) (now : ℚ) : ℚ := now-r.lastActivity

end SidecarRuntime

inductive Dog where
  | off
  | asleep (before : ℚ)
  | stopping
  deriving DecidableEq

/-- The server with its clocks, the middleware calls that are open, the
streaming bodies nobody has asked an item of yet, and those that are open.
`marks` keeps the instants at which a request came, a call or a body ended or a
suspend was forgiven; no code reads it. -/
structure Server where
  runtime : SidecarRuntime
  monotonic : ℚ
  time : ℚ
  calls : List ℕ
  waiting : List ℕ
  bodies : List ℕ
  dog : Dog
  marks : List ℚ

/-- How a call or a body comes to its end; every way leads through `finally`. -/
inductive Ending where
  | finished
  | raised
  | cancelled

inductive Event where
  | tick (monotonic time : ℚ)
  | health
  | callBegins (i : ℕ)
  | callEnds (i : ℕ) (how : Ending)
  | responds (i j : ℕ)
  | abandoned (j : ℕ)
  | bodyBegins (j : ℕ)
  | bodyItem (j : ℕ)
  | bodyEnds (j : ℕ) (how : Ending)
  | status (st : Status)
  | wake

namespace Server

def touch (s : Server) : Server := { s with runtime := s.runtime.touch s.monotonic }

def mark (s : Server) : Server := { s with marks := s.monotonic::s.marks }

/-- The wall clock ran ahead of the sleep, as after a suspend. -/
def suspended (s : Server) (timeout before : ℚ) : Bool := min 15 timeout*3 < s.time-before

/-- One turn of the watchdog, from the end of its sleep. -/
def watchdog (s : Server) (timeout before : ℚ) : Server :=
  if s.suspended timeout before then { s.touch with dog := .asleep s.time }
  else if s.runtime.status = .ok ∧ ¬ s.runtime.hasInflight ∧
      timeout < s.runtime.idleSeconds s.monotonic
  then { s with runtime := { s.runtime with status := .stopping }, dog := .stopping }
  else { s with dog := .asleep s.time }

end Server

def step (timeout : ℚ) (s : Server) : Event → Option Server
  | .tick dm dt =>
    if 0 ≤ dm then some { s with monotonic := s.monotonic+dm, time := s.time+dt } else none
  | .health => some s.mark.touch
  | .callBegins i =>
    if i ∈ s.calls then none
    else some { s.mark.touch with runtime := s.touch.runtime.beginRequest, calls := i::s.calls }
  | .callEnds i _ =>
    if i ∈ s.calls then
      some { s.mark.touch with runtime := s.touch.runtime.endRequest, calls := s.calls.erase i }
    else none
  | .responds i j =>
    if i ∈ s.calls ∧ j ∉ s.waiting ∧ j ∉ s.bodies then some { s with waiting := j::s.waiting }
    else none
  | .abandoned j => if j ∈ s.waiting then some { s with waiting := s.waiting.erase j } else none
  | .bodyBegins j =>
    if j ∈ s.waiting then
      some { s with
        runtime := s.runtime.beginRequest, waiting := s.waiting.erase j, bodies := j::s.bodies }
    else none
  | .bodyItem j => if j ∈ s.bodies then some s else none
  | .bodyEnds j _ =>
    if j ∈ s.bodies then
      some { s.mark.touch with runtime := s.touch.runtime.endRequest, bodies := s.bodies.erase j }
    else none
  | .status st => some { s with runtime := { s.runtime with status := st } }
  | .wake =>
    match s.dog with
    | .asleep before => some ((if s.suspended timeout before then s.mark else s).watchdog timeout before)
    | _ => none

def init (timeout monotonic time : ℚ) : Server where
  runtime := ⟨.starting,monotonic,0⟩
  monotonic := monotonic
  time := time
  calls := []
  waiting := []
  bodies := []
  dog := if timeout ≤ 0 then .off else .asleep time
  marks := []

def openWork (s : Server) : ℕ := s.calls.length+s.bodies.length

structure Counted (s : Server) : Prop where
  inflight : s.runtime.inflight = openWork s
  marks : ∀ m ∈ s.marks, m ≤ s.runtime.lastActivity
  past : s.runtime.lastActivity ≤ s.monotonic

theorem counted_init (timeout monotonic time : ℚ) : Counted (init timeout monotonic time) :=
  ⟨rfl,by simp [init],le_refl _⟩

/-- A touch covers the mark of its instant. -/
theorem counted_touch (s : Server) (h : Counted s) : Counted s.mark.touch := by
  refine ⟨h.inflight,fun m hm => ?_,le_refl _⟩
  rcases List.mem_cons.mp hm with rfl | hm
  · exact le_refl _
  · exact (h.marks m hm).trans h.past

theorem counted_begin (s : Server) (h : Counted s) (calls waiting bodies : List ℕ)
    (hopen : calls.length+bodies.length = openWork s+1) :
    Counted { s with
      runtime := s.runtime.beginRequest, calls := calls, waiting := waiting, bodies := bodies } := by
  refine ⟨?_,h.marks,h.past⟩
  have := h.inflight
  simp only [SidecarRuntime.beginRequest, openWork] at this hopen ⊢
  omega

/-- An end comes after its begin, so the clamp has nothing to do. -/
theorem counted_end (s : Server) (h : Counted s) (calls bodies : List ℕ)
    (hopen : calls.length+bodies.length+1 = openWork s) :
    0 < s.runtime.inflight ∧
      Counted { s with runtime := s.runtime.endRequest, calls := calls, bodies := bodies } := by
  have hcount := h.inflight
  have hpos : 0 < s.runtime.inflight := by omega
  refine ⟨hpos,?_,h.marks,h.past⟩
  simp only [SidecarRuntime.endRequest, openWork] at hcount hopen ⊢
  rw [max_eq_right (by omega)]
  omega

theorem erase_length (i : ℕ) (l : List ℕ) (h : i ∈ l) : (l.erase i).length+1 = l.length := by
  have := List.length_erase_of_mem h
  have := List.length_pos_of_mem h
  omega

theorem counted_watchdog (s : Server) (h : Counted s) (timeout before : ℚ) :
    Counted ((if s.suspended timeout before then s.mark else s).watchdog timeout before) := by
  by_cases hs : s.suspended timeout before = true
  · have htouch := counted_touch s h
    have hmark : s.mark.suspended timeout before = true := hs
    rw [if_pos hs, Server.watchdog, if_pos hmark]
    exact ⟨htouch.inflight,htouch.marks,htouch.past⟩
  · rw [if_neg hs, Server.watchdog, if_neg hs]
    split
    · exact ⟨h.inflight,h.marks,h.past⟩
    · exact ⟨h.inflight,h.marks,h.past⟩

theorem counted_step (timeout : ℚ) (s : Server) (e : Event) (s' : Server) (h : Counted s)
    (hst : step timeout s e = some s') : Counted s' := by
  cases e with
  | tick dm dt =>
    simp only [step] at hst
    split_ifs at hst with hdm
    cases hst
    exact ⟨h.inflight,h.marks,h.past.trans (le_add_of_nonneg_right hdm)⟩
  | health =>
    cases hst
    exact counted_touch s h
  | callBegins i =>
    simp only [step] at hst
    split_ifs at hst
    cases hst
    exact counted_begin s.mark.touch (counted_touch s h) (i::s.calls) s.waiting s.bodies
      (by simp only [List.length_cons, openWork, Server.touch, Server.mark]; omega)
  | callEnds i how =>
    simp only [step] at hst
    split_ifs at hst with hi
    cases hst
    have := erase_length i s.calls hi
    exact (counted_end s.mark.touch (counted_touch s h) (s.calls.erase i) s.bodies
      (by simp only [openWork, Server.touch, Server.mark]; omega)).2
  | responds i j =>
    simp only [step] at hst
    split_ifs at hst
    cases hst
    exact ⟨h.inflight,h.marks,h.past⟩
  | abandoned j =>
    simp only [step] at hst
    split_ifs at hst
    cases hst
    exact ⟨h.inflight,h.marks,h.past⟩
  | bodyBegins j =>
    simp only [step] at hst
    split_ifs at hst
    cases hst
    exact counted_begin s h s.calls (s.waiting.erase j) (j::s.bodies)
      (by simp only [List.length_cons, openWork]; omega)
  | bodyItem j =>
    simp only [step] at hst
    split_ifs at hst
    cases hst
    exact h
  | bodyEnds j how =>
    simp only [step] at hst
    split_ifs at hst with hj
    cases hst
    have := erase_length j s.bodies hj
    exact (counted_end s.mark.touch (counted_touch s h) s.calls (s.bodies.erase j)
      (by simp only [openWork, Server.touch, Server.mark]; omega)).2
  | status st =>
    cases hst
    exact ⟨h.inflight,h.marks,h.past⟩
  | wake =>
    simp only [step] at hst
    split at hst <;> cases hst
    exact counted_watchdog s h timeout _

theorem counted_run (timeout : ℚ) (es : List Event) (s s' : Server) (h : Counted s)
    (hr : run (step timeout) s es = some s') : Counted s' := by
  induction es generalizing s with
  | nil =>
    cases hr
    exact h
  | cons e es ih =>
    simp only [run, Option.bind_eq_some_iff] at hr
    obtain ⟨t, ht, hr⟩ := hr
    exact ih t (counted_step timeout s e t h ht) hr

def Ends : Event → Prop
  | .callEnds _ _ => True
  | .bodyEnds _ _ => True
  | _ => False

theorem ends_counted (timeout : ℚ) (s : Server) (h : Counted s) (e : Event) (he : Ends e)
    (hst : (step timeout s e).isSome) : 0 < s.runtime.inflight := by
  cases e with
  | callEnds i how =>
    have hi : i ∈ s.calls := by
      by_contra hi
      simp [step, hi] at hst
    have := erase_length i s.calls hi
    exact (counted_end s h (s.calls.erase i) s.bodies (by simp only [openWork]; omega)).1
  | bodyEnds j how =>
    have hj : j ∈ s.bodies := by
      by_contra hj
      simp [step, hj] at hst
    have := erase_length j s.bodies hj
    exact (counted_end s h s.calls (s.bodies.erase j) (by simp only [openWork]; omega)).1
  | tick | health | callBegins | responds | abandoned | bodyBegins | bodyItem | status | wake =>
    exact he.elim

theorem watchdog_idle (s : Server) (h : Counted s) (timeout before : ℚ)
    (hstop : ((if s.suspended timeout before then s.mark else s).watchdog timeout before).dog =
      .stopping) :
    s.calls = [] ∧ s.bodies = [] ∧ ∀ m ∈ s.marks, timeout < s.monotonic-m := by
  by_cases hs : s.suspended timeout before = true
  · have hmark : s.mark.suspended timeout before = true := hs
    rw [if_pos hs, Server.watchdog, if_pos hmark] at hstop
    simp at hstop
  · rw [if_neg hs, Server.watchdog, if_neg hs] at hstop
    split at hstop
    · rename_i hidle
      obtain ⟨_, hnone, hlong⟩ := hidle
      have hcount := h.inflight
      simp only [SidecarRuntime.hasInflight, decide_eq_true_eq, openWork] at hnone hcount
      refine ⟨List.length_eq_zero_iff.mp (by omega),List.length_eq_zero_iff.mp (by omega),?_⟩
      intro m hm
      have := h.marks m hm
      simp only [SidecarRuntime.idleSeconds] at hlong
      linarith
    · simp at hstop

/-- In every state that a run reaches the count is that of the open calls and
bodies, an end finds it positive, and if the watchdog stops the sidecar there,
nothing is open and the last mark is longer ago than the timeout. -/
theorem idle_stop_never_interrupts (timeout monotonic time : ℚ) (es : List Event) (s : Server)
    (h : run (step timeout) (init timeout monotonic time) es = some s) :
    s.runtime.inflight = openWork s ∧
    (∀ e, Ends e → (step timeout s e).isSome → 0 < s.runtime.inflight) ∧
    ∀ s', step timeout s .wake = some s' → s'.dog = .stopping →
      s.calls = [] ∧ s.bodies = [] ∧ ∀ m ∈ s.marks, timeout < s.monotonic-m := by
  have hs := counted_run timeout es _ s (counted_init timeout monotonic time) h
  refine ⟨hs.inflight,ends_counted timeout s hs,fun s' hst hstop => ?_⟩
  simp only [step] at hst
  split at hst <;> cases hst
  exact watchdog_idle s hs timeout _ hstop

/-- A streamed answer that outlives its call, and the stop that comes after it. -/
theorem idle_stop_after_stream : ∃ s s', run (step 120) (init 120 0 0) [.status .ok,.callBegins 0,
      .responds 0 1,.callEnds 0 .finished,.bodyBegins 1,.tick 20 20,.bodyEnds 1 .cancelled,
      .tick 130 20] = some s ∧ step 120 s .wake = some s' ∧ s'.dog = .stopping ∧
    s.calls = [] ∧ s.bodies = [] := by
  let es : List Event := [.status .ok,.callBegins 0,.responds 0 1,.callEnds 0 .finished,
    .bodyBegins 1,.tick 20 20,.bodyEnds 1 .cancelled,.tick 130 20]
  have hrun : run (step 120) (init 120 0 0) es = some ⟨⟨.ok,20,0⟩,150,40,[],[],[],.asleep 0,
    [20,0,0]⟩ := by
    simp [es, run, step, init, Server.touch, Server.mark, SidecarRuntime.touch, SidecarRuntime.beginRequest,
      SidecarRuntime.endRequest]
    norm_num
  have hwake : step 120 ⟨⟨.ok,20,0⟩,150,40,[],[],[],.asleep 0,[20,0,0]⟩ .wake =
      some ⟨⟨.stopping,20,0⟩,150,40,[],[],[],.stopping,[20,0,0]⟩ := by
    simp only [step, Server.watchdog, Server.suspended, SidecarRuntime.hasInflight,
      SidecarRuntime.idleSeconds]
    norm_num
  have := (idle_stop_never_interrupts 120 0 0 es _ hrun).2.2 _ hwake rfl
  exact ⟨_,_,hrun,hwake,rfl,this.1,this.2.1⟩

end Activity

end Uru.Runtime
