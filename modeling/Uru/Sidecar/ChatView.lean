import Mathlib.Data.List.Basic
import Mathlib.Logic.Function.Basic
import Mathlib.Tactic
import Uru.Lib.Machine

/-!
# The chat view

A call of `send` runs up to its first await: the reading of the current note,
or the request itself. The view is busy from the request on, so that a note
that is read late starts a second exchange beside the first. An answer is
pushed onto the history of the moment, whichever conversation it was asked in.
The conversation number, the requests and the answered exchanges are kept
beside the state of the view, as a record of the run.
-/

set_option autoImplicit false

namespace Uru.Sidecar.ChatView
open Uru.Lib

inductive Role
  | user
  | assistant
deriving DecidableEq

structure ChatMessage where
  role : Role
  content : String
deriving DecidableEq

structure ChatCitation where
  index : ℕ
  externalId : String
  title : String
deriving DecidableEq

structure NoteContext where
  externalId : String
  title : String
  content : String
deriving DecidableEq

structure File where
  path : String
  basename : String
deriving DecidableEq

inductive ChatEvent
  | sources (citations : List ChatCitation)
  | token (text : String)
  | done

inductive ChatScope
  | vault
  | note (file : Option File)

/-- One exchange: what was asked, in which conversation and as which one in the
order of sending, and what stands in its bubble. -/
structure Exchange where
  ticket : ℕ
  conversation : ℕ
  query : String
  note : Option NoteContext
  historySnapshot : List ChatMessage
  answer : String
  citations : List ChatCitation
  shown : String
deriving DecidableEq

structure Request where
  ticket : ℕ
  conversation : ℕ
  query : String
  history : List ChatMessage
  note : Option NoteContext
  stream : Bool
deriving DecidableEq

/-- Where a call of `send` waits. -/
inductive Phase
  | reading (query : String) (file : File)
  | streaming (x : Exchange)
  | fallingBack (x : Exchange)
  | rendering (x : Exchange)
deriving DecidableEq

def Phase.exchange : Phase → Option Exchange
  | .reading _ _ => none
  | .streaming x | .fallingBack x | .rendering x => some x

structure View where
  history : List ChatMessage
  busy : Bool
  closed : Bool
  calls : ℕ → Option Phase
  next : ℕ
  conversation : ℕ
  requests : List Request
  answered : List Exchange

def opened : View := ⟨[],false,false,fun _ => none,0,0,[],[]⟩

inductive Event
  | send (query : String) (disabled : Bool) (client : Bool) (scope : ChatScope)
  | read (call : ℕ) (content : String)
  | readFailed (call : ℕ)
  | event (call : ℕ) (ev : ChatEvent)
  | streamEnd (call : ℕ)
  | streamFailed (call : ℕ)
  | fallback (call : ℕ) (answer : String) (citations : List ChatCitation)
  | fallbackFailed (call : ℕ)
  | rendered (call : ℕ)
  | renderFailed (call : ℕ)
  | newChat
  | close

def Exchange.request (x : Exchange) (stream : Bool) : Request :=
  ⟨x.ticket,x.conversation,x.query,x.historySnapshot,x.note,stream⟩

def display (answer : String) : String :=
  if answer = "" then "No answer — try rephrasing." else answer

def View.set (s : View) (call : ℕ) (phase : Option Phase) : View :=
  { s with calls := Function.update s.calls call phase }

/-- The part of `send` from the busy flag to the request. -/
def start (s : View) (call : ℕ) (query : String) (note : Option NoteContext) : View :=
  let x : Exchange := ⟨s.next,s.conversation,query,note,s.history,"",[],"…"⟩
  { s with
    busy := true
    calls := Function.update s.calls call (some (.streaming x))
    next := s.next+1
    requests := s.requests++[x.request true] }

def send (s : View) (query : String) (disabled client : Bool) (scope : ChatScope) : View :=
  if query = "" ∨ s.busy ∨ disabled then s
  else if client = false then s
  else
    match scope with
    | .vault => start s s.next query none
    | .note none => s
    | .note (some file) =>
      { s with
        calls := Function.update s.calls s.next (some (.reading query file))
        next := s.next+1 }

def receive (x : Exchange) : ChatEvent → Exchange
  | .sources citations => { x with citations := citations }
  | .token text => { x with answer := x.answer++text, shown := x.answer++text }
  | .done => x

/-- The `finally` of `send`. -/
def release (s : View) (call : ℕ) : View := { s.set call none with busy := false }

def push (s : View) (x : Exchange) : View :=
  { s with
    history := s.history++[⟨.user,x.query⟩,⟨.assistant,x.answer⟩]
    answered := s.answered++[x] }

def reset (s : View) : View := { s with history := [], conversation := s.conversation+1 }

def step (s : View) : Event → Option View
  | .send query disabled client scope =>
    if s.closed then none else some (send s query disabled client scope)
  | .read call content =>
    match s.calls call with
    | some (.reading query file) =>
      some (start s call query (some ⟨file.path,file.basename,content⟩))
    | _ => none
  | .readFailed call =>
    match s.calls call with
    | some (.reading _ _) => some (s.set call none)
    | _ => none
  | .event call ev =>
    match s.calls call with
    | some (.streaming x) => some (s.set call (some (.streaming (receive x ev))))
    | _ => none
  | .streamEnd call =>
    match s.calls call with
    | some (.streaming x) =>
      some (s.set call (some (.rendering { x with shown := display x.answer })))
    | _ => none
  | .streamFailed call =>
    match s.calls call with
    | some (.streaming x) =>
      some { s.set call (some (.fallingBack x)) with requests := s.requests++[x.request false] }
    | _ => none
  | .fallback call answer citations =>
    match s.calls call with
    | some (.fallingBack x) =>
      some (s.set call (some (.rendering
        { x with answer := answer, citations := citations, shown := display answer })))
    | _ => none
  | .fallbackFailed call =>
    match s.calls call with
    | some (.fallingBack _) => some (release s call)
    | _ => none
  | .rendered call =>
    match s.calls call with
    | some (.rendering x) => some (release (push s x) call)
    | _ => none
  | .renderFailed call =>
    match s.calls call with
    | some (.rendering _) => some (release s call)
    | _ => none
  | .newChat => if s.closed then none else some (reset s)
  | .close => if s.closed then none else some { s with closed := true }

def Exchange.messages (x : Exchange) : List ChatMessage :=
  [⟨.user,x.query⟩,⟨.assistant,x.answer⟩]

def InFlight (s : View) (call : ℕ) (x : Exchange) : Prop :=
  ∃ phase, s.calls call = some phase ∧ phase.exchange = some x

/-- The answered exchanges of a conversation. -/
def ofConversation (c : ℕ) (xs : List Exchange) : List Exchange :=
  xs.filter (fun x => x.conversation = c)

/-- One exchange at a time; the history is the pairs of the present
conversation in the order of sending, answered as shown; each request carries
the pairs of its conversation that were sent before it. -/
structure Consistent (s : View) : Prop where
  alone : ∀ i j x y, InFlight s i x → InFlight s j y → i = j
  history : s.history = (ofConversation s.conversation s.answered).flatMap Exchange.messages
  order : (ofConversation s.conversation s.answered).Pairwise (fun x y => x.ticket < y.ticket)
  shown : ∀ x ∈ ofConversation s.conversation s.answered, x.answer = x.shown
  requests : ∀ r ∈ s.requests, r.history =
    ((ofConversation r.conversation s.answered).filter (fun x => x.ticket < r.ticket)).flatMap
      Exchange.messages

/-- A note is read while no exchange is in flight, and an answer that is not
empty comes in the conversation it was asked in. -/
def Calm (s : View) : Event → Prop
  | .read call _ => ∀ query file, s.calls call = some (.reading query file) → s.busy = false
  | .rendered call => ∀ x, s.calls call = some (.rendering x) →
    x.conversation = s.conversation ∧ x.answer ≠ ""
  | _ => True

structure Current (s : View) (x : Exchange) : Prop where
  conversation : x.conversation ≤ s.conversation
  ticket : x.ticket < s.next
  latest : ∀ y ∈ s.answered, y.ticket < x.ticket
  asked : ∀ r ∈ s.requests, r.ticket ≤ x.ticket
  snapshot : x.historySnapshot =
    (ofConversation x.conversation s.answered).flatMap Exchange.messages

structure Sound (s : View) : Prop where
  alone : ∀ i j x y, InFlight s i x → InFlight s j y → i = j
  busy : s.busy = true ↔ ∃ i x, InFlight s i x
  fresh : ∀ i phase, s.calls i = some phase → i < s.next
  history : s.history = (ofConversation s.conversation s.answered).flatMap Exchange.messages
  sorted : s.answered.Pairwise (fun x y => x.ticket < y.ticket)
  shown : ∀ x ∈ s.answered, x.answer = x.shown
  past : ∀ x ∈ s.answered, x.conversation ≤ s.conversation ∧ x.ticket < s.next
  requests : ∀ r ∈ s.requests, r.history =
    ((ofConversation r.conversation s.answered).filter (fun x => x.ticket < r.ticket)).flatMap
      Exchange.messages
  asked : ∀ r ∈ s.requests, r.ticket < s.next
  current : ∀ i x, InFlight s i x → Current s x
  rendering : ∀ i x, s.calls i = some (.rendering x) → x.shown = display x.answer

theorem mem_ofConversation {c : ℕ} {xs : List Exchange} {x : Exchange} :
    x ∈ ofConversation c xs ↔ x ∈ xs ∧ x.conversation = c := by
  simp [ofConversation]

theorem sound_opened : Sound opened := by
  have hnone : ∀ i x, ¬ InFlight opened i x := by
    rintro i x ⟨phase, h, -⟩
    cases h
  have hbusy : opened.busy = true ↔ ∃ i x, InFlight opened i x :=
    ⟨fun h => (nomatch h), fun ⟨i, x, h⟩ => absurd h (hnone i x)⟩
  exact ⟨fun i j x y h => absurd h (hnone i x), hbusy, fun _ _ h => (nomatch h), rfl, .nil,
    fun _ h => (nomatch h), fun _ h => (nomatch h), fun _ h => (nomatch h), fun _ h => (nomatch h),
    fun i x h => absurd h (hnone i x), fun _ _ h => (nomatch h)⟩

theorem Sound.consistent {s : View} (h : Sound s) : Consistent s where
  alone := h.alone
  history := h.history
  order := h.sorted.filter _
  shown x hx := h.shown x (mem_ofConversation.mp hx).1
  requests := h.requests

theorem in_flight_update {s : View} {call i : ℕ} {phase : Option Phase} {x : Exchange} :
    InFlight { s with calls := Function.update s.calls call phase } i x ↔
      if i = call then (∃ p, phase = some p ∧ p.exchange = some x) else InFlight s i x := by
  unfold InFlight
  by_cases hi : i = call
  · subst hi
    simp
  · simp [hi]

/-- All pairs of a conversation are older than a ticket that none has reached. -/
theorem filter_older {c t : ℕ} {xs : List Exchange} (h : ∀ x ∈ xs, x.ticket < t) :
    (ofConversation c xs).filter (fun x => x.ticket < t) = ofConversation c xs := by
  rw [List.filter_eq_self]
  intro x hx
  exact decide_eq_true (h x (mem_ofConversation.mp hx).1)

theorem start_sound {s : View} (h : Sound s) (hbusy : s.busy = false) {call : ℕ}
    (hcall : call ≤ s.next) (query : String) (note : Option NoteContext) :
    Sound (start s call query note) := by
  have hnone : ∀ i x, ¬ InFlight s i x := by
    intro i x hi
    rw [h.busy.mpr ⟨i, x, hi⟩] at hbusy
    cases hbusy
  have hflight : ∀ i x, InFlight (start s call query note) i x →
      i = call ∧ x = ⟨s.next,s.conversation,query,note,s.history,"",[],"…"⟩ := by
    rintro i x ⟨phase, hphase, hx⟩
    by_cases hi : i = call
    · subst hi
      simp only [start, Function.update_self, Option.some.injEq] at hphase
      subst hphase
      exact ⟨rfl, (Option.some.inj hx).symm⟩
    · simp only [start, Function.update_of_ne hi] at hphase
      exact absurd ⟨phase, hphase, hx⟩ (hnone i x)
  refine ⟨fun i j x y hi hj => ?_, ?_, fun i phase hi => ?_, h.history, h.sorted, h.shown, ?_, ?_,
    ?_, fun i x hi => ?_, fun i x hi => ?_⟩
  · rw [(hflight i x hi).1, (hflight j y hj).1]
  · refine ⟨fun _ => ⟨call, _, _, Function.update_self .., rfl⟩, fun _ => rfl⟩
  · by_cases hic : i = call
    · subst hic
      exact Nat.lt_succ_of_le hcall
    · simp only [start, Function.update_of_ne hic] at hi
      exact Nat.lt_succ_of_lt (h.fresh i phase hi)
  · intro x hx
    exact ⟨(h.past x hx).1, Nat.lt_succ_of_lt (h.past x hx).2⟩
  · intro r hr
    rcases List.mem_append.mp hr with hold | hnew
    · exact h.requests r hold
    · rw [List.mem_singleton.mp hnew]
      exact h.history.trans (congrArg (fun xs => xs.flatMap Exchange.messages)
        (filter_older (fun x hx => (h.past x hx).2)).symm)
  · intro r hr
    rcases List.mem_append.mp hr with hold | hnew
    · exact Nat.lt_succ_of_lt (h.asked r hold)
    · rw [List.mem_singleton.mp hnew]
      exact Nat.lt_succ_self _
  · rw [(hflight i x hi).2]
    refine ⟨le_rfl, Nat.lt_succ_self _, fun y hy => (h.past y hy).2, fun r hr => ?_, h.history⟩
    rcases List.mem_append.mp hr with hold | hnew
    · exact (h.asked r hold).le
    · rw [List.mem_singleton.mp hnew]
      exact le_rfl
  · by_cases hic : i = call
    · subst hic
      simp [start] at hi
    · simp only [start, Function.update_of_ne hic] at hi
      exact h.rendering i x hi

/-- A call goes on with the same exchange. -/
theorem set_sound {s : View} (h : Sound s) {call : ℕ} {p p' : Phase} {x x' : Exchange}
    (hcall : s.calls call = some p) (hx : p.exchange = some x) (hx' : p'.exchange = some x')
    (hticket : x'.ticket = x.ticket) (hconversation : x'.conversation = x.conversation)
    (hsnapshot : x'.historySnapshot = x.historySnapshot)
    (hshown : ∀ y, p' = .rendering y → y.shown = display y.answer) :
    Sound (s.set call (some p')) := by
  have hflight : ∀ {i y}, InFlight (s.set call (some p')) i y →
      ∃ z, InFlight s i z ∧ y.ticket = z.ticket ∧ y.conversation = z.conversation ∧
        y.historySnapshot = z.historySnapshot := by
    intro i y hy
    rw [View.set, in_flight_update] at hy
    split_ifs at hy with hi
    · obtain ⟨q, hq, hqy⟩ := hy
      rw [← Option.some.inj hq, hx'] at hqy
      rw [← Option.some.inj hqy]
      exact ⟨x, ⟨p, hi ▸ hcall, hx⟩, hticket, hconversation, hsnapshot⟩
    · exact ⟨y, hy, rfl, rfl, rfl⟩
  have hself : InFlight (s.set call (some p')) call x' := by
    rw [View.set, in_flight_update, if_pos rfl]
    exact ⟨p', rfl, hx'⟩
  refine ⟨fun i j y z hi hj => ?_, ?_, fun i phase hi => ?_, h.history, h.sorted, h.shown, h.past,
    h.requests, h.asked, fun i y hy => ?_, fun i y hi => ?_⟩
  · obtain ⟨y', hy', -⟩ := hflight hi
    obtain ⟨z', hz', -⟩ := hflight hj
    exact h.alone i j y' z' hy' hz'
  · exact ⟨fun _ => ⟨call, x', hself⟩, fun _ => h.busy.mpr ⟨call, x, p, hcall, hx⟩⟩
  · by_cases hic : i = call
    · exact hic ▸ h.fresh call p hcall
    · simp only [View.set, Function.update_of_ne hic] at hi
      exact h.fresh i phase hi
  · obtain ⟨z, hz, ht, hc, hs⟩ := hflight hy
    obtain ⟨hzc, hzt, hlatest, hasked, hsnap⟩ := h.current i z hz
    refine ⟨by rw [hc]; exact hzc, by rw [ht]; exact hzt, by rw [ht]; exact hlatest,
      by rw [ht]; exact hasked, by rw [hs, hc]; exact hsnap⟩
  · by_cases hic : i = call
    · subst hic
      simp only [View.set, Function.update_self, Option.some.injEq] at hi
      exact hshown y hi
    · simp only [View.set, Function.update_of_ne hic] at hi
      exact h.rendering i y hi

theorem set_none_calls {s : View} {call i : ℕ} {phase : Phase}
    (hi : (s.set call none).calls i = some phase) : s.calls i = some phase := by
  by_cases hic : i = call
  · subst hic
    simp [View.set] at hi
  · simpa only [View.set, Function.update_of_ne hic] using hi

/-- A call without an exchange begins to wait, or ends. -/
theorem idle_sound {s : View} (h : Sound s) {call n : ℕ} {phase : Option Phase}
    (hold : ∀ p, s.calls call = some p → p.exchange = none)
    (hnew : ∀ p, phase = some p → p.exchange = none) (hn : s.next ≤ n) (hcall : call < n) :
    Sound { s with calls := Function.update s.calls call phase, next := n } := by
  have hflight : ∀ {i x}, InFlight { s with calls := Function.update s.calls call phase, next := n }
      i x ↔ InFlight s i x := by
    intro i x
    refine in_flight_update.trans ?_
    split_ifs with hi
    · subst hi
      constructor
      · rintro ⟨p, hp, hx⟩
        rw [hnew p hp] at hx
        cases hx
      · rintro ⟨p, hp, hx⟩
        rw [hold p hp] at hx
        cases hx
    · exact Iff.rfl
  refine ⟨fun i j x y hi hj => h.alone i j x y (hflight.mp hi) (hflight.mp hj), ?_,
    fun i p hi => ?_, h.history, h.sorted, h.shown,
    fun x hx => ⟨(h.past x hx).1, (h.past x hx).2.trans_le hn⟩, h.requests,
    fun r hr => (h.asked r hr).trans_le hn, fun i x hi => ?_, fun i x hi => ?_⟩
  · simp only [hflight]
    exact h.busy
  · by_cases hic : i = call
    · exact hic ▸ hcall
    · simp only [Function.update_of_ne hic] at hi
      exact (h.fresh i p hi).trans_le hn
  · obtain ⟨hc, ht, hl, ha, hs⟩ := h.current i x (hflight.mp hi)
    exact ⟨hc, ht.trans_le hn, hl, ha, hs⟩
  · by_cases hic : i = call
    · subst hic
      simp only [Function.update_self] at hi
      cases hnew _ hi
    · simp only [Function.update_of_ne hic] at hi
      exact h.rendering i x hi

/-- The call of the exchange in flight ends. -/
theorem release_none {s : View} (h : Sound s) {call : ℕ} {x : Exchange}
    (hx : InFlight s call x) (i : ℕ) (y : Exchange) : ¬ InFlight (s.set call none) i y := by
  rw [View.set, in_flight_update]
  split_ifs with hi
  · rintro ⟨p, hp, -⟩
    cases hp
  · exact fun hy => hi (h.alone i call y x hy hx)

theorem release_sound {s : View} (h : Sound s) {call : ℕ} {x : Exchange}
    (hx : InFlight s call x) : Sound (release s call) := by
  have hnone : ∀ i y, ¬ InFlight (release s call) i y := release_none h hx
  exact ⟨fun i j y z hi => absurd hi (hnone i y),
    ⟨fun hb => (nomatch hb), fun ⟨i, y, hi⟩ => absurd hi (hnone i y)⟩,
    fun i phase hi => h.fresh i phase (set_none_calls hi), h.history, h.sorted, h.shown, h.past,
    h.requests, h.asked, fun i y hi => absurd hi (hnone i y),
    fun i y hi => h.rendering i y (set_none_calls hi)⟩

theorem ofConversation_append (c : ℕ) (xs : List Exchange) (x : Exchange) :
    ofConversation c (xs++[x]) = ofConversation c xs++ofConversation c [x] :=
  List.filter_append ..

/-- An answer that comes in its conversation, as it is shown. -/
theorem push_sound {s : View} (h : Sound s) {call : ℕ} {x : Exchange} (hx : InFlight s call x)
    (hconversation : x.conversation = s.conversation) (hshown : x.answer = x.shown) :
    Sound (release (push s x) call) := by
  have hnone : ∀ i y, ¬ InFlight (release (push s x) call) i y := release_none h hx
  obtain ⟨-, hticket, hlatest, hasked, -⟩ := h.current call x hx
  refine ⟨fun i j y z hi => absurd hi (hnone i y),
    ⟨fun hb => (nomatch hb), fun ⟨i, y, hi⟩ => absurd hi (hnone i y)⟩,
    fun i phase hi => h.fresh i phase (set_none_calls (s := s) hi), ?_, ?_, ?_, ?_, ?_, h.asked,
    fun i y hi => absurd hi (hnone i y),
    fun i y hi => h.rendering i y (set_none_calls (s := s) hi)⟩
  · have hlast : ofConversation s.conversation [x] = [x] := by simp [ofConversation, hconversation]
    change s.history++x.messages =
      (ofConversation s.conversation (s.answered++[x])).flatMap Exchange.messages
    rw [ofConversation_append, hlast, List.flatMap_append, List.flatMap_singleton, h.history]
  · refine List.pairwise_append.mpr ⟨h.sorted, List.pairwise_singleton _ _, fun y hy z hz => ?_⟩
    rw [List.mem_singleton.mp hz]
    exact hlatest y hy
  · intro y hy
    rcases List.mem_append.mp hy with hold | hnew
    · exact h.shown y hold
    · rw [List.mem_singleton.mp hnew]
      exact hshown
  · intro y hy
    rcases List.mem_append.mp hy with hold | hnew
    · exact h.past y hold
    · rw [List.mem_singleton.mp hnew]
      exact ⟨hconversation.le, hticket⟩
  · intro r hr
    have hnew : (ofConversation r.conversation [x]).filter (fun y => y.ticket < r.ticket) = [] := by
      rw [List.filter_eq_nil_iff]
      intro y hy
      rw [List.mem_singleton.mp (mem_ofConversation.mp hy).1]
      simpa using hasked r hr
    change r.history = ((ofConversation r.conversation (s.answered++[x])).filter
      (fun y => y.ticket < r.ticket)).flatMap Exchange.messages
    rw [ofConversation_append, List.filter_append, hnew, List.append_nil]
    exact h.requests r hr

theorem reset_sound {s : View} (h : Sound s) : Sound (reset s) := by
  have hempty : ofConversation (s.conversation+1) s.answered = [] := by
    rw [ofConversation, List.filter_eq_nil_iff]
    intro x hx
    have hle := (h.past x hx).1
    simp only [decide_eq_true_eq]
    omega
  refine ⟨h.alone, h.busy, h.fresh, ?_, h.sorted, h.shown, fun x hx => ?_, h.requests, h.asked,
    fun i x hx => ?_, h.rendering⟩
  · simp [reset, hempty]
  · exact ⟨Nat.le_succ_of_le (h.past x hx).1, (h.past x hx).2⟩
  · obtain ⟨hc, ht, hl, ha, hs⟩ := h.current i x hx
    exact ⟨Nat.le_succ_of_le hc, ht, hl, ha, hs⟩

/-- The fallback asks again with the same history. -/
theorem again_sound {s : View} (h : Sound s) {call : ℕ} {x : Exchange} (hx : InFlight s call x) :
    Sound { s with requests := s.requests++[x.request false] } := by
  obtain ⟨-, ht, hl, ha, hs⟩ := h.current call x hx
  refine ⟨h.alone, h.busy, h.fresh, h.history, h.sorted, h.shown, h.past, fun r hr => ?_,
    fun r hr => ?_, fun i y hy => ?_, h.rendering⟩
  · rcases List.mem_append.mp hr with hold | hnew
    · exact h.requests r hold
    · rw [List.mem_singleton.mp hnew]
      exact hs.trans (congrArg (fun xs => xs.flatMap Exchange.messages) (filter_older hl).symm)
  · rcases List.mem_append.mp hr with hold | hnew
    · exact h.asked r hold
    · rw [List.mem_singleton.mp hnew]
      exact ht
  · obtain ⟨hyc, hyt, hyl, hya, hys⟩ := h.current i y hy
    refine ⟨hyc, hyt, hyl, fun r hr => ?_, hys⟩
    rcases List.mem_append.mp hr with hold | hnew
    · exact hya r hold
    · rw [List.mem_singleton.mp hnew]
      have hix : i = call := h.alone i call y x hy hx
      obtain ⟨p, hp, hpy⟩ := hy
      obtain ⟨p', hp', hpx⟩ := hx
      subst hix
      rw [hp] at hp'
      rw [← Option.some.inj hp', hpy] at hpx
      rw [Option.some.inj hpx]
      exact le_rfl

theorem send_sound {s : View} (h : Sound s) (query : String) (disabled client : Bool)
    (scope : ChatScope) : Sound (send s query disabled client scope) := by
  unfold send
  split_ifs with hblocked hclient
  · exact h
  · exact h
  · have hbusy : s.busy = false := by
      rw [not_or, not_or] at hblocked
      simpa using hblocked.2.1
    cases scope with
    | vault => exact start_sound h hbusy le_rfl query none
    | note file =>
      cases file with
      | none => exact h
      | some file =>
        refine idle_sound h (fun p hp => absurd (h.fresh s.next p hp) (lt_irrefl _)) ?_
          (Nat.le_succ _) (Nat.lt_succ_self _)
        intro p hp
        rw [← Option.some.inj hp]
        rfl

theorem step_sound (s : View) (e : Event) (t : View) (h : Sound s) (hcalm : Calm s e)
    (hstep : step s e = some t) : Sound t := by
  cases e with
  | send query disabled client scope =>
    simp only [step] at hstep
    split_ifs at hstep
    exact Option.some.inj hstep ▸ send_sound h query disabled client scope
  | read call content =>
    simp only [step] at hstep
    split at hstep
    · rename_i query file hcall
      rw [← Option.some.inj hstep]
      exact start_sound h (hcalm query file hcall) (h.fresh call _ hcall).le query _
    · cases hstep
  | readFailed call =>
    simp only [step] at hstep
    split at hstep
    · rename_i query file hcall
      rw [← Option.some.inj hstep]
      refine idle_sound h (fun p hp => ?_) (fun _ hp => (nomatch hp)) le_rfl (h.fresh call _ hcall)
      rw [hcall] at hp
      rw [← Option.some.inj hp]
      rfl
    · cases hstep
  | event call ev =>
    simp only [step] at hstep
    split at hstep
    · rename_i x hcall
      rw [← Option.some.inj hstep]
      refine set_sound h hcall rfl rfl ?_ ?_ ?_ (fun _ hy => (nomatch hy)) <;> cases ev <;> rfl
    · cases hstep
  | streamEnd call =>
    simp only [step] at hstep
    split at hstep
    · rename_i x hcall
      rw [← Option.some.inj hstep]
      refine set_sound h hcall rfl rfl rfl rfl rfl (fun y hy => ?_)
      rw [← Phase.rendering.inj hy]
    · cases hstep
  | streamFailed call =>
    simp only [step] at hstep
    split at hstep
    · rename_i x hcall
      rw [← Option.some.inj hstep]
      have hset : Sound (s.set call (some (.fallingBack x))) :=
        set_sound h hcall rfl rfl rfl rfl rfl (fun _ hy => (nomatch hy))
      exact again_sound hset ⟨.fallingBack x, Function.update_self .., rfl⟩
    · cases hstep
  | fallback call answer citations =>
    simp only [step] at hstep
    split at hstep
    · rename_i x hcall
      rw [← Option.some.inj hstep]
      refine set_sound h hcall rfl rfl rfl rfl rfl (fun y hy => ?_)
      rw [← Phase.rendering.inj hy]
    · cases hstep
  | fallbackFailed call =>
    simp only [step] at hstep
    split at hstep
    · rename_i x hcall
      exact Option.some.inj hstep ▸ release_sound h ⟨_, hcall, rfl⟩
    · cases hstep
  | rendered call =>
    simp only [step] at hstep
    split at hstep
    · rename_i x hcall
      obtain ⟨hconversation, hanswer⟩ := hcalm x hcall
      have hshown := h.rendering call x hcall
      rw [display, if_neg hanswer] at hshown
      exact Option.some.inj hstep ▸ push_sound h ⟨_, hcall, rfl⟩ hconversation hshown.symm
    · cases hstep
  | renderFailed call =>
    simp only [step] at hstep
    split at hstep
    · rename_i x hcall
      exact Option.some.inj hstep ▸ release_sound h ⟨_, hcall, rfl⟩
    · cases hstep
  | newChat =>
    simp only [step] at hstep
    split_ifs at hstep
    exact Option.some.inj hstep ▸ reset_sound h
  | close =>
    simp only [step] at hstep
    split_ifs at hstep
    rw [← Option.some.inj hstep]
    exact ⟨h.alone, h.busy, h.fresh, h.history, h.sorted, h.shown, h.past, h.requests, h.asked,
      fun i x hx => ⟨(h.current i x hx).1, (h.current i x hx).2, (h.current i x hx).3,
        (h.current i x hx).4, (h.current i x hx).5⟩, h.rendering⟩

/-- A step that is not calm leaves the session inconsistent. -/
theorem step_bad (s : View) (e : Event) (h : Sound s) (hbad : ¬ Calm s e) :
    ∃ t, step s e = some t ∧ ¬ Consistent t := by
  cases e with
  | read call content =>
    simp only [Calm, not_forall] at hbad
    obtain ⟨query, file, hcall, hbusy⟩ := hbad
    rw [Bool.not_eq_false] at hbusy
    refine ⟨start s call query (some ⟨file.path,file.basename,content⟩), by simp [step, hcall],
      fun hc => ?_⟩
    obtain ⟨i, x, p, hi, hx⟩ := h.busy.mp hbusy
    have hne : i ≠ call := by
      rintro rfl
      rw [hcall] at hi
      rw [← Option.some.inj hi] at hx
      cases hx
    have hold : InFlight (start s call query (some ⟨file.path,file.basename,content⟩)) i x :=
      ⟨p, by simp only [start, Function.update_of_ne hne, hi], hx⟩
    exact hne (hc.alone i call _ _ hold ⟨_, Function.update_self .., rfl⟩)
  | rendered call =>
    simp only [Calm, not_forall] at hbad
    obtain ⟨x, hcall, hnot⟩ := hbad
    refine ⟨release (push s x) call, by simp [step, hcall], fun hc => ?_⟩
    by_cases hconversation : x.conversation = s.conversation
    · have hempty : x.answer = "" := by
        by_contra hne
        exact hnot ⟨hconversation, hne⟩
      have hmem : x ∈ ofConversation s.conversation (s.answered++[x]) :=
        mem_ofConversation.mpr ⟨by simp, hconversation⟩
      have hshown := hc.shown x hmem
      rw [h.rendering call x hcall, hempty] at hshown
      exact absurd hshown (by decide)
    · have hlast : ofConversation s.conversation [x] = [] := by
        simp [ofConversation, hconversation]
      have hhistory : s.history++x.messages =
          (ofConversation s.conversation (s.answered++[x])).flatMap Exchange.messages := hc.history
      rw [ofConversation_append, hlast, List.append_nil, ← h.history] at hhistory
      simp [Exchange.messages] at hhistory
  | _ => exact absurd trivial hbad

/-- A session is consistent all along a run if and only if every step of the
run is calm. -/
theorem session_iff (events : List Event) :
    Machine.Always step Consistent opened events ↔ Machine.Meets step Calm opened events :=
  Machine.always_iff_meets step_sound (fun _ h => h.consistent) step_bad events opened sound_opened

namespace AnsweredLate

def events : List Event :=
  [.send "What did I plan?" false true .vault,.newChat,.event 0 (.token "A trip."),.streamEnd 0,
    .rendered 0]

theorem mixed : ¬ Machine.Always step Consistent opened events := by
  intro h
  have hlast := Machine.always_last events opened h rfl
  exact absurd hlast.history (by decide)

end AnsweredLate

end Uru.Sidecar.ChatView
