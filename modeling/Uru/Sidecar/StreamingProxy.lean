import Uru.Filter.Value
import Uru.Lib.LineFeed

/-!
# The streaming proxy

The proxy passes an event stream through chunk by chunk and reads along: every
complete line with a `data: ` event may set the finish reason and add to the
content that is recorded when the stream ends. The reading loop catches some
of the errors an event can raise. One that it does not catch ends the stream.
How an event text decodes is a parameter.
-/

set_option autoImplicit false

namespace Uru.Sidecar.StreamingProxy
open Uru.Lib Uru.Filter

abbrev Bytes := List UInt8

def ascii (s : String) : Bytes := s.toList.map (fun c => UInt8.ofNat c.toNat)

inductive PyError
  | valueError | indexError | attributeError | keyError | typeError | recursionError
deriving DecidableEq

/-- The errors that the reading loop names. -/
def caught : PyError → Bool
  | .valueError | .indexError | .attributeError => true
  | .keyError | .typeError | .recursionError => false

def truthy : Val → Bool
  | .null => false
  | .bool b => b
  | .int i => i ≠ 0
  | .float f => f.value ≠ .fin 0
  | .str s => s ≠ []
  | .datetime _ => true
  | .list xs => !xs.isEmpty
  | .dict kvs => !kvs.isEmpty

/-- `v.get(key)`, which is null for a missing key. -/
def getKey (v : Val) (key : String) : Except PyError Val :=
  match v with
  | .dict kvs => .ok ((kvs.lookup (py key)).getD .null)
  | _ => .error .attributeError

/-- `v[0]`. The keys of a JSON object are texts, so that none of them is 0. -/
def firstItem : Val → Except PyError Val
  | .list (x::_) => .ok x
  | .list [] => .error .indexError
  | .str (c::_) => .ok (.str [c])
  | .str [] => .error .indexError
  | .dict _ => .error .keyError
  | _ => .error .typeError

def choiceOf (ev : Val) : Except PyError Val := do
  let choices ← getKey ev "choices"
  firstItem (if truthy choices then choices else .list [.dict []])

def deltaOf (choice : Val) : Except PyError Val := do
  let delta ← getKey choice "delta"
  getKey (if truthy delta then delta else .dict []) "content"

structure Watch where
  finishReason : Option Val
  contentParts : List Val

/-- One event: the finish reason is set before the content is looked at. -/
def observe (w : Watch) (ev : Except PyError Val) : Watch × Option PyError :=
  match ev.bind choiceOf with
  | .error e => (w,some e)
  | .ok choice =>
    match getKey choice "finish_reason" with
    | .error e => (w,some e)
    | .ok fr =>
      let w := if truthy fr then { w with finishReason := some fr } else w
      match deltaOf choice with
      | .error e => (w,some e)
      | .ok delta =>
        (if truthy delta then { w with contentParts := w.contentParts++[delta] } else w,none)

def isSpace (b : UInt8) : Bool := b ∈ [9,10,11,12,13,32]

def strip (line : Bytes) : Bytes := ((line.dropWhile isSpace).reverse.dropWhile isSpace).reverse

/-- The event text of a line, unless the line is skipped. -/
def payload (raw : Bytes) : Option Bytes :=
  let line := strip raw
  if (ascii "data: ").isPrefixOf line && !(ascii "[DONE]").isSuffixOf line then
    some (line.drop (ascii "data: ").length)
  else none

section Stream

variable (loads : Bytes → Except PyError Val)

def readLine (w : Watch) (raw : Bytes) : Watch × Option PyError :=
  match payload raw with
  | none => (w,none)
  | some text =>
    let r := observe w (loads text)
    (r.1,r.2.filter (fun e => !caught e))

def newline : UInt8 := 10

/-- The loop over the upstream's chunks: each is passed on before it is read. -/
def forward (chunks : List Bytes) : List Bytes × Watch × Option PyError :=
  feed newline (readLine loads) ⟨none,[]⟩ [] chunks

structure Response where
  content : PyStr
  finishReason : Option Val

structure Config where
  /-- A raw log is kept. -/
  rawLog : Bool
  /-- Finished calls are reported to the runtime. -/
  onChatCompletion : Bool

structure Outcome where
  yielded : List Bytes
  raised : Option PyError
  logged : Option Response
  /-- The finish reason the runtime keeps. -/
  reported : Option (Option Val)

def asText : Val → Option PyStr
  | .str s => some s
  | _ => none

/-- `"".join(parts)`. -/
def joinParts (parts : List Val) : Except PyError PyStr :=
  match parts.mapM asText with
  | some texts => .ok texts.flatten
  | none => .error .typeError

/-- The runtime keeps the call and then lowers its finish reason. -/
def hitCap (finishReason : Option Val) : Option PyError :=
  match finishReason with
  | some (.str _) => none
  | some _ => some .attributeError
  | none => none

/-- The clean-up: an error of its own takes the place of the one under way. -/
def finish (cfg : Config) (yielded : List Bytes) (w : Watch) (raised : Option PyError) : Outcome :=
  let report (logged : Option Response) : Outcome :=
    if cfg.onChatCompletion then
      { yielded := yielded
        raised := (hitCap w.finishReason).or raised
        logged := logged
        reported := some w.finishReason }
    else { yielded := yielded, raised := raised, logged := logged, reported := none }
  if cfg.rawLog then
    match joinParts w.contentParts with
    | .ok content => report (some ⟨content,w.finishReason⟩)
    | .error e => { yielded := yielded, raised := some e, logged := none, reported := none }
  else report none

def upstream (cfg : Config) (chunks : List Bytes) : Outcome :=
  let r := forward loads chunks
  finish cfg r.1 r.2.1 r.2.2

/-- Whatever the cut points, every chunk is passed on, nothing is raised, and
one and the same content and finish reason are recorded. -/
def Transparent (cfg : Config) (stream : Bytes) : Prop :=
  ∃ logged reported, ∀ chunks : List Bytes, chunks.flatten = stream →
    upstream loads cfg chunks = ⟨chunks,none,logged,reported⟩

def events (stream : Bytes) : List (Except PyError Val) :=
  ((pieces newline stream).1.filterMap payload).map loads

end Stream

def finishReasonOf (ev : Except PyError Val) : Option Val :=
  match (ev.bind choiceOf).bind (getKey · "finish_reason") with
  | .ok fr => if truthy fr then some fr else none
  | .error _ => none

def contentOf (ev : Except PyError Val) : Option Val :=
  match (ev.bind choiceOf).bind deltaOf with
  | .ok delta => if truthy delta then some delta else none
  | .error _ => none

/-- What `v[0]` can be taken of without an error that the loop leaves uncaught. -/
def subscriptable : Val → Bool
  | .list _ | .str _ => true
  | _ => false

def Watch.extend (w : Watch) (fr delta : Option Val) : Watch where
  finishReason := fr.or w.finishReason
  contentParts := w.contentParts++delta.toList

def Watch.after (w : Watch) (evs : List (Except PyError Val)) : Watch where
  finishReason := (evs.filterMap finishReasonOf).getLast?.or w.finishReason
  contentParts := w.contentParts++evs.filterMap contentOf

theorem Watch.after_cons (w : Watch) (ev : Except PyError Val) (evs : List (Except PyError Val)) :
    w.after (ev::evs) = (w.extend (finishReasonOf ev) (contentOf ev)).after evs := by
  cases hf : finishReasonOf ev <;> cases hd : contentOf ev <;>
    simp [Watch.after, Watch.extend, hf, hd, List.getLast?_cons]

def raisedBy (ev : Except PyError Val) : Option PyError :=
  match (ev.bind choiceOf).bind deltaOf with
  | .error e => some e
  | .ok _ => none

theorem getKey_error (v : Val) (key : String) (e : PyError) (h : getKey v key = .error e) :
    e = .attributeError ∧ ∀ key', getKey v key' = .error .attributeError := by
  unfold getKey at h ⊢
  split at h
  · cases h
  · cases h
    exact ⟨rfl,fun _ => rfl⟩

theorem observe_eq (w : Watch) (ev : Except PyError Val) :
    observe w ev = (w.extend (finishReasonOf ev) (contentOf ev),raisedBy ev) := by
  unfold observe finishReasonOf contentOf raisedBy
  cases hc : ev.bind choiceOf with
  | error e => simp [Except.bind, Watch.extend]
  | ok choice =>
    cases hf : getKey choice "finish_reason" with
    | error e =>
      obtain ⟨rfl, hall⟩ := getKey_error choice _ e hf
      simp [Except.bind, Watch.extend, hf, deltaOf, hall, bind]
    | ok fr =>
      cases hd : deltaOf choice with
      | error e => by_cases ht : truthy fr <;> simp [Except.bind, Watch.extend, hf, hd, ht]
      | ok delta =>
        by_cases ht : truthy fr <;> by_cases hx : truthy delta <;>
          simp [Except.bind, Watch.extend, hf, hd, ht, hx]

theorem deltaOf_error (choice : Val) (e : PyError) (h : deltaOf choice = .error e) :
    e = .attributeError := by
  unfold deltaOf at h
  cases hd : getKey choice "delta" with
  | error e' =>
    simp only [hd, bind, Except.bind] at h
    cases h
    exact (getKey_error choice _ e hd).1
  | ok delta =>
    simp only [hd, bind, Except.bind] at h
    exact (getKey_error _ _ e h).1

/-- The event decodes, or fails to in a way the loop catches, and its choices
are a list or a text unless they count as missing. -/
structure Tame (ev : Except PyError Val) : Prop where
  decodes : ∀ e, ev = .error e → caught e = true
  choices : ∀ kvs c, ev = .ok (.dict kvs) → kvs.lookup (py "choices") = some c →
    truthy c = true → subscriptable c = true

theorem firstItem_uncaught (c : Val) (ht : truthy c = true) (hs : subscriptable c = false) :
    ∃ e, firstItem c = .error e ∧ caught e = false := by
  cases c with
  | list xs => cases hs
  | str s => cases hs
  | null => cases ht
  | dict kvs => exact ⟨.keyError,rfl,rfl⟩
  | bool b => exact ⟨.typeError,rfl,rfl⟩
  | int i => exact ⟨.typeError,rfl,rfl⟩
  | float f => exact ⟨.typeError,rfl,rfl⟩
  | datetime d => exact ⟨.typeError,rfl,rfl⟩

theorem firstItem_caught (c : Val) (hs : subscriptable c = true) (e : PyError)
    (h : firstItem c = .error e) : caught e = true := by
  cases c with
  | list xs => cases xs <;> cases h; rfl
  | str s => cases s <;> cases h; rfl
  | _ => cases hs

theorem choiceOf_caught (kvs : Dict)
    (h : ∀ c, kvs.lookup (py "choices") = some c → truthy c = true → subscriptable c = true)
    (e : PyError) (he : choiceOf (.dict kvs) = .error e) : caught e = true := by
  change firstItem _ = .error e at he
  split at he
  · rename_i ht
    refine firstItem_caught _ ?_ e he
    cases hl : kvs.lookup (py "choices") with
    | none => simp [hl, truthy] at ht
    | some c =>
      rw [hl] at ht
      exact h c hl ht
  · cases he

theorem uncaught_none_iff (ev : Except PyError Val) :
    (raisedBy ev).filter (fun e => !caught e) = none ↔ Tame ev := by
  constructor
  · intro h
    refine ⟨fun e he => ?_,fun kvs c he hl ht => ?_⟩
    · subst he
      simpa [raisedBy, Except.bind] using h
    · subst he
      by_contra hs
      obtain ⟨e, hf, hu⟩ := firstItem_uncaught c ht (by simpa using hs)
      have hc : choiceOf (.dict kvs) = .error e := by
        change firstItem _ = .error e
        rw [hl]
        simpa [ht] using hf
      simp [raisedBy, Except.bind, hc, hu] at h
  · intro h
    rw [Option.filter_eq_none_iff]
    intro e he
    suffices hcaught : caught e = true by simp [hcaught]
    unfold raisedBy at he
    cases ev with
    | error e' =>
      cases he
      exact h.decodes e rfl
    | ok v =>
      cases hc : choiceOf v with
      | ok choice =>
        simp only [Except.bind, hc] at he
        split at he
        · rename_i e' hd
          cases he
          rw [deltaOf_error choice e hd]
          rfl
        · cases he
      | error e' =>
        simp only [Except.bind, hc] at he
        cases he
        cases v with
        | dict kvs => exact choiceOf_caught kvs (fun c => h.choices kvs c rfl) e hc
        | _ =>
          cases hc
          rfl

section Stream

variable (loads : Bytes → Except PyError Val)

/-- No event raises an error that the loop leaves uncaught, the content parts
that a raw log joins are texts, and so is the finish reason reported last. -/
structure Harmless (cfg : Config) (stream : Bytes) : Prop where
  tame : ∀ ev ∈ events loads stream, Tame ev
  contents : cfg.rawLog = true →
    ∀ delta ∈ (events loads stream).filterMap contentOf, (asText delta).isSome
  reason : cfg.onChatCompletion = true →
    ∀ fr ∈ ((events loads stream).filterMap finishReasonOf).getLast?, (asText fr).isSome

def failure (raw : Bytes) : Option PyError :=
  (payload raw).bind (fun text => (raisedBy (loads text)).filter (fun e => !caught e))

theorem readLine_failure (w : Watch) (raw : Bytes) :
    (readLine loads w raw).2 = failure loads raw := by
  unfold readLine failure
  cases payload raw with
  | none => rfl
  | some text => simp [observe_eq]

theorem failure_none_iff (stream : Bytes) :
    (∀ raw ∈ (pieces newline stream).1, failure loads raw = none) ↔
      ∀ ev ∈ events loads stream, Tame ev := by
  simp only [events, List.mem_map, List.mem_filterMap, failure]
  constructor
  · rintro h ev ⟨text, ⟨raw, hm, hp⟩, rfl⟩
    have hn := h raw hm
    rw [hp] at hn
    exact (uncaught_none_iff _).mp hn
  · intro h raw hm
    cases hp : payload raw with
    | none => rfl
    | some text => exact (uncaught_none_iff _).mpr (h _ ⟨text,⟨raw,hm,hp⟩,rfl⟩)

theorem readLines_state (w : Watch) (raws : List Bytes) :
    raws.foldl (fun w raw => (readLine loads w raw).1) w =
      w.after ((raws.filterMap payload).map loads) := by
  induction raws generalizing w with
  | nil => simp [Watch.after]
  | cons raw raws ih =>
    rw [List.foldl_cons, ih]
    cases hp : payload raw with
    | none => simp [readLine, hp]
    | some text =>
      rw [List.filterMap_cons_some hp, List.map_cons, Watch.after_cons]
      simp only [readLine, hp, observe_eq]

/-- The state and the failure at the end of a stream, however it was cut. -/
theorem forward_outcome (chunks : List Bytes) :
    (forward loads chunks).2 =
      consume (readLine loads) ⟨none,[]⟩ (pieces newline chunks.flatten).1 :=
  feed_outcome newline (readLine loads) ⟨none,[]⟩ [] chunks List.not_mem_nil

theorem forward_quiet_iff (chunks : List Bytes) :
    (forward loads chunks).2.2 = none ↔ ∀ ev ∈ events loads chunks.flatten, Tame ev := by
  rw [forward_outcome, consume_none_iff _ (failure loads) (readLine_failure loads),
    failure_none_iff]

theorem forward_quiet (chunks : List Bytes)
    (h : ∀ ev ∈ events loads chunks.flatten, Tame ev) :
    forward loads chunks = (chunks,Watch.after ⟨none,[]⟩ (events loads chunks.flatten),none) := by
  have hquiet := (forward_quiet_iff loads chunks).mpr h
  have hpass := feed_passes newline (readLine loads) ⟨none,[]⟩ [] chunks hquiet
  have hout := forward_outcome loads chunks
  have hstate : (forward loads chunks).2.1 =
      Watch.after ⟨none,[]⟩ (events loads chunks.flatten) := by
    rw [hout] at hquiet ⊢
    rw [consume_state _ _ _ hquiet]
    exact readLines_state loads ⟨none,[]⟩ (pieces newline chunks.flatten).1
  exact Prod.ext hpass (Prod.ext hstate hquiet)

end Stream

theorem mapM_isSome_iff {α β : Type} (f : α → Option β) (xs : List α) :
    (∃ ys, xs.mapM f = some ys) ↔ ∀ x ∈ xs, (f x).isSome := by
  induction xs with
  | nil => simp
  | cons x xs ih =>
    rw [List.forall_mem_cons, ← ih, List.mapM_cons]
    cases f x with
    | none => simp
    | some y => cases xs.mapM f <;> simp

theorem joinParts_ok_iff (parts : List Val) :
    (∃ content, joinParts parts = .ok content) ↔ ∀ delta ∈ parts, (asText delta).isSome := by
  unfold joinParts
  cases hm : parts.mapM asText with
  | none =>
    simp only [reduceCtorEq, exists_false, false_iff]
    intro h
    obtain ⟨texts, ht⟩ := (mapM_isSome_iff asText parts).mpr h
    simp [hm] at ht
  | some texts =>
    simp only [Except.ok.injEq, exists_eq', true_iff]
    exact (mapM_isSome_iff asText parts).mp ⟨texts,hm⟩

theorem hitCap_none_iff (fr : Option Val) :
    hitCap fr = none ↔ ∀ v ∈ fr, (asText v).isSome := by
  cases fr with
  | none => simp [hitCap]
  | some v => cases v <;> simp [hitCap, asText]

/-- The clean-up adds no error of its own exactly when what it joins and
lowers is text. -/
theorem finish_quiet_iff (cfg : Config) (yielded : List Bytes) (w : Watch)
    (raised : Option PyError) :
    (finish cfg yielded w raised).raised = none ↔ raised = none ∧
      (cfg.rawLog = true → ∀ delta ∈ w.contentParts, (asText delta).isSome) ∧
      (cfg.onChatCompletion = true → ∀ fr ∈ w.finishReason, (asText fr).isSome) := by
  rw [← joinParts_ok_iff, ← hitCap_none_iff]
  unfold finish
  by_cases hl : cfg.rawLog = true <;> by_cases hc : cfg.onChatCompletion = true
  · cases hj : joinParts w.contentParts <;>
      simp [hl, hc, Option.or_eq_none_iff, and_comm]
  · cases hj : joinParts w.contentParts <;> simp [hl, hc]
  · simp [hl, hc, Option.or_eq_none_iff, and_comm]
  · simp [hl, hc]

theorem finish_yielded (cfg : Config) (yielded : List Bytes) (w : Watch)
    (raised : Option PyError) :
    finish cfg yielded w raised = { finish cfg [] w raised with yielded := yielded } := by
  unfold finish
  by_cases hl : cfg.rawLog = true <;> by_cases hc : cfg.onChatCompletion = true
  · cases hj : joinParts w.contentParts <;> simp [hl, hc]
  · cases hj : joinParts w.contentParts <;> simp [hl, hc]
  · simp [hl, hc]
  · simp [hl, hc]

theorem upstream_quiet_iff (loads : Bytes → Except PyError Val) (cfg : Config)
    (chunks : List Bytes) :
    (upstream loads cfg chunks).raised = none ↔ Harmless loads cfg chunks.flatten := by
  unfold upstream
  rw [finish_quiet_iff, forward_quiet_iff]
  constructor
  · rintro ⟨ht, hcontents, hreason⟩
    rw [forward_quiet loads chunks ht] at hcontents hreason
    exact ⟨ht,by simpa [Watch.after] using hcontents,by simpa [Watch.after] using hreason⟩
  · rintro ⟨ht, hcontents, hreason⟩
    rw [forward_quiet loads chunks ht]
    exact ⟨ht,by simpa [Watch.after] using hcontents,by simpa [Watch.after] using hreason⟩

/-- The proxy is transparent on the harmless streams and on no other. -/
theorem transparent_iff (loads : Bytes → Except PyError Val) (cfg : Config) (stream : Bytes) :
    Transparent loads cfg stream ↔ Harmless loads cfg stream := by
  constructor
  · rintro ⟨logged, reported, hall⟩
    have hone := hall [stream] (by simp)
    have hquiet := (upstream_quiet_iff loads cfg [stream]).mp (by rw [hone])
    simpa using hquiet
  · intro h
    let w := Watch.after ⟨none,[]⟩ (events loads stream)
    refine ⟨(finish cfg [] w none).logged,(finish cfg [] w none).reported,fun chunks hc => ?_⟩
    subst hc
    have hraised := (upstream_quiet_iff loads cfg chunks).mpr h
    unfold upstream at hraised ⊢
    rw [forward_quiet loads chunks h.tame, finish_yielded] at hraised ⊢
    simp only at hraised ⊢
    rw [hraised]

/-- On any stream, cut anywhere, what reaches the client is a beginning of the
chunks, and it is all of them unless the reading loop fails. -/
theorem upstream_yielded (loads : Bytes → Except PyError Val) (cfg : Config)
    (chunks : List Bytes) :
    (upstream loads cfg chunks).yielded <+: chunks := by
  unfold upstream
  rw [finish_yielded]
  exact feed_prefix newline (readLine loads) ⟨none,[]⟩ [] chunks

def numberChoices : Bytes := ascii "\x7b\"choices\":1\x7d"

def loadsNumber (text : Bytes) : Except PyError Val :=
  if text = numberChoices then .ok (.dict [(py "choices",.int 1)]) else .error .valueError

/-- The event is followed by another chunk, which the client never gets. -/
theorem number_choices_truncate :
    (upstream loadsNumber ⟨false,true⟩
      [ascii "data: "++numberChoices++[newline],ascii "data: [DONE]"++[newline]]).yielded =
        [ascii "data: "++numberChoices++[newline]] ∧
    ¬Transparent loadsNumber ⟨false,true⟩
      (ascii "data: "++numberChoices++[newline]++(ascii "data: [DONE]"++[newline])) := by
  have hcut : (upstream loadsNumber ⟨false,true⟩
      [ascii "data: "++numberChoices++[newline],ascii "data: [DONE]"++[newline]]).yielded =
        [ascii "data: "++numberChoices++[newline]] := by decide
  refine ⟨hcut,?_⟩
  rintro ⟨logged, reported, hall⟩
  have hyield := congrArg Outcome.yielded
    (hall [ascii "data: "++numberChoices++[newline],ascii "data: [DONE]"++[newline]] (by simp))
  rw [hcut] at hyield
  cases hyield

end Uru.Sidecar.StreamingProxy
