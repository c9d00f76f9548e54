import Mathlib.Data.List.SplitBy
import Uru.Lib.SortOn

/-!
# Grouping messages into conversations

`chunk_messages` sorts the messages by time, takes the threads and the windows
of the other messages, slices what is too large, merges what is too small into
its neighbour and numbers the sessions. Times are counted in microseconds, and
differences of them are compared exactly.
-/

set_option autoImplicit false

namespace Uru.Chunking.Conversation

open Uru.Lib

/-- A JSON null, or a `datetime` without or with an offset from UTC. -/
inductive Timestamp where
  | null
  | naive (clock : ℤ)
  | aware (clock utcoffset : ℤ)
deriving DecidableEq

/-- Neither `<` nor `-` raises a `TypeError`. -/
def Timestamp.comparable : Timestamp → Timestamp → Bool
  | .naive _, .naive _ => true
  | .aware _ _, .aware _ _ => true
  | _, _ => false

def Timestamp.instant : Timestamp → ℤ
  | .null => 0  -- compared with nothing
  | .naive clock => clock
  | .aware clock utcoffset => clock-utcoffset

inductive Raised where
  | typeError
  | attributeError
deriving DecidableEq

structure SlackMessage where
  messageId : String
  timestamp : Timestamp
  threadTs : Option String
deriving DecidableEq

structure ConversationChunkerConfig where
  timeGapMinutes : ℤ
  sessionGapMinutes : ℤ
  maxGroupSize : ℕ
  minGroupSize : ℤ
  max_pos : 0 < maxGroupSize

abbrev Group := List SlackMessage

/-- `if msg.thread_ts`. -/
def SlackMessage.thread (m : SlackMessage) : Option String :=
  m.threadTs.filter (fun t => t ≠ "")

def minutes (n : ℤ) : ℤ := n*60*1000000

def SlackMessage.instant (m : SlackMessage) : ℤ := m.timestamp.instant

def comparable (ms : Group) : Bool :=
  decide (ms.Pairwise (fun a b => a.timestamp.comparable b.timestamp = true))

/-- `sorted` raises where two timestamps cannot be compared: it has to compare
messages until each is ordered with each. -/
def sort (ms : Group) : Except Raised Group :=
  if comparable ms then .ok (sortOn SlackMessage.instant ms) else .error .typeError

/-- `threads.setdefault(ts, []).append(msg)`. -/
def append (threads : List (String × Group)) (ts : String) (m : SlackMessage) :
    List (String × Group) :=
  if ts ∈ threads.map Prod.fst then
    threads.map (fun t => if t.1 = ts then (t.1,t.2++[m]) else t)
  else threads++[(ts,[m])]

def collect (s : List (String × Group) × Group) (m : SlackMessage) : List (String × Group) × Group :=
  match m.thread with
  | some ts => (append s.1 ts m,s.2)
  | none => (s.1,s.2++[m])

def groupByThreads (messages : Group) : Except Raised (List (String × Group) × Group) := do
  let s := messages.foldl collect ([],[])
  let threads ← s.1.mapM (fun t => do return (t.1,← sort t.2))
  return (threads,s.2)

-- From here on the messages are sorted, so any two timestamps can be subtracted.
def splitByTimeGaps (messages : Group) (gapMinutes : ℤ) : List Group :=
  messages.splitBy (fun prev m => m.instant-prev.instant ≤ minutes gapMinutes)

/-- `group[i : i + max_size]` for every `i` in steps of `max_size`. -/
def slices (maxSize : ℕ) (h : 0 < maxSize) : Group → List Group
  | [] => []
  | m::ms => (m::ms).take maxSize::slices maxSize h ((m::ms).drop maxSize)
termination_by g => g.length
decreasing_by
  rw [List.length_drop, List.length_cons]
  omega

def splitOversized (cfg : ConversationChunkerConfig) (groups : List Group) : List Group :=
  groups.flatMap (fun g =>
    if g.length ≤ cfg.maxGroupSize then [g] else slices cfg.maxGroupSize cfg.max_pos g)

/-- The loop that merges undersized groups; `last` is `merged[-1]`. -/
def mergeGroups (minSize : ℤ) (last : Group) : List Group → List Group
  | [] => [last]
  | g::gs =>
    if (last.length:ℤ) < minSize ∨ (g.length:ℤ) < minSize then mergeGroups minSize (last++g) gs
    else last::mergeGroups minSize g gs

def mergeLast (minSize : ℤ) : List Group → List Group
  | [] => []
  | [g] => [g]
  | [g,last] => if (last.length:ℤ) < minSize then [g++last] else [g,last]
  | g::h::gs => g::mergeLast minSize (h::gs)

def mergeUndersized (minSize : ℤ) : List Group → List Group
  | [] => []
  | g::gs => mergeLast minSize (mergeGroups minSize g gs)

def parts (cfg : ConversationChunkerConfig) (messages : Group) : Except Raised (List Group) := do
  let (threads,topLevel) ← groupByThreads (← sort messages)
  return splitOversized cfg
    (threads.map Prod.snd++splitByTimeGaps topLevel cfg.timeGapMinutes)

def separated (cfg : ConversationChunkerConfig) (prev curr : Group) : Bool :=
  match (prev.map SlackMessage.instant).max?, (curr.map SlackMessage.instant).min? with
  | some prevEnd, some currStart => minutes cfg.sessionGapMinutes < currStart-prevEnd
  | _, _ => false

def number (cfg : ConversationChunkerConfig) (session : ℕ) (prev : Group) : List Group → List ℕ
  | [] => []
  | g::gs =>
    let session := if separated cfg prev g then session+1 else session
    session::number cfg session g gs

def assignSessionIds (cfg : ConversationChunkerConfig) : List Group → List ℕ
  | [] => []
  | g::gs => 0::number cfg 0 g gs

/-- A chunk is a group with its session; its text takes the time of day of each
message, and null has none. -/
def buildChunkResult (c : Group × ℕ) : Except Raised (Group × ℕ) :=
  if c.1.any (fun m => m.timestamp = .null) then .error .attributeError else .ok c

def chunkMessages (cfg : ConversationChunkerConfig) (messages : Group) :
    Except Raised (List (Group × ℕ)) := do
  let allGroups := mergeUndersized cfg.minGroupSize (← parts cfg messages)
  ((allGroups.zip (assignSessionIds cfg allGroups)).filter (fun c => !c.1.isEmpty)).mapM
    buildChunkResult

end Uru.Chunking.Conversation
