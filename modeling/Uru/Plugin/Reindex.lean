import Uru.Lib.Machine
import Uru.Indexing.Resume

/-!
# Re-indexing and the interrupted flag

The plugin saves the interrupted flag before a full index and settles it from
what the index returned and from the last progress tick. The process may die
before the flag is saved, during the index, or before the outcome is saved;
it then restarts from the saved settings and the saved state file.
-/

set_option autoImplicit false

namespace Uru.Plugin
open Uru.Lib Uru.Lib.Machine Uru.Indexing

structure Settings where
  lastIndexedAt : Option ℕ
  indexInterrupted : Bool
  indexRemaining : Option ℕ
  deriving DecidableEq

/-- The last progress tick of a run: notes done and notes in all. -/
def lastRun (es : List Effect) : Option (ℕ × ℕ) :=
  es.foldl (fun r e => match e with
    | .status done total => some (done,total)
    | _ => r) none

def Settings.started (s : Settings) : Settings :=
  { s with indexInterrupted := true, indexRemaining := none }

def Settings.ended (s : Settings) (completed : Bool) (es : List Effect) (now : ℕ) : Settings :=
  if completed then
    { s with lastIndexedAt := some now, indexInterrupted := false, indexRemaining := none }
  else match lastRun es with
    | some (done,total) => { s with indexRemaining := some (total-done) }
    | none => { s with indexInterrupted := false, indexRemaining := none }

inductive Death where
  | none
  | beforeMark
  | running (crash : Crash)
  | beforeOutcome

structure Attempt where
  indexer : Bool
  inv : Invocation
  now : ℕ
  death : Death

inductive Outcome where
  /-- Nothing was marked: there is no indexer yet, or the process died first. -/
  | notMarked
  /-- The process died in the run, or the run ended early after a tick. -/
  | cutShort
  /-- The run ended early before its first tick. -/
  | notStarted
  | completed
  deriving DecidableEq

structure Report where
  outcome : Outcome
  unsent : Bool
  deriving DecidableEq

structure State where
  settings : Settings
  world : World
  history : List Report

def unsentNotes (hash : Text → String) (inv : Invocation) (s : HashStore) : Bool :=
  (eligible inv.settings inv.vault).any (fun file =>
    match toDocument hash inv.settings file with
    | .ok (some doc) => !s.isUnchanged file.path doc.hash
    | _ => false)

def outcome (c : Codec Entries) (hash : Text → String) (w : World) (a : Attempt) : Outcome :=
  if !a.indexer then .notMarked else
  match a.death with
  | .beforeMark => .notMarked
  | .running _ | .beforeOutcome => .cutShort
  | .none =>
    if (fullIndex c hash a.inv w).2 then .completed
    else if (lastRun (fullIndex c hash a.inv w).1).isSome then .cutShort else .notStarted

def doReindex (c : Codec Entries) (hash : Text → String) (a : Attempt) (s : Settings)
    (w : World) : Settings × World :=
  let run := fullIndex c hash a.inv w
  match a.death with
  | .beforeMark => (s,reopened c [] none w)
  | .running crash => (s.started,reopened c run.1 (some crash) w)
  | .beforeOutcome => (s.started,reopened c run.1 none w)
  | .none => (s.started.ended run.2 run.1 a.now,applyEffects c run.1 w)

def reindexed (c : Codec Entries) (hash : Text → String) (a : Attempt) (s : Settings)
    (w : World) : Settings × World :=
  if a.indexer then doReindex c hash a s w else (s,w)

def reindex (c : Codec Entries) (hash : Text → String) (s : State) (a : Attempt) : Option State :=
  let after := reindexed c hash a s.settings s.world
  some ⟨after.1,after.2,
    s.history++[⟨outcome c hash s.world a,unsentNotes hash a.inv after.2.store⟩]⟩

/-- When the flag is off, every attempt of the given kind was followed by a
completed one. -/
def FlagHonest (kind : Report → Prop) (s : State) : Prop :=
  s.settings.indexInterrupted = false → ∀ (i : ℕ) (r : Report), s.history[i]? = some r → kind r →
    ∃ (j : ℕ) (r' : Report), i < j ∧ s.history[j]? = some r' ∧ r'.outcome = .completed

/-- No attempt is made with the flag on that ends early without a tick. -/
def StartsWhenFlagged (c : Codec Entries) (hash : Text → String) (s : State) (a : Attempt) : Prop :=
  s.settings.indexInterrupted = true → outcome c hash s.world a ≠ .notStarted

theorem reindex_flag (c : Codec Entries) (hash : Text → String) (s t : State) (a : Attempt)
    (h : reindex c hash s a = some t) : t.settings.indexInterrupted =
      match outcome c hash s.world a with
      | .notMarked => s.settings.indexInterrupted
      | .cutShort => true
      | .notStarted => false
      | .completed => false := by
  cases h
  obtain ⟨indexer, inv, now, death⟩ := a
  cases indexer with
  | false => simp [outcome, reindexed]
  | true =>
    cases death with
    | none =>
      cases hc : (fullIndex c hash inv s.world).2 with
      | true => simp [outcome, reindexed, doReindex, Settings.ended, hc]
      | false =>
        cases hr : lastRun (fullIndex c hash inv s.world).1 <;>
          simp [outcome, reindexed, doReindex, Settings.ended, Settings.started, hc, hr]
    | beforeMark => simp [outcome, reindexed, doReindex]
    | running crash => simp [outcome, reindexed, doReindex, Settings.started]
    | beforeOutcome => simp [outcome, reindexed, doReindex, Settings.started]

theorem reindex_history (c : Codec Entries) (hash : Text → String) (s t : State) (a : Attempt)
    (h : reindex c hash s a = some t) :
    ∃ r, r.outcome = outcome c hash s.world a ∧ t.history = s.history++[r] := by
  cases h
  exact ⟨_,rfl,rfl⟩

def CutShort (r : Report) : Prop := r.outcome = .cutShort

theorem flag_step (c : Codec Entries) (hash : Text → String) (s : State) (a : Attempt) (t : State)
    (hs : FlagHonest CutShort s) (ha : StartsWhenFlagged c hash s a)
    (h : reindex c hash s a = some t) : FlagHonest CutShort t := by
  intro hoff i r hi hcut
  obtain ⟨r', hr', hh⟩ := reindex_history c hash s t a h
  rw [reindex_flag c hash s t a h] at hoff
  rw [hh] at hi ⊢
  have hlast : (s.history++[r'])[s.history.length]? = some r' := by simp
  -- an attempt before the last one has its follower already or gets it now
  have hold : i < s.history.length → s.settings.indexInterrupted = false →
      ∃ (j : ℕ) (q : Report), i < j ∧ (s.history++[r'])[j]? = some q ∧ q.outcome = .completed := by
    intro hlt hflag
    rw [List.getElem?_append_left hlt] at hi
    obtain ⟨j, q, hij, hj, hq⟩ := hs hflag i r hi hcut
    have hjlt : j < s.history.length := (List.getElem?_eq_some_iff.mp hj).1
    exact ⟨j,q,hij,by rw [List.getElem?_append_left hjlt]; exact hj,hq⟩
  have hle : i < s.history.length ∨ i = s.history.length := by
    have := (List.getElem?_eq_some_iff.mp hi).1
    rw [List.length_append, List.length_singleton] at this
    omega
  rcases hle with hlt | rfl
  · cases ho : outcome c hash s.world a with
    | notMarked =>
      rw [ho] at hoff
      exact hold hlt hoff
    | cutShort => simp [ho] at hoff
    | notStarted =>
      have hflag : s.settings.indexInterrupted = false := by
        by_contra hn
        exact ha (by simpa using hn) ho
      exact hold hlt hflag
    | completed => exact ⟨s.history.length,r',hlt,hlast,hr'.trans ho⟩
  · rw [hlast, Option.some.injEq] at hi
    subst hi
    rw [show outcome c hash s.world a = .cutShort from hr'.symm.trans hcut] at hoff
    cases hoff

/-- Over every sequence of attempts the flag is off only if the last attempt
that was cut short was followed by a completed one, as long as no attempt made
with the flag on ends early before its first tick. -/
theorem interrupted_flag_honest (c : Codec Entries) (hash : Text → String) (settings : Settings)
    (w : World) (as : List Attempt)
    (h : Meets (reindex c hash) (StartsWhenFlagged c hash) ⟨settings,w,[]⟩ as) :
    Always (reindex c hash) (FlagHonest CutShort) ⟨settings,w,[]⟩ as := by
  refine always_of_invariant (flag_step c hash) (fun _ h => h) as _ ?_ h
  intro _ i r hi
  simp at hi

def freshPlugin : State := ⟨⟨none,false,none⟩,emptyWorld,[]⟩

/-- The first index dies after its first tick and the next one completes. -/
theorem interrupted_flag_honest_resumed :
    Always (reindex stateFile String.ofList) (FlagHonest CutShort) freshPlugin
      [⟨true,oneNoteRun false true,5,.running ⟨1,0,0⟩⟩,⟨true,oneNoteRun false true,6,.none⟩] := by
  refine interrupted_flag_honest stateFile String.ofList _ _ _
    ⟨fun h => absurd h (by decide),fun t ht => ⟨?_,fun u _ => trivial⟩⟩
  cases ht
  intro _
  decide

def Unsent (r : Report) : Prop := r.unsent = true

def Unflagged (a : Attempt) : Prop :=
  ∃ t, reindex stateFile String.ofList freshPlugin a = some t ∧ ¬ FlagHonest Unsent t

/-- The flag is off with notes left unsent and no completed attempt after it:
when the client is not there yet, when a completed run had its sends refused,
and when the process dies before the flag is saved. -/
theorem unsent_notes_unflagged :
    Unflagged ⟨true,{ oneNoteRun false true with client := false },5,.none⟩ ∧
      Unflagged ⟨true,oneNoteRun false false,5,.none⟩ ∧
      Unflagged ⟨true,oneNoteRun false true,5,.beforeMark⟩ := by
  have hlone : ∀ (s : Settings) (w : World) (o : Outcome), s.indexInterrupted = false →
      ¬ FlagHonest Unsent ⟨s,w,[⟨o,true⟩]⟩ := by
    intro s w o hoff h
    obtain ⟨j, r, hj, hr, _⟩ := h hoff 0 _ rfl rfl
    have := (List.getElem?_eq_some_iff.mp hr).1
    simp only [List.length_singleton] at this
    omega
  exact ⟨⟨_,rfl,hlone _ _ _ (by decide)⟩,⟨_,rfl,hlone _ _ _ (by decide)⟩,
    ⟨_,rfl,hlone _ _ _ (by decide)⟩⟩

end Uru.Plugin
