import Uru.Dream.Resume

/-!
# When a resumed run continues its plan

What a run still owes its plan lies behind the checkpoint, less what it applied
since. Each turn of the loop moves one operation from what is owed to what was
applied or skipped; a crash loses nothing of it. Planning again replaces what
is owed by whatever the new plan has behind the same position.
-/

set_option autoImplicit false

namespace Uru.Dream

open Uru.Lib

variable {σ Op : Type*} {K : Stack σ Op} {r : Run σ Op} {plan deferred left : List Op}
variable {last : ℤ} {seq : ℕ} {op : Op}

/-- Nothing but the first plan was applied, nothing of it twice, and once the
loop has come to its end nothing of it was left out except by policy. -/
def AppliedOnce (r : Run σ Op) : Prop :=
  r.applied.Subperm r.original ∧
    (r.ranThrough → r.original.Subperm (r.applied++r.skipped))

def checkpointed (r : Run σ Op) : ℕ := (readLastCommitted r+1).toNat

/-- When the run plans again, its new plan has behind the checkpoint what the
plan it followed before has there, in any order and less what was applied and
not recorded. -/
def Continues (K : Stack σ Op) (r : Run σ Op) : Event σ → Prop
  | .plan => ∀ p, r.followed = some p →
      (r.unrecorded++(K.planDream r.store).drop (checkpointed r)).Perm (p.drop (checkpointed r))
  | _ => True

instance [DecidableEq Op] (r : Run σ Op) : ∀ e, Decidable (Continues K r e)
  | .plan => inferInstanceAs (Decidable (∀ p, r.followed = some p → List.Perm _ _))
  | .start | .resume | .iterate _ | .checkpoint | .finish | .cancel | .crash | .write _ =>
    isTrue trivial

section Todo

def todo (plan : List Op) (last : ℤ) (seq : ℕ) : List Op := plan.drop (max seq (last+1).toNat)

theorem todo_passed (h : (seq:ℤ) ≤ last) : todo plan last (seq+1) = todo plan last seq := by
  rw [todo, todo, show max (seq+1) (last+1).toNat = max seq (last+1).toNat by omega]

theorem todo_next (h : last < seq) : todo plan last (seq+1) = plan.drop (seq+1) := by
  rw [todo, show max (seq+1) (last+1).toNat = seq+1 by omega]

theorem todo_cons (h : last < seq) (hop : plan[seq]? = some op) :
    todo plan last seq = op::todo plan last (seq+1) := by
  obtain ⟨hlt, rfl⟩ := List.getElem?_eq_some_iff.mp hop
  rw [todo_next h, todo, show max seq (last+1).toNat = seq by omega]
  exact List.drop_eq_getElem_cons hlt

theorem todo_end (h : plan.length ≤ seq) : todo plan last seq = [] :=
  List.drop_eq_nil_of_le (by omega)

end Todo

section Progress

/-- Behind the checkpoint the plan consists of what was applied and not
recorded, of what the budget deferred, and of what is left; and the account of
the first plan is still open by exactly what can yet be applied. -/
structure Progress (r : Run σ Op) (plan deferred left : List Op) : Prop where
  followed : r.followed = some plan
  behind : (r.unrecorded++(deferred++left)).Perm (plan.drop (checkpointed r))
  sound : (r.applied++(deferred++left)).Subperm r.original
  complete : r.original.Subperm (r.applied++r.skipped++left)

theorem Progress.forget (h : Progress r plan deferred left) :
    Progress r plan [] (deferred++left) where
  followed := h.followed
  behind := h.behind
  sound := h.sound
  complete := by
    refine h.complete.trans (List.Sublist.subperm ?_)
    exact (List.sublist_append_right deferred left).append_left _

theorem Progress.move (h : Progress r plan deferred left) (e : Executor Op) :
    Progress (moveTo e r) plan deferred left :=
  ⟨h.followed, h.behind, h.sound, h.complete⟩

theorem Progress.take (h : Progress r plan deferred (op::left)) (st : σ) :
    Progress (takeOp op st r) plan deferred left where
  followed := h.followed
  behind := by
    refine List.Perm.trans ?_ h.behind
    simp only [takeOp, List.append_assoc, List.singleton_append]
    exact List.perm_middle.symm.append_left _
  sound := by
    refine List.Subperm.trans (List.Perm.subperm ?_) h.sound
    simp only [takeOp, List.append_assoc, List.singleton_append]
    exact List.perm_middle.symm.append_left _
  complete := by
    refine h.complete.trans (List.Perm.subperm ?_)
    simp only [takeOp, List.append_assoc, List.singleton_append]
    exact List.perm_middle.append_left _

theorem Progress.skip (h : Progress r plan deferred (op::left)) :
    Progress (skipOp op r) plan (deferred++[op]) left where
  followed := h.followed
  behind := by simpa [skipOp, checkpointed, readLastCommitted] using h.behind
  sound := by simpa [skipOp] using h.sound
  complete := by simpa [skipOp] using h.complete

theorem Progress.record (h : Progress r plan deferred (plan.drop (seq+1))) :
    ∃ d, Progress (recordCommitted K seq r) plan d (plan.drop (seq+1)) := by
  unfold recordCommitted
  split
  · refine ⟨[], h.followed, ?_, ?_, h.complete⟩
    · have hpos : ((seq:ℤ)+1).toNat = seq+1 := by omega
      simp [checkpointed, readLastCommitted, hpos]
    · refine List.Subperm.trans (List.Sublist.subperm ?_) h.sound
      exact (List.sublist_append_right deferred _).append_left _
  · exact ⟨deferred, h⟩

end Progress

section Invariant

def Position (r : Run σ Op) : Executor Op → Prop
  | .planning => True
  | .applying plan last seq => ∃ deferred, Progress r plan deferred (todo plan last seq)
  | .checkpointing plan last seq =>
    last < seq ∧ ∃ deferred, Progress r plan deferred (plan.drop (seq+1))

def Unplanned (r : Run σ Op) : Prop :=
  r.followed = none ∧ r.applied = [] ∧ r.skipped = [] ∧ r.ranThrough = false ∧
    checkpointed r = 0

structure Accounted (r : Run σ Op) : Prop where
  settled : Unplanned r ∨ ∃ plan left, Progress r plan [] left
  position : ∀ e, r.executor = some e → Position r e
  through : r.ranThrough → r.original.Subperm (r.applied++r.skipped)

theorem Accounted.once (h : Accounted r) : AppliedOnce r := by
  refine ⟨?_, h.through⟩
  obtain ⟨_, happlied, -⟩ | ⟨plan, left, hp⟩ := h.settled
  · rw [happlied]
    exact List.nil_subperm
  · exact (List.sublist_append_left _ _).subperm.trans hp.sound

theorem accounted_fresh (st : σ) : Accounted (fresh st : Run σ Op) where
  settled := Or.inl ⟨rfl, rfl, rfl, rfl, rfl⟩
  position := by simp [fresh]
  through := by simp [fresh]

/-- The logs only grow, so an account once closed stays closed. -/
theorem Progress.accounted (h : Progress r plan deferred left)
    (hpos : ∀ e, r.executor = some e → Position r e)
    (hthrough : r.ranThrough → r.original.Subperm (r.applied++r.skipped)) : Accounted r :=
  ⟨Or.inr ⟨plan, deferred++left, h.forget⟩, hpos, hthrough⟩

theorem Progress.arrive (h : Progress r plan deferred left) (e : Executor Op)
    (hpos : Position (moveTo e r) e)
    (hthrough : r.ranThrough → r.original.Subperm (r.applied++r.skipped)) :
    Accounted (moveTo e r) := by
  refine (h.move e).accounted (fun f hf => ?_) hthrough
  obtain rfl := Option.some.inj hf
  exact hpos

theorem through_take (st : σ) (h : r.original.Subperm (r.applied++r.skipped)) :
    (takeOp op st r).original.Subperm ((takeOp op st r).applied++(takeOp op st r).skipped) := by
  refine h.trans (List.Sublist.subperm ?_)
  simp only [takeOp]
  exact (List.sublist_append_left _ _).append_right _

theorem through_skip (h : r.original.Subperm (r.applied++r.skipped)) :
    (skipOp op r).original.Subperm ((skipOp op r).applied++(skipOp op r).skipped) := by
  refine h.trans (List.Sublist.subperm ?_)
  simp only [skipOp]
  exact (List.sublist_append_left _ _).append_left _

theorem through_record (h : r.ranThrough → r.original.Subperm (r.applied++r.skipped)) :
    (recordCommitted K seq r).ranThrough →
      (recordCommitted K seq r).original.Subperm
        ((recordCommitted K seq r).applied++(recordCommitted K seq r).skipped) := by
  unfold recordCommitted
  split
  · exact h
  · exact h

/-- What a turn of the loop can come to. -/
theorem dispatch_cases (K : Stack σ Op) (b : Bool) (plan : List Op) (last : ℤ) (seq : ℕ)
    (op : Op) (r : Run σ Op) :
    (∃ st, dispatch K b plan last seq op r =
      moveTo (.applying plan last (seq+1)) (recordCommitted K seq (takeOp op st r))) ∨
    (∃ st, dispatch K b plan last seq op r =
      moveTo (.checkpointing plan last seq) (takeOp op st r)) ∨
    dispatch K b plan last seq op r =
      moveTo (.applying plan last (seq+1)) (recordCommitted K seq (skipOp op r)) ∨
    dispatch K b plan last seq op r = moveTo (.applying plan last (seq+1)) (skipOp op r) := by
  unfold dispatch
  cases K.getApplyHandler op with
  | none => exact Or.inl ⟨_, rfl⟩
  | some handler =>
    dsimp only
    split
    · exact Or.inr (Or.inr (Or.inr rfl))
    · cases K.backend with
      | sql =>
        dsimp only
        split
        · exact Or.inl ⟨_, rfl⟩
        · exact Or.inr (Or.inr (Or.inl rfl))
      | surrealdb =>
        dsimp only
        split
        · exact Or.inr (Or.inl ⟨_, rfl⟩)
        · exact Or.inr (Or.inr (Or.inl rfl))
      | embedded => exact Or.inr (Or.inl ⟨_, rfl⟩)

theorem accounted_recorded {s : Run σ Op} (h : Progress s plan deferred (plan.drop (seq+1)))
    (hlast : last < seq) (hthrough : s.ranThrough → s.original.Subperm (s.applied++s.skipped)) :
    Accounted (moveTo (.applying plan last (seq+1)) (recordCommitted K seq s)) := by
  obtain ⟨d, hd⟩ := h.record (K := K)
  refine hd.arrive _ ⟨d, ?_⟩ (through_record hthrough)
  rw [todo_next hlast]
  exact hd.move _

theorem accounted_dispatch (h : Accounted r) (hlast : last < seq) (hop : plan[seq]? = some op)
    (hp : Progress r plan deferred (todo plan last seq)) (b : Bool) :
    Accounted (dispatch K b plan last seq op r) := by
  rw [todo_cons hlast hop, todo_next hlast] at hp
  rcases dispatch_cases K b plan last seq op r with ⟨st, he⟩ | ⟨st, he⟩ | he | he
  · rw [he]
    exact accounted_recorded (hp.take st) hlast (fun ht => through_take st (h.through ht))
  · rw [he]
    exact (hp.take st).arrive _ ⟨hlast, deferred, (hp.take st).move _⟩
      (fun ht => through_take st (h.through ht))
  · rw [he]
    exact accounted_recorded hp.skip hlast (fun ht => through_skip (h.through ht))
  · rw [he]
    refine hp.skip.arrive _ ⟨deferred++[op], ?_⟩ (fun ht => through_skip (h.through ht))
    rw [todo_next hlast]
    exact hp.skip.move _

theorem accounted_iterate {t : Run σ Op} (h : Accounted r)
    (hex : r.executor = some (.applying plan last seq)) (b : Bool)
    (ht : iterate K b plan last seq r = some t) : Accounted t := by
  obtain ⟨deferred, hp⟩ := h.position _ hex
  obtain ⟨op, hop, rfl⟩ := Option.map_eq_some_iff.mp ht
  split
  · rename_i hle
    refine hp.arrive _ ⟨deferred, ?_⟩ h.through
    rw [todo_passed hle]
    exact hp.move _
  · exact accounted_dispatch h (by omega) hop hp b

theorem accounted_follow (h : Accounted r) (new : List Op)
    (hc : ∀ p, r.followed = some p →
      (r.unrecorded++new.drop (checkpointed r)).Perm (p.drop (checkpointed r))) :
    Accounted (follow new r) := by
  have htodo : todo new (readLastCommitted r) 0 = new.drop (checkpointed r) := by
    rw [todo, Nat.zero_max, checkpointed]
  obtain ⟨hnone, happlied, hskipped, hran, hzero⟩ | ⟨p, left, hp⟩ := h.settled
  · have hnew : Progress (follow new r) new [] (todo new (readLastCommitted r) 0) := by
      rw [htodo, hzero]
      exact
        { followed := rfl
          behind := by
            rw [show checkpointed (follow new r) = 0 from hzero]
            exact List.Perm.refl _
          sound := by simp [follow, hnone, happlied, List.Subperm.refl]
          complete := by simp [follow, hnone, happlied, hskipped, List.Subperm.refl] }
    refine hnew.accounted (fun e he => ?_) (fun ht => ?_)
    · obtain rfl := Option.some.inj he
      exact ⟨[], hnew⟩
    · exact absurd (hran.symm.trans ht) Bool.false_ne_true
  · have hleft : (new.drop (checkpointed r)).Perm left :=
      (List.perm_append_left_iff _).mp ((hc p hp.followed).trans hp.behind.symm)
    have hsame : (follow new r).original = r.original := by simp [follow, hp.followed]
    have hnew : Progress (follow new r) new [] (todo new (readLastCommitted r) 0) := by
      rw [htodo]
      exact
        { followed := rfl
          behind := List.Perm.refl _
          sound := by
            rw [hsame]
            exact (hleft.append_left _).subperm.trans hp.sound
          complete := by
            rw [hsame]
            exact hp.complete.trans (hleft.symm.append_left _).subperm }
    refine hnew.accounted (fun e he => ?_) (fun ht => ?_)
    · obtain rfl := Option.some.inj he
      exact ⟨[], hnew⟩
    · rw [hsame]
      exact h.through ht

theorem accounted_halt (h : Accounted r) : Accounted (stop false r) where
  settled := by
    obtain hu | ⟨p, left, hp⟩ := h.settled
    · exact Or.inl hu
    · exact Or.inr ⟨p, left, hp.followed, hp.behind, hp.sound, hp.complete⟩
  position := by simp [stop]
  through := h.through

theorem accounted_finish (h : Accounted r) (hex : r.executor = some (.applying plan last seq))
    (hend : plan.length ≤ seq) : Accounted (stop true r) := by
  obtain ⟨deferred, hp⟩ := h.position _ hex
  have hdone : r.original.Subperm (r.applied++r.skipped) := by
    simpa [todo_end hend] using hp.complete
  have hs : Progress (stop true r) plan deferred (todo plan last seq) :=
    ⟨hp.followed, hp.behind, hp.sound, hp.complete⟩
  exact hs.accounted (by simp [stop]) (fun _ => hdone)

theorem accounted_start (h : Accounted r) (hnone : r.lastCommittedOpSeq = none) :
    Accounted (moveTo .planning { r with lastCommittedOpSeq := some (-1) }) where
  settled := by
    have hsame : checkpointed { r with lastCommittedOpSeq := some (-1) } = checkpointed r := by
      simp [checkpointed, readLastCommitted, hnone]
    obtain ⟨h1, h2, h3, h4, h5⟩ | ⟨p, left, hp⟩ := h.settled
    · exact Or.inl ⟨h1, h2, h3, h4, hsame.trans h5⟩
    · refine Or.inr ⟨p, left, hp.followed, ?_, hp.sound, hp.complete⟩
      have hb := hp.behind
      rw [← hsame] at hb
      exact hb
  position := by
    intro e he
    obtain rfl := Option.some.inj he
    trivial
  through := h.through

theorem accounted_resume (h : Accounted r) : Accounted (moveTo .planning r) where
  settled := by
    obtain hu | ⟨p, left, hp⟩ := h.settled
    · exact Or.inl hu
    · exact Or.inr ⟨p, left, hp.move _⟩
  position := by
    intro e he
    obtain rfl := Option.some.inj he
    trivial
  through := h.through

theorem Progress.write (h : Progress r plan deferred left) (st : σ) :
    Progress { r with store := st } plan deferred left :=
  ⟨h.followed, h.behind, h.sound, h.complete⟩

theorem accounted_write (h : Accounted r) (st : σ) : Accounted { r with store := st } where
  settled := by
    obtain hu | ⟨p, left, hp⟩ := h.settled
    · exact Or.inl hu
    · exact Or.inr ⟨p, left, hp.write st⟩
  position := by
    intro e he
    cases e with
    | planning => trivial
    | applying plan last seq =>
      obtain ⟨d, hd⟩ := h.position _ he
      exact ⟨d, hd.write st⟩
    | checkpointing plan last seq =>
      obtain ⟨hlt, d, hd⟩ := h.position _ he
      exact ⟨hlt, d, hd.write st⟩
  through := h.through

theorem accounted_checkpoint (h : Accounted r)
    (hex : r.executor = some (.checkpointing plan last seq)) :
    Accounted (moveTo (.applying plan last (seq+1)) (recordCommitted K seq r)) := by
  obtain ⟨hlt, d, hd⟩ := h.position _ hex
  exact accounted_recorded hd hlt h.through

theorem accounted_step (s : Run σ Op) (e : Event σ) (t : Run σ Op) (h : Accounted s)
    (hc : Continues K s e) (ht : step K s e = some t) : Accounted t := by
  cases e with
  | start =>
    simp only [step] at ht
    split at ht
    · obtain rfl := Option.some.inj ht
      exact accounted_start h ‹_›
    · cases ht
  | resume =>
    simp only [step] at ht
    split at ht
    · obtain rfl := Option.some.inj ht
      exact accounted_resume h
    · cases ht
  | plan =>
    simp only [step] at ht
    split at ht
    · obtain rfl := Option.some.inj ht
      exact accounted_follow h _ hc
    · cases ht
  | iterate b =>
    simp only [step] at ht
    split at ht
    · exact accounted_iterate h ‹_› b ht
    · cases ht
  | checkpoint =>
    simp only [step] at ht
    split at ht
    · obtain rfl := Option.some.inj ht
      exact accounted_checkpoint h ‹_›
    · cases ht
  | finish =>
    simp only [step] at ht
    split at ht
    · split at ht
      · obtain rfl := Option.some.inj ht
        exact accounted_finish h ‹_› ‹_›
      · cases ht
    · cases ht
  | cancel =>
    simp only [step] at ht
    split at ht
    · obtain rfl := Option.some.inj ht
      exact accounted_halt h
    · cases ht
  | crash =>
    obtain rfl := Option.some.inj ht
    exact accounted_halt h
  | write st =>
    obtain rfl := Option.some.inj ht
    exact accounted_write h st

end Invariant

/-- In every run of a dream through crashes, resumptions and writes of others,
if each new plan continues the one before it, the first plan is applied exactly
once. -/
theorem resume_applies_once (K : Stack σ Op) (st : σ) (es : List (Event σ))
    (hc : Machine.Meets (step K) (Continues K) (fresh st) es) :
    Machine.Always (step K) AppliedOnce (fresh st) es :=
  Machine.always_of_invariant accounted_step (fun _ => Accounted.once) es _
    (accounted_fresh st) hc

end Uru.Dream
