import Uru.Lib.Machine
import Mathlib.Logic.Function.Basic

/-!
# Parties that write in one transaction

Several parties run programs of reads, writes and commits on one connection.
What a party writes stays pending in the one transaction of the connection,
and a commit of any of them makes the pending rows of all of them durable. A
statement may fail after some of its rows, and its party then stops.
-/

set_option autoImplicit false

namespace Uru.Lib.SharedTransaction

variable {ι ω : Type}

inductive Statement (ω : Type) where
  | read
  | write (rows : List ω)
  | commit
  deriving DecidableEq, Repr

def rows : List (Statement ω) → List ω
  | [] => []
  | .write ws::ss => ws++rows ss
  | .read::ss => rows ss
  | .commit::ss => rows ss

def CommitsLast : List (Statement ω) → Prop
  | [] => True
  | .commit::ss => rows ss = [] ∧ CommitsLast ss
  | .read::ss => CommitsLast ss
  | .write _::ss => CommitsLast ss

theorem commitsLast_append {ss : List (Statement ω)} (hs : .commit ∉ ss)
    {ts : List (Statement ω)} (ht : CommitsLast ts) : CommitsLast (ss++ts) := by
  induction ss with
  | nil => exact ht
  | cons s ss ih =>
    have ih := ih (fun h => hs (List.mem_cons_of_mem _ h))
    cases s with
    | read => exact ih
    | write ws => exact ih
    | commit => exact absurd List.mem_cons_self hs

/-- What a party has written, what it has still to do, and what it did not
write because it raised. -/
structure Party (ω : Type) where
  done : List ω
  todo : List (Statement ω)
  lost : List ω

structure State (ι ω : Type) where
  durable : ι → List ω
  pending : ι → List ω
  party : ι → Party ω

inductive Event (ι : Type) where
  | next (i : ι)
  | fail (i : ι) (written : ℕ)

def start (program : ι → List (Statement ω)) : State ι ω where
  durable _ := []
  pending _ := []
  party i := { done := [], todo := program i, lost := [] }

def State.wrote [DecidableEq ι] (s : State ι ω) (i : ι) (ws : List ω) (p : Party ω) : State ι ω :=
  { s with
    pending := Function.update s.pending i (s.pending i++ws)
    party := Function.update s.party i { p with done := (s.party i).done++ws } }

def State.commit [DecidableEq ι] (s : State ι ω) (i : ι) (p : Party ω) : State ι ω where
  durable j := s.durable j++s.pending j
  pending _ := []
  party := Function.update s.party i { p with done := (s.party i).done }

def step [DecidableEq ι] (s : State ι ω) : Event ι → Option (State ι ω)
  | .next i =>
    match (s.party i).todo with
    | [] => none
    | .read::ss => some (s.wrote i [] { s.party i with todo := ss })
    | .write ws::ss => some (s.wrote i ws { s.party i with todo := ss })
    | .commit::ss => some (s.commit i { s.party i with todo := ss })
  | .fail i k =>
    match (s.party i).todo with
    | [] => none
    | .write ws::ss =>
      if k < ws.length then
        some (s.wrote i (ws.take k)
          { s.party i with todo := [], lost := ws.drop k++rows ss++(s.party i).lost })
      else none
    | _::ss => some (s.wrote i [] { s.party i with todo := [], lost := rows ss++(s.party i).lost })

/-- The party has written some of its rows and not all of them: it is between
its first write and its last, or it raised there. -/
def State.Partway (s : State ι ω) (i : ι) : Prop :=
  (s.party i).done ≠ [] ∧ rows (s.party i).todo++(s.party i).lost ≠ []

def Clear (s : State ι ω) : Event ι → Prop
  | .next i => (s.party i).todo.head? = some .commit → ∀ j, ¬ s.Partway j
  | .fail _ _ => True

def Atomic (program : ι → List (Statement ω)) (s : State ι ω) : Prop :=
  ∀ i, s.durable i = [] ∨ s.durable i = rows (program i)

structure Consistent (program : List (Statement ω)) (durable pending : List ω) (p : Party ω) :
    Prop where
  split : p.done++(rows p.todo++p.lost) = rows program
  held : durable++pending = p.done
  whole : durable = [] ∨ durable = rows program
  last : CommitsLast p.todo

variable {program : ι → List (Statement ω)}

def Inv (program : ι → List (Statement ω)) (s : State ι ω) : Prop :=
  ∀ i, Consistent (program i) (s.durable i) (s.pending i) (s.party i)

theorem start_inv (hl : ∀ i, CommitsLast (program i)) : Inv program (start program) :=
  fun i => ⟨by simp [start], rfl, .inl rfl, hl i⟩

theorem atomic_of_inv {s : State ι ω} (hs : Inv program s) : Atomic program s :=
  fun i => (hs i).whole

theorem inv_wrote [DecidableEq ι] {s : State ι ω} (hs : Inv program s) {i : ι} {ws : List ω} {p : Party ω}
    (hsplit : (s.party i).done++ws++(rows p.todo++p.lost) = rows (program i))
    (hlast : CommitsLast p.todo) :
    Inv program (s.wrote i ws p) := by
  intro j
  by_cases h : j = i
  · subst h
    have hj := hs j
    simp only [State.wrote, Function.update_self]
    exact ⟨hsplit, by rw [← List.append_assoc, hj.held], hj.whole, hlast⟩
  · simp only [State.wrote, Function.update_of_ne h]
    exact hs j

theorem done_of_not_partway {s : State ι ω} (hs : Inv program s) {i : ι} (hn : ¬ s.Partway i) :
    (s.party i).done = [] ∨ (s.party i).done = rows (program i) := by
  by_cases hd : (s.party i).done = []
  · exact .inl hd
  · right
    by_contra hne
    refine hn ⟨hd, fun hb => hne ?_⟩
    have hsplit := (hs i).split
    rwa [hb, List.append_nil] at hsplit

theorem not_whole_of_partway {s : State ι ω} (hs : Inv program s) {i : ι} (hp : s.Partway i) :
    (s.party i).done ≠ rows (program i) := by
  intro h
  have hlen := congrArg List.length ((hs i).split.trans h.symm)
  rw [List.length_append] at hlen
  exact hp.2 (List.length_eq_zero_iff.mp (by omega))

theorem inv_commit [DecidableEq ι] {s : State ι ω} (hs : Inv program s) {i : ι} {ss : List (Statement ω)}
    (ht : (s.party i).todo = .commit::ss) (hn : ∀ j, ¬ s.Partway j) :
    Inv program (s.commit i { s.party i with todo := ss }) := by
  intro j
  have hj := hs j
  have hheld : (s.durable j++s.pending j)++[] = (s.party j).done := by
    rw [List.append_nil, hj.held]
  have hwhole : s.durable j++s.pending j = [] ∨ s.durable j++s.pending j = rows (program j) := by
    rw [hj.held]
    exact done_of_not_partway hs (hn j)
  by_cases h : j = i
  · subst h
    have hsplit := hj.split
    have hlast := hj.last
    rw [ht] at hsplit hlast
    simp only [State.commit, Function.update_self]
    exact ⟨hsplit, hheld, hwhole, hlast.2⟩
  · simp only [State.commit, Function.update_of_ne h]
    exact ⟨hj.split, hheld, hwhole, hj.last⟩

/-- What a step can do: some rows of the party's next statement are written,
or its commit is taken. -/
theorem step_cases [DecidableEq ι] {s t : State ι ω} {e : Event ι} (ht : step s e = some t) :
    (∃ i ws p, t = s.wrote i ws p ∧
      ws++(rows p.todo++p.lost) = rows (s.party i).todo++(s.party i).lost ∧
      (CommitsLast (s.party i).todo → CommitsLast p.todo)) ∨
    ∃ i ss, e = .next i ∧ (s.party i).todo = .commit::ss ∧
      t = s.commit i { s.party i with todo := ss } := by
  cases e with
  | next i =>
    simp only [step] at ht
    cases htodo : (s.party i).todo with
    | nil => rw [htodo] at ht; exact absurd ht (by simp)
    | cons a ss =>
      rw [htodo] at ht
      cases a with
      | read =>
        exact .inl ⟨i, [], _, (Option.some.inj ht).symm, by simp [htodo, rows],
          fun h => by rw [htodo] at h; exact h⟩
      | write ws =>
        exact .inl ⟨i, ws, _, (Option.some.inj ht).symm, by simp [htodo, rows],
          fun h => by rw [htodo] at h; exact h⟩
      | commit => exact .inr ⟨i, ss, rfl, htodo, (Option.some.inj ht).symm⟩
  | fail i k =>
    left
    simp only [step] at ht
    cases htodo : (s.party i).todo with
    | nil => rw [htodo] at ht; exact absurd ht (by simp)
    | cons a ss =>
      rw [htodo] at ht
      cases a with
      | read =>
        exact ⟨i, [], _, (Option.some.inj ht).symm, by simp [htodo, rows], fun _ => trivial⟩
      | commit =>
        exact ⟨i, [], _, (Option.some.inj ht).symm, by simp [htodo, rows], fun _ => trivial⟩
      | write ws =>
        simp only at ht
        split at ht
        · refine ⟨i, ws.take k, _, (Option.some.inj ht).symm, ?_, fun _ => trivial⟩
          simp only [htodo, rows, List.nil_append, ← List.append_assoc, List.take_append_drop]
        · exact absurd ht (by simp)

theorem step_inv [DecidableEq ι] (s : State ι ω) (e : Event ι) (t : State ι ω)
    (hs : Inv program s) (hok : Clear s e) (ht : step s e = some t) : Inv program t := by
  rcases step_cases ht with ⟨i, ws, p, rfl, hrows, hlast⟩ | ⟨i, ss, rfl, htodo, rfl⟩
  · refine inv_wrote hs ?_ (hlast (hs i).last)
    rw [List.append_assoc, hrows, (hs i).split]
  · exact inv_commit hs htodo (hok (by rw [htodo]; rfl))

/-- A commit taken while a party is partway makes its rows durable and
leaves the others out. -/
theorem not_clear_breaks [DecidableEq ι] (s : State ι ω) (e : Event ι) (hs : Inv program s)
    (hok : ¬ Clear s e) : ∃ t, step s e = some t ∧ ¬ Atomic program t := by
  cases e with
  | fail i k => exact absurd trivial hok
  | next i =>
    simp only [Clear, not_forall, not_not] at hok
    obtain ⟨hhead, j, hj⟩ := hok
    cases htodo : (s.party i).todo with
    | nil => rw [htodo] at hhead; exact absurd hhead (by simp)
    | cons a ss =>
      rw [htodo] at hhead
      obtain rfl : a = .commit := Option.some.inj hhead
      refine ⟨s.commit i { s.party i with todo := ss }, by simp [step, htodo], fun ha => ?_⟩
      have hdur : (s.commit i { s.party i with todo := ss }).durable j = (s.party j).done :=
        (hs j).held
      rcases ha j with h | h
      · exact hj.1 (hdur.symm.trans h)
      · exact not_whole_of_partway hs hj (hdur.symm.trans h)

/-- Every party's rows become durable together, in every state of a run, if
and only if no commit of the run is taken while a party is partway. -/
theorem always_atomic_iff [DecidableEq ι] (hl : ∀ i, CommitsLast (program i))
    (es : List (Event ι)) :
    Machine.Always step (Atomic program) (start program) es ↔
      Machine.Meets step Clear (start program) es :=
  Machine.always_iff_meets step_inv (fun _ => atomic_of_inv) not_clear_breaks es _
    (start_inv hl)

end Uru.Lib.SharedTransaction
