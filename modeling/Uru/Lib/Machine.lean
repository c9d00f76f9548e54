import Mathlib.Data.List.Basic
import Mathlib.Tactic

/-!
# Runs of partial machines

A machine is a step function that answers `none` to an event it cannot take in
the present state. A run is a finite list of events; a condition on the steps
and a property of the states are both read along the run, state by state.
-/

set_option autoImplicit false

namespace Uru.Lib.Machine

variable {σ ε : Type*}

def run (step : σ → ε → Option σ) : σ → List ε → Option σ
  | s, [] => some s
  | s, e::es => (step s e).bind (fun t => run step t es)

/-- Every step that the run takes is taken in a state where `ok` allows it. -/
def Meets (step : σ → ε → Option σ) (ok : σ → ε → Prop) : σ → List ε → Prop
  | _, [] => True
  | s, e::es => ok s e ∧ ∀ t, step s e = some t → Meets step ok t es

/-- The property holds in every state the run passes through, its first and
its last included. -/
def Always (step : σ → ε → Option σ) (P : σ → Prop) : σ → List ε → Prop
  | s, [] => P s
  | s, e::es => P s ∧ ∀ t, step s e = some t → Always step P t es

variable {step : σ → ε → Option σ} {ok : σ → ε → Prop} {Inv P : σ → Prop}

instance decidableMeets [∀ s e, Decidable (ok s e)] :
    ∀ (s : σ) (es : List ε), Decidable (Meets step ok s es)
  | _, [] => isTrue trivial
  | s, e::es =>
    match h : step s e with
    | none => decidable_of_iff (ok s e) (by simp [Meets, h])
    | some t =>
      have := decidableMeets t es
      decidable_of_iff (ok s e ∧ Meets step ok t es) (by simp [Meets, h])

theorem run_append (es es' : List ε) (s : σ) :
    run step s (es++es') = (run step s es).bind (fun t => run step t es') := by
  induction es generalizing s with
  | nil => rfl
  | cons e es ih =>
    rw [List.cons_append, run, run, Option.bind_assoc]
    exact congrArg _ (funext ih)

theorem meets_of_forall {good : ε → Prop} (es : List ε) (s : σ) (h : ∀ e ∈ es, good e) :
    Meets step (fun _ e => good e) s es := by
  induction es generalizing s with
  | nil => trivial
  | cons e es ih =>
    exact ⟨h e List.mem_cons_self, fun t _ => ih t (fun e' he => h e' (List.mem_cons_of_mem e he))⟩

theorem meets_trivial (es : List ε) (s : σ) : Meets step (fun _ _ => True) s es :=
  meets_of_forall es s (fun _ _ => trivial)

theorem always_of_invariant (hstep : ∀ s e t, Inv s → ok s e → step s e = some t → Inv t)
    (hP : ∀ s, Inv s → P s) (es : List ε) (s : σ) (hs : Inv s)
    (hm : Meets step ok s es) : Always step P s es := by
  induction es generalizing s with
  | nil => exact hP s hs
  | cons e es ih =>
    exact ⟨hP s hs, fun t ht => ih t (hstep s e t hs hm.1 ht) (hm.2 t ht)⟩

theorem always_mono {Q : σ → Prop} (hPQ : ∀ s, P s → Q s) (es : List ε) (s : σ)
    (h : Always step P s es) : Always step Q s es := by
  induction es generalizing s with
  | nil => exact hPQ s h
  | cons e es ih => exact ⟨hPQ s h.1, fun t ht => ih t (h.2 t ht)⟩

theorem always_last (es : List ε) (s : σ) (h : Always step P s es) {t : σ}
    (ht : run step s es = some t) : P t := by
  induction es generalizing s with
  | nil => exact Option.some.inj ht ▸ h
  | cons e es ih =>
    obtain ⟨u, hu, hrun⟩ := Option.bind_eq_some_iff.mp ht
    exact ih u (h.2 u hu) hrun

/-- What holds of every step that the invariant and the condition allow holds
of every step of the run. -/
theorem meets_of_invariant {good : σ → ε → Prop}
    (hstep : ∀ s e t, Inv s → ok s e → step s e = some t → Inv t)
    (hgood : ∀ s e, Inv s → ok s e → good s e) (es : List ε) (s : σ) (hs : Inv s)
    (hm : Meets step ok s es) : Meets step good s es := by
  induction es generalizing s with
  | nil => trivial
  | cons e es ih =>
    exact ⟨hgood s e hs hm.1, fun t ht => ih t (hstep s e t hs hm.1 ht) (hm.2 t ht)⟩

/-- When a step outside the condition always destroys the property, the
condition is exact: the property holds all along the run if and only if every
step of the run meets it. -/
theorem always_iff_meets (hstep : ∀ s e t, Inv s → ok s e → step s e = some t → Inv t)
    (hP : ∀ s, Inv s → P s)
    (hbad : ∀ s e, Inv s → ¬ ok s e → ∃ t, step s e = some t ∧ ¬ P t)
    (es : List ε) (s : σ) (hs : Inv s) :
    Always step P s es ↔ Meets step ok s es := by
  refine ⟨fun ha => ?_, always_of_invariant hstep hP es s hs⟩
  induction es generalizing s with
  | nil => trivial
  | cons e es ih =>
    have hok : ok s e := by
      by_contra hn
      obtain ⟨t, ht, hpt⟩ := hbad s e hs hn
      have hat := ha.2 t ht
      cases es with
      | nil => exact hpt hat
      | cons => exact hpt hat.1
    exact ⟨hok, fun t ht => ih t (hstep s e t hs hok ht) (ha.2 t ht)⟩

/-- Whatever events of a kind come under the condition, a state with the
property is reached, and before it some event of the kind can be taken. -/
inductive Inevitable (step : σ → ε → Option σ) (kind : ε → Prop) (ok : σ → ε → Prop)
    (P : σ → Prop) : σ → Prop
  | reached {s : σ} (h : P s) : Inevitable step kind ok P s
  | next {s : σ} (hcan : ∃ e t, kind e ∧ step s e = some t)
      (h : ∀ e t, kind e → ok s e → step s e = some t → Inevitable step kind ok P t) :
      Inevitable step kind ok P s

/-- A condition that implies the other one along an invariant can take its
place. -/
theorem inevitable_of_condition {kind : ε → Prop} {ok' : σ → ε → Prop}
    (hstep : ∀ s e t, Inv s → kind e → ok' s e → step s e = some t → Inv t)
    (hok : ∀ s e t, Inv s → kind e → ok' s e → step s e = some t → ok s e) {s : σ} (hs : Inv s)
    (h : Inevitable step kind ok P s) : Inevitable step kind ok' P s := by
  induction h with
  | reached hp => exact .reached hp
  | next hcan _ ih =>
    exact .next hcan (fun e t hk hc ht => ih e t hk (hok _ e t hs hk hc ht) ht (hstep _ e t hs hk hc ht))

end Uru.Lib.Machine
