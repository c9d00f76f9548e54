import Mathlib.Data.List.Forall2
import Mathlib.Tactic

/-!
# Emitting text with bound values

A compiler that emits a query appends each value to a list of binds and
refers to it by its position. What it emits is judged against every list that
extends its own binds, so that the pieces of a query can be judged apart and
put together.
-/

set_option autoImplicit false

namespace Uru.Lib

abbrev Emit (V T : Type) := StateM (List V) T

namespace Emit

variable {V T U : Type}

def param (v : V) : Emit V ℕ := fun vs => (vs.length,vs++[v])

def Sat (m : Emit V T) (Q : List V → T → Prop) : Prop :=
  ∀ vs, ∃ own, (m vs).2 = vs++own ∧ ∀ after, Q (vs++own++after) (m vs).1

theorem sat_pure {t : T} {Q : List V → T → Prop} (h : ∀ env, Q env t) : Sat (pure t) Q :=
  fun vs => ⟨[], (List.append_nil vs).symm, fun _ => h _⟩

theorem sat_param (v : V) : Sat (param v) (fun env i => env[i]? = some v) :=
  fun vs => ⟨[v], rfl, fun after => by simp [param]⟩

theorem sat_bind {m : Emit V T} {f : T → Emit V U} {Q : List V → T → Prop}
    {R : List V → U → Prop} (hm : Sat m Q)
    (hf : ∀ t, Sat (f t) (fun env u => Q env t → R env u)) : Sat (m >>= f) R := by
  intro vs
  obtain ⟨own, ho, hq⟩ := hm vs
  obtain ⟨own', ho', hr⟩ := hf (m vs).1 (m vs).2
  refine ⟨own++own', ho'.trans (by rw [ho, List.append_assoc]), fun after => ?_⟩
  have he : (m vs).2++own'++after = vs++own++(own'++after) := by simp [ho]
  have h := hr after
  rw [he] at h
  rw [← List.append_assoc vs own own', List.append_assoc (vs++own) own' after]
  exact h (hq (own'++after))

theorem Sat.mono {m : Emit V T} {Q R : List V → T → Prop} (hm : Sat m Q)
    (h : ∀ env t, Q env t → R env t) : Sat m R := by
  intro vs
  obtain ⟨own, ho, hq⟩ := hm vs
  exact ⟨own, ho, fun after => h _ _ (hq after)⟩

theorem sat_map {m : Emit V T} {f : T → U} {Q : List V → T → Prop} {R : List V → U → Prop}
    (hm : Sat m Q) (h : ∀ env t, Q env t → R env (f t)) : Sat (m >>= fun t => pure (f t)) R :=
  sat_bind hm (fun t => sat_pure (h · t))

/-- What is emitted from no binds at all has the property in its own binds. -/
theorem Sat.closed {m : Emit V T} {Q : List V → T → Prop} (hm : Sat m Q) : Q (m []).2 (m []).1 := by
  obtain ⟨own, ho, hq⟩ := hm []
  have h := hq []
  rwa [List.append_nil, ← ho] at h

end Emit

end Uru.Lib
