import Uru.Lib.Machine

/-!
# Calls that share a store

Any number of calls run interleaved, each from await to await; a stage of a
call is where it stands between two awaits. Some stages are writing: the call
has begun to change the store and has not finished. As long as no call begins
to write while another is writing, what a call relies on at a writing stage is
kept by all the others, and what the store promises holds whenever nobody is
writing.
-/

set_option autoImplicit false

namespace Uru.Lib.Calls

/-- `act` takes a call from one await to the next: what the awaited operation
did to the store and where the call stands then. -/
structure Protocol (σ φ ω : Type*) where
  entry : φ → Bool
  act : φ → ω → σ → Option (σ × φ)
  writing : φ → Bool

structure World (σ φ : Type*) where
  store : σ
  calls : List φ

inductive Event (φ ω : Type*) where
  | start (f : φ)
  | advance (i : ℕ) (o : ω)

variable {σ φ ω : Type*} (K : Protocol σ φ ω)

def step (w : World σ φ) : Event φ ω → Option (World σ φ)
  | .start f =>
    if K.entry f then
      some
        { store := w.store
          calls := w.calls++[f] }
    else none
  | .advance i o =>
    w.calls[i]?.bind (fun f => (K.act f o w.store).map (fun r =>
      { store := r.1
        calls := w.calls.set i r.2 }))

def Quiet (w : World σ φ) (i : ℕ) : Prop :=
  ∀ (j : ℕ) (f : φ), w.calls[j]? = some f → K.writing f = true → j = i

/-- A call begins to write only while no other is writing, and only when what
it has read still holds. -/
def Undisturbed (current : φ → ω → σ → Prop) (w : World σ φ) : Event φ ω → Prop
  | .start _ => True
  | .advance i o => ∀ f, w.calls[i]? = some f →
      current f o w.store ∧ ∀ r, K.act f o w.store = some r → K.writing f = false →
        K.writing r.2 = true → Quiet K w i

instance (w : World σ φ) (i : ℕ) : Decidable (Quiet K w i) :=
  decidable_of_iff (∀ j ∈ List.range w.calls.length, ∀ f, w.calls[j]? = some f →
      K.writing f = true → j = i) (by
    constructor
    · intro h j f hf
      exact h j (List.mem_range.mpr (List.getElem?_eq_some_iff.mp hf).1) f hf
    · exact fun h j _ f hf => h j f hf)

instance (current : φ → ω → σ → Prop) [∀ f o st, Decidable (current f o st)] (w : World σ φ) :
    ∀ e, Decidable (Undisturbed K current w e)
  | .start _ => isTrue trivial
  | .advance i o => inferInstanceAs (Decidable (∀ f, w.calls[i]? = some f →
      current f o w.store ∧ ∀ r, K.act f o w.store = some r → K.writing f = false →
        K.writing r.2 = true → Quiet K w i))

/-- What the store promises while nobody writes, and what a writing call relies
on, carried from await to await. -/
structure Contract (current : φ → ω → σ → Prop) (Free : σ → Prop) (Holding : φ → σ → Prop) :
    Prop where
  entry_idle : ∀ f, K.entry f = true → K.writing f = false
  idle_free : ∀ f o st r, K.act f o st = some r → current f o st → K.writing f = false →
    K.writing r.2 = false → Free st → Free r.1
  idle_holding : ∀ f o st r g, K.act f o st = some r → current f o st → K.writing f = false →
    K.writing r.2 = false → K.writing g = true → Holding g st → Holding g r.1
  begins : ∀ f o st r, K.act f o st = some r → current f o st → K.writing f = false →
    K.writing r.2 = true → Free st → Holding r.2 r.1
  continues : ∀ f o st r, K.act f o st = some r → current f o st → K.writing f = true →
    K.writing r.2 = true → Holding f st → Holding r.2 r.1
  ends : ∀ f o st r, K.act f o st = some r → current f o st → K.writing f = true →
    K.writing r.2 = false → Holding f st → Free r.1

/-- At most one call is writing; the store is as it relies on, or else as it is
promised. -/
structure Kept (Free : σ → Prop) (Holding : φ → σ → Prop) (w : World σ φ) : Prop where
  one : ∀ (i j : ℕ) (f g : φ), w.calls[i]? = some f → w.calls[j]? = some g → K.writing f = true →
    K.writing g = true → i = j
  holding : ∀ (i : ℕ) (f : φ), w.calls[i]? = some f → K.writing f = true → Holding f w.store
  free : (∀ f ∈ w.calls, K.writing f = false) → Free w.store

variable {K} {current : φ → ω → σ → Prop} {Free : σ → Prop} {Holding : φ → σ → Prop}
variable {w : World σ φ} {i j : ℕ} {f g : φ} {o : ω} {st : σ}

theorem kept_start (hc : Contract K current Free Holding) (h : Kept K Free Holding w)
    (hf : K.entry f = true) :
    Kept K Free Holding
      { store := w.store
        calls := w.calls++[f] } := by
  have hold : ∀ {k : ℕ} {x : φ}, (w.calls++[f])[k]? = some x → K.writing x = true →
      w.calls[k]? = some x := by
    intro k x hk hx
    rw [List.getElem?_append] at hk
    split at hk
    · exact hk
    · rw [List.getElem?_singleton] at hk
      split at hk
      · rw [← Option.some.inj hk, hc.entry_idle f hf] at hx
        cases hx
      · cases hk
  exact
    { one := fun i j x y hi hj hx hy => h.one i j x y (hold hi hx) (hold hj hy) hx hy
      holding := fun i x hi hx => h.holding i x (hold hi hx) hx
      free := fun hn => h.free (fun x hx => hn x (List.mem_append_left _ hx)) }

theorem getElem?_set_cases {k : ℕ} {x : φ} {calls : List φ} (h : (calls.set i g)[k]? = some x) :
    (k = i ∧ x = g) ∨ (k ≠ i ∧ calls[k]? = some x) := by
  rw [List.getElem?_set] at h
  split at h
  · split at h
    · exact Or.inl ⟨by omega, (Option.some.inj h).symm⟩
    · cases h
  · exact Or.inr ⟨by omega, h⟩

theorem idle_of_nobody {calls : List φ} {P : Prop}
    (h : ∀ (k : ℕ) (x : φ), calls[k]? = some x → K.writing x = true → P) (hP : ¬ P) :
    ∀ x ∈ calls, K.writing x = false := by
  intro x hx
  obtain ⟨k, hk⟩ := List.mem_iff_getElem?.mp hx
  exact Bool.eq_false_of_not_eq_true (fun hw => hP (h k x hk hw))

/-- The call that writes goes on or finishes. -/
theorem kept_writer (hc : Contract K current Free Holding) (h : Kept K Free Holding w)
    (hf : w.calls[i]? = some f) (hact : K.act f o w.store = some (st, g))
    (hcur : current f o w.store) (hw : K.writing f = true) :
    Kept K Free Holding
      { store := st
        calls := w.calls.set i g } := by
  have hi : ∀ {k : ℕ} {x : φ}, (w.calls.set i g)[k]? = some x → K.writing x = true →
      k = i ∧ x = g := by
    intro k x hk hx
    rcases getElem?_set_cases hk with hsame | ⟨hne, hold⟩
    · exact hsame
    · exact absurd (h.one k i x f hold hf hx hw) hne
  have hlt : i < w.calls.length := (List.getElem?_eq_some_iff.mp hf).1
  exact
    { one := fun k l x y hk hl hx hy => (hi hk hx).1.trans (hi hl hy).1.symm
      holding := by
        intro k x hk hx
        obtain ⟨-, rfl⟩ := hi hk hx
        exact hc.continues f o w.store _ hact hcur hw hx (h.holding i f hf hw)
      free := fun hn => hc.ends f o w.store _ hact hcur hw
        (hn g (List.mem_set hlt g)) (h.holding i f hf hw) }

/-- A call begins to write when nobody else does. -/
theorem kept_begins (hc : Contract K current Free Holding) (h : Kept K Free Holding w)
    (hf : w.calls[i]? = some f) (hact : K.act f o w.store = some (st, g))
    (hcur : current f o w.store) (hidle : K.writing f = false) (hw : K.writing g = true)
    (hquiet : Quiet K w i) :
    Kept K Free Holding
      { store := st
        calls := w.calls.set i g } := by
  have hnobody : ∀ (k : ℕ) (x : φ), w.calls[k]? = some x → K.writing x = true → False := by
    intro k x hk hx
    obtain rfl := hquiet k x hk hx
    obtain rfl := Option.some.inj (hk.symm.trans hf)
    rw [hidle] at hx
    cases hx
  have hfree : Free w.store := h.free (idle_of_nobody hnobody id)
  have hi : ∀ {k : ℕ} {x : φ}, (w.calls.set i g)[k]? = some x → K.writing x = true →
      k = i ∧ x = g := by
    intro k x hk hx
    rcases getElem?_set_cases hk with hsame | ⟨-, hold⟩
    · exact hsame
    · exact (hnobody k x hold hx).elim
  have hlt : i < w.calls.length := (List.getElem?_eq_some_iff.mp hf).1
  exact
    { one := fun k l x y hk hl hx hy => (hi hk hx).1.trans (hi hl hy).1.symm
      holding := by
        intro k x hk hx
        obtain ⟨-, rfl⟩ := hi hk hx
        exact hc.begins f o w.store _ hact hcur hidle hx hfree
      free := by
        intro hn
        have := hn g (List.mem_set hlt g)
        rw [hw] at this
        cases this }

/-- A call that does not write goes on beside one that may. -/
theorem kept_idle (hc : Contract K current Free Holding) (h : Kept K Free Holding w)
    (hf : w.calls[i]? = some f) (hact : K.act f o w.store = some (st, g))
    (hcur : current f o w.store) (hidle : K.writing f = false) (hw : K.writing g = false) :
    Kept K Free Holding
      { store := st
        calls := w.calls.set i g } := by
  have hold : ∀ {k : ℕ} {x : φ}, (w.calls.set i g)[k]? = some x → K.writing x = true →
      w.calls[k]? = some x := by
    intro k x hk hx
    rcases getElem?_set_cases hk with ⟨-, rfl⟩ | ⟨-, hin⟩
    · rw [hw] at hx
      cases hx
    · exact hin
  exact
    { one := fun k l x y hk hl hx hy => h.one k l x y (hold hk hx) (hold hl hy) hx hy
      holding := fun k x hk hx => hc.idle_holding f o w.store _ x hact hcur hidle hw hx
        (h.holding k x (hold hk hx) hx)
      free := by
        intro hn
        refine hc.idle_free f o w.store _ hact hcur hidle hw (h.free (fun x hx => ?_))
        obtain ⟨k, hk⟩ := List.mem_iff_getElem?.mp hx
        by_cases hki : k = i
        · subst hki
          rw [Option.some.inj (hk.symm.trans hf)]
          exact hidle
        · refine hn x (List.mem_iff_getElem?.mpr ⟨k, ?_⟩)
          rw [List.getElem?_set_ne (fun he => hki he.symm)]
          exact hk }

theorem kept_step (hc : Contract K current Free Holding) (w : World σ φ) (e : Event φ ω)
    (t : World σ φ) (h : Kept K Free Holding w) (hok : Undisturbed K current w e)
    (ht : step K w e = some t) : Kept K Free Holding t := by
  cases e with
  | start f =>
    rw [step] at ht
    split at ht
    · obtain rfl := Option.some.inj ht
      exact kept_start hc h ‹_›
    · cases ht
  | advance i o =>
    obtain ⟨f, hf, hr⟩ := Option.bind_eq_some_iff.mp ht
    obtain ⟨⟨st, g⟩, hact, rfl⟩ := Option.map_eq_some_iff.mp hr
    obtain ⟨hcur, hbegin⟩ := hok f hf
    cases hwf : K.writing f with
    | true => exact kept_writer hc h hf hact hcur hwf
    | false =>
      cases hwg : K.writing g with
      | true => exact kept_begins hc h hf hact hcur hwf hwg (hbegin _ hact hwf hwg)
      | false => exact kept_idle hc h hf hact hcur hwf hwg

/-- In every run in which no call begins to write beside another or on a stale
reading, the store keeps its promise whenever nobody writes. -/
theorem always_free (hc : Contract K current Free Holding) (st : σ) (hst : Free st)
    (es : List (Event φ ω))
    (hok : Machine.Meets (step K) (Undisturbed K current)
      { store := st
        calls := [] } es) :
    Machine.Always (step K) (fun w => (∀ f ∈ w.calls, K.writing f = false) → Free w.store)
      { store := st
        calls := [] } es := by
  refine Machine.always_of_invariant (kept_step hc) (fun w h => h.free) es _ ?_ hok
  exact
    { one := by simp
      holding := by simp
      free := fun _ => hst }

end Uru.Lib.Calls
