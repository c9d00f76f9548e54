import Mathlib.Logic.Function.Basic
import Mathlib.Tactic

/-!
# Remote copies kept by requests

For each key a remote keeps a copy of a value that is wanted there. Each
sender has one request outstanding at most; the remote applies it at some
moment before the sender sees the reply, and a local record then takes down
the digest of what was sent. A copy is tended when all requests outstanding
for it are the same and leave it as wanted, or else a later look at the key
is due.
-/

set_option autoImplicit false

namespace Uru.Lib.RemoteCopy

variable {ι κ α δ : Type*}

/-- A `replace` drops the copy first and puts the value with its next request. -/
inductive Request (α : Type*) where
  | put (a : α)
  | drop
  | replace (a : α)
  deriving DecidableEq

def Request.result : Request α → Option α
  | .put a => some a
  | .drop => none
  | .replace _ => none

def Request.outcome : Request α → Option α
  | .put a => some a
  | .drop => none
  | .replace a => some a

/-- The request each sender has outstanding, its key and whether it is applied
already; the copies and the record; the values wanted and the keys that a
later look is due at. -/
structure Copies (ι κ α δ : Type*) where
  asked : ι → Option (κ × Request α × Bool)
  remote : κ → Option α
  record : κ → Option δ
  wanted : κ → Option α
  due : κ → Prop

def Idle (c : Copies ι κ α δ) (k : κ) : Prop := ∀ x r b, c.asked x ≠ some (k,r,b)

structure Tended (digest : α → δ) (c : Copies ι κ α δ) (k : κ) : Prop where
  agree : ∀ x y r r' b b', c.asked x = some (k,r,b) → c.asked y = some (k,r',b') → r = r'
  right : ∀ x r b, c.asked x = some (k,r,b) → r.outcome = c.wanted k ∨ c.due k
  applied : ∀ x r, c.asked x = some (k,r,true) → c.remote k = r.result
  idle : Idle c k → (c.remote k = c.wanted k ∨ c.due k) ∧
    ∀ d, c.record k = some d → ∃ a, c.remote k = some a ∧ digest a = d

/-- Once nothing is outstanding and no look is due, the copy is as wanted. -/
theorem tended_settled (digest : α → δ) (c : Copies ι κ α δ) (k : κ) (h : Tended digest c k)
    (hi : Idle c k) (hd : ¬ c.due k) : c.remote k = c.wanted k :=
  (h.idle hi).1.resolve_right hd

def Kept (c c' : Copies ι κ α δ) (k : κ) : Prop :=
  c'.due k ∨ c'.wanted k = c.wanted k ∧ (c.due k → c'.due k)

theorem kept_trans (c c' c'' : Copies ι κ α δ) (k : κ) (h : Kept c c' k) (h' : Kept c' c'' k) :
    Kept c c'' k := by
  rcases h' with hd' | ⟨hw', hd'⟩
  · exact Or.inl hd'
  · rcases h with hd | ⟨hw, hd⟩
    · exact Or.inl (hd' hd)
    · exact Or.inr ⟨hw'.trans hw,fun h => hd' (hd h)⟩

theorem kept_right (c c' : Copies ι κ α δ) (k : κ) (h : Kept c c' k) (v : Option α)
    (hv : v = c.wanted k ∨ c.due k) : v = c'.wanted k ∨ c'.due k := by
  rcases h with hd | ⟨hw, hd⟩
  · exact Or.inr hd
  · rw [hw]
    exact hv.imp id hd

structure Untouched (c c' : Copies ι κ α δ) (k : κ) : Prop where
  asked : ∀ x r b, c'.asked x = some (k,r,b) ↔ c.asked x = some (k,r,b)
  remote : c'.remote k = c.remote k
  record : c'.record k = c.record k

theorem untouched_idle (c c' : Copies ι κ α δ) (k : κ) (h : Untouched c c' k) :
    Idle c' k ↔ Idle c k := by
  simp only [Idle, ne_eq, h.asked]

theorem tended_kept (digest : α → δ) (c c' : Copies ι κ α δ) (k : κ) (h : Tended digest c k)
    (hu : Untouched c c' k) (hk : Kept c c' k) : Tended digest c' k := by
  refine ⟨fun x y r r' b b' hx hy => ?_,fun x r b hx => ?_,fun x r hx => ?_,fun hi => ?_⟩
  · exact h.agree x y r r' b b' ((hu.asked x r b).mp hx) ((hu.asked y r' b').mp hy)
  · exact kept_right c c' k hk _ (h.right x r b ((hu.asked x r b).mp hx))
  · rw [hu.remote]
    exact h.applied x r ((hu.asked x r true).mp hx)
  · obtain ⟨hright, hrecord⟩ := h.idle ((untouched_idle c c' k hu).mp hi)
    rw [hu.remote, hu.record]
    exact ⟨kept_right c c' k hk _ hright,hrecord⟩

/-- A look that finds nothing to send. -/
theorem tended_looked (digest : α → δ) (c c' : Copies ι κ α δ) (k : κ) (h : Tended digest c k)
    (hu : Untouched c c' k) (hw : c'.wanted k = c.wanted k)
    (hasked : ∀ x r b, c.asked x = some (k,r,b) → r.outcome = c.wanted k)
    (hidle : Idle c k → c.remote k = c.wanted k) : Tended digest c' k := by
  refine ⟨fun x y r r' b b' hx hy => ?_,fun x r b hx => ?_,fun x r hx => ?_,fun hi => ?_⟩
  · exact h.agree x y r r' b b' ((hu.asked x r b).mp hx) ((hu.asked y r' b').mp hy)
  · rw [hw]
    exact Or.inl (hasked x r b ((hu.asked x r b).mp hx))
  · rw [hu.remote]
    exact h.applied x r ((hu.asked x r true).mp hx)
  · have hi := (untouched_idle c c' k hu).mp hi
    rw [hu.remote, hu.record, hw]
    exact ⟨Or.inl (hidle hi),(h.idle hi).2⟩

variable [DecidableEq ι]

/-- The request of one sender changes, and neither the old one nor the new one
is for the key. -/
theorem update_elsewhere (f : ι → Option (κ × Request α × Bool)) (x : ι)
    (v : Option (κ × Request α × Bool)) (k : κ) (hold : ∀ r b, f x ≠ some (k,r,b))
    (hnew : ∀ r b, v ≠ some (k,r,b)) (y : ι) (r : Request α) (b : Bool) :
    Function.update f x v y = some (k,r,b) ↔ f y = some (k,r,b) := by
  by_cases hy : y = x
  · subst hy
    rw [Function.update_self]
    exact ⟨fun h => absurd h (hnew r b),fun h => absurd h (hold r b)⟩
  · rw [Function.update_of_ne hy]

/-- A request is sent. What it leaves is wanted, or a later look is due, and
all requests outstanding for the key are the same. -/
theorem tended_send (digest : α → δ) (c c' : Copies ι κ α δ) (k : κ) (x : ι) (r : Request α)
    (h : Tended digest c k) (hasked : c'.asked = Function.update c.asked x (some (k,r,false)))
    (hsame : ∀ y r' b, y ≠ x → c.asked y = some (k,r',b) → r' = r)
    (hremote : c'.remote k = c.remote k) (hright : r.outcome = c'.wanted k ∨ c'.due k) :
    Tended digest c' k := by
  have hall : ∀ y r' b, c'.asked y = some (k,r',b) →
      r' = r ∧ (b = true → c.asked y = some (k,r',b)) := by
    intro y r' b hy
    rw [hasked] at hy
    by_cases hyx : y = x
    · rw [hyx, Function.update_self] at hy
      cases hy
      exact ⟨rfl,by simp⟩
    · rw [Function.update_of_ne hyx] at hy
      exact ⟨hsame y r' b hyx hy,fun _ => hy⟩
  refine ⟨fun y z r₁ r₂ b b' hy hz => ?_,fun y r' b hy => ?_,fun y r' hy => ?_,fun hi => ?_⟩
  · rw [(hall y r₁ b hy).1, (hall z r₂ b' hz).1]
  · rw [(hall y r' b hy).1]
    exact hright
  · rw [hremote]
    exact h.applied y r' ((hall y r' true hy).2 rfl)
  · exact absurd (by rw [hasked, Function.update_self]) (hi x r false)

theorem tended_apply (digest : α → δ) (c c' : Copies ι κ α δ) (k : κ) (x : ι) (r : Request α)
    (h : Tended digest c k) (hx : c.asked x = some (k,r,false))
    (hasked : c'.asked = Function.update c.asked x (some (k,r,true)))
    (hremote : c'.remote k = r.result) (hk : Kept c c' k) : Tended digest c' k := by
  have hall : ∀ y r' b, c'.asked y = some (k,r',b) → r' = r := by
    intro y r' b hy
    rw [hasked] at hy
    by_cases hyx : y = x
    · rw [hyx, Function.update_self] at hy
      cases hy
      rfl
    · rw [Function.update_of_ne hyx] at hy
      exact h.agree y x r' r b false hy hx
  refine ⟨fun y z r₁ r₂ b b' hy hz => ?_,fun y r' b hy => ?_,fun y r' hy => ?_,fun hi => ?_⟩
  · rw [hall y r₁ b hy, hall z r₂ b' hz]
  · rw [hall y r' b hy]
    exact kept_right c c' k hk _ (h.right x r false hx)
  · rw [hremote, hall y r' true hy]
  · exact absurd (by rw [hasked, Function.update_self]) (hi x r true)

/-- The sender of a `put` or a `drop` sees the reply and takes it down. -/
theorem tended_reply (digest : α → δ) (c c' : Copies ι κ α δ) (k : κ) (x : ι) (r : Request α)
    (h : Tended digest c k) (hx : c.asked x = some (k,r,true)) (hr : r.outcome = r.result)
    (hasked : c'.asked = Function.update c.asked x none) (hremote : c'.remote k = c.remote k)
    (hrecord : c'.record k = r.result.map digest) (hk : Kept c c' k) : Tended digest c' k := by
  have hold : ∀ y r' b, c'.asked y = some (k,r',b) → c.asked y = some (k,r',b) := by
    intro y r' b hy
    rw [hasked] at hy
    by_cases hyx : y = x
    · rw [hyx, Function.update_self] at hy
      cases hy
    · rwa [Function.update_of_ne hyx] at hy
  have hnow := h.applied x r hx
  refine ⟨fun y z r₁ r₂ b b' hy hz => ?_,fun y r' b hy => ?_,fun y r' hy => ?_,fun _ => ⟨?_,?_⟩⟩
  · exact h.agree y z r₁ r₂ b b' (hold y r₁ b hy) (hold z r₂ b' hz)
  · exact kept_right c c' k hk _ (h.right y r' b (hold y r' b hy))
  · rw [hremote]
    exact h.applied y r' (hold y r' true hy)
  · rw [hremote, hnow, ← hr]
    exact kept_right c c' k hk _ (h.right x r true hx)
  · intro d hd
    rw [hrecord] at hd
    obtain ⟨a, ha, hda⟩ := Option.map_eq_some_iff.mp hd
    exact ⟨a,by rw [hremote, hnow, ha],hda⟩

/-- The sender of a `replace`, the only one there is, sees the reply and puts
the value. -/
theorem tended_replaced (digest : α → δ) (c c' : Copies ι κ α δ) (k : κ) (x : ι) (a : α)
    (h : Tended digest c k) (hx : c.asked x = some (k,.replace a,true))
    (honly : ∀ y k a b, c.asked y = some (k,.replace a,b) → y = x)
    (hasked : c'.asked = Function.update c.asked x (some (k,.put a,false)))
    (hremote : c'.remote k = c.remote k) (hk : Kept c c' k) : Tended digest c' k := by
  refine tended_send digest c c' k x (.put a) h hasked (fun y r' b hyx hy => ?_) hremote ?_
  · have hr := h.agree y x r' (.replace a) b true hy hx
    exact absurd (honly y k a b (hr ▸ hy)) hyx
  · exact kept_right c c' k hk _ (h.right x (.replace a) true hx)

end Uru.Lib.RemoteCopy
