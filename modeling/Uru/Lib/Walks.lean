import Mathlib.Data.List.Nodup
import Mathlib.Tactic

/-!
# Walks

Walks over edges with identities: a list of edges, each hopped from where the
one before it ended. Where an edge has two ends only, a walk that uses an edge
twice can be shortened, so that what walks of a length reach, walks without
repeated edges reach too.
-/

set_option autoImplicit false

namespace Uru.Lib

variable {V E : Type*}

def Walk (hop : E → V → V → Prop) : V → List E → V → Prop
  | u, [], v => u = v
  | u, e::es, v => ∃ w, hop e u w ∧ Walk hop w es v

variable {hop hop' : E → V → V → Prop} {u v w : V} {e : E} {es fs : List E}

theorem walk_append : Walk hop u (es++fs) w ↔ ∃ v, Walk hop u es v ∧ Walk hop v fs w := by
  induction es generalizing u with
  | nil => simp [Walk]
  | cons e es ih =>
    simp only [List.cons_append, Walk, ih]
    constructor
    · rintro ⟨x, hx, y, hy, hw⟩
      exact ⟨y, ⟨x, hx, hy⟩, hw⟩
    · rintro ⟨y, ⟨x, hx, hy⟩, hw⟩
      exact ⟨x, hx, y, hy, hw⟩

theorem walk_singleton : Walk hop u [e] w ↔ hop e u w := by simp [Walk]

theorem walk_concat : Walk hop u (es++[e]) w ↔ ∃ v, Walk hop u es v ∧ hop e v w := by
  simp only [walk_append, walk_singleton]

theorem walk_mono (h : ∀ e ∈ es, ∀ u v, hop e u v → hop' e u v) (hw : Walk hop u es w) :
    Walk hop' u es w := by
  induction es generalizing u with
  | nil => exact hw
  | cons e es ih =>
    obtain ⟨v, hv, hrest⟩ := hw
    exact ⟨v, h e (by simp) u v hv, ih (fun f hf => h f (by simp [hf])) hrest⟩

/-- The hops of a walk, one for each of its edges. -/
theorem walk_hop (hw : Walk hop u es w) (he : e ∈ es) : ∃ p q, hop e p q := by
  induction es generalizing u with
  | nil => cases he
  | cons f es ih =>
    obtain ⟨v, hv, hrest⟩ := hw
    rcases List.mem_cons.mp he with rfl | he'
    · exact ⟨u, v, hv⟩
    · exact ih hrest he'

/-- A walk that uses an edge has a beginning that uses it last. -/
theorem walk_to (hw : Walk hop u es w) (he : e ∈ es) :
    ∃ fs v, Walk hop u (fs++[e]) v ∧ e ∉ fs ∧ fs.length+1 ≤ es.length ∧ fs ⊆ es := by
  obtain ⟨fs, gs, rfl, hnot⟩ := List.eq_append_cons_of_mem he
  obtain ⟨v, hfs, hrest⟩ := walk_append.mp hw
  obtain ⟨x, hx, -⟩ := hrest
  exact ⟨fs, x, walk_concat.mpr ⟨v, hfs, hx⟩, hnot, by simp, by simp⟩

section Ends

/-- An edge joins two ends, in both directions or in one. -/
def TwoEnds (hop : E → V → V → Prop) : Prop :=
  ∀ e u v p q, hop e u v → hop e p q → p = u ∧ q = v ∨ p = v ∧ q = u

variable (hends : TwoEnds hop)
include hends

theorem walk_trail (hw : Walk hop u es w) :
    ∃ fs, Walk hop u fs w ∧ fs.Nodup ∧ fs ⊆ es ∧ fs.length ≤ es.length := by
  induction es using List.reverseRecOn generalizing w with
  | nil => exact ⟨[], hw, List.nodup_nil, List.Subset.refl _, le_rfl⟩
  | append_singleton es e ih =>
    obtain ⟨v, hes, hv⟩ := walk_concat.mp hw
    obtain ⟨fs, hfs, hnodup, hsub, hlen⟩ := ih hes
    have hlen' : (es++[e]).length = es.length+1 := by simp
    by_cases hmem : e ∈ fs
    · -- the edge is used before: cut at its first use
      obtain ⟨as, bs, rfl, -⟩ := List.eq_append_cons_of_mem hmem
      obtain ⟨p, has, q, hq, -⟩ := walk_append.mp hfs
      have hcut : (as++e::bs).length = as.length+(e::bs).length := List.length_append
      rw [List.length_cons] at hcut
      rcases hends e v w p q hv hq with ⟨rfl, rfl⟩ | ⟨rfl, rfl⟩
      · refine ⟨as++[e], walk_concat.mpr ⟨p, has, hq⟩, ?_, fun x hx => ?_, ?_⟩
        · exact hnodup.sublist (List.Sublist.append_left (by simp) as)
        · have hx' : x ∈ as ∨ x = e := by simpa using hx
          rcases hx' with ha | rfl
          · exact List.mem_append_left _ (hsub (by simp [ha]))
          · simp
        · simp only [List.length_append, List.length_singleton]
          omega
      · refine ⟨as, has, hnodup.of_append_left, fun x hx => ?_, by omega⟩
        exact List.mem_append_left _ (hsub (by simp [hx]))
    · refine ⟨fs++[e], walk_concat.mpr ⟨v, hfs, hv⟩, ?_, fun x hx => ?_, ?_⟩
      · simpa using hnodup.concat hmem
      · have hx' : x ∈ fs ∨ x = e := by simpa using hx
        rcases hx' with ha | rfl
        · exact List.mem_append_left _ (hsub ha)
        · simp
      · simp only [List.length_append, List.length_singleton]
        omega

/-- An edge that a walk uses is the last edge of a walk without repetitions. -/
theorem trail_to (hw : Walk hop u es w) (he : e ∈ es) :
    ∃ fs v, Walk hop u (fs++[e]) v ∧ (fs++[e]).Nodup ∧ (fs++[e]).length ≤ es.length := by
  obtain ⟨gs, v, hgs, hnot, hlen, -⟩ := walk_to hw he
  obtain ⟨x, hx, hv⟩ := walk_concat.mp hgs
  obtain ⟨fs, hfs, hnodup, hsub, hle⟩ := walk_trail hends hx
  refine ⟨fs, v, walk_concat.mpr ⟨x, hfs, hv⟩, ?_, ?_⟩
  · simpa using hnodup.concat (fun hmem => hnot (hsub hmem))
  · rw [List.length_append, List.length_singleton]
    omega

end Ends

end Uru.Lib
