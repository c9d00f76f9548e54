import Mathlib.Data.List.Pairwise
import Mathlib.Data.Prod.Lex
import Mathlib.Order.Lattice
import Mathlib.Tactic

/-!
# Marking against representatives

Pairs are gone through in lexicographic order. The later element of a pair, if
it has no mark yet, is marked with the representative of the earlier one when
the two pass a test. Each mark then points to an element without a mark, and
no two elements without marks that were compared pass the test.
-/

set_option autoImplicit false

namespace Uru.Lib

section Marking

variable {ι : Type*} [LinearOrder ι]

/-- One pair; `rep` gives the representative of the earlier element, if it has
one. -/
def mark (test : ι → ι → Bool) (rep : (ι → Option ι) → ι → Option ι) (d : ι → Option ι)
    (p : ι × ι) : ι → Option ι :=
  if (d p.2).isSome = true then d
  else
    match rep d p.1 with
    | none => d
    | some c => if test c p.2 = true then Function.update d p.2 (some c) else d

structure Marked (test : ι → ι → Bool) (pairs : List (ι × ι)) (d : ι → Option ι) : Prop where
  before : ∀ b c, d b = some c → c < b
  free : ∀ b c, d b = some c → d c = none
  passed : ∀ b c, d b = some c → test c b = true
  source : ∀ b c, d b = some c → ∃ a, (a,b) ∈ pairs ∧ c ≤ a
  failed : ∀ a b, (a,b) ∈ pairs → d a = none → d b = none → test a b = false

structure Represents (rep : (ι → Option ι) → ι → Option ι) (d : ι → Option ι) : Prop where
  free : ∀ a c, rep d a = some c → d c = none
  le : ∀ a c, rep d a = some c → c ≤ a
  self : ∀ a, d a = none → rep d a = some a

variable {test : ι → ι → Bool} {rep : (ι → Option ι) → ι → Option ι}

theorem marked_nil (test : ι → ι → Bool) : Marked test [] (fun _ => none) where
  before _ _ h := nomatch h
  free _ _ h := nomatch h
  passed _ _ h := nomatch h
  source _ _ h := nomatch h
  failed _ _ h := absurd h List.not_mem_nil

/-- A pair that writes no mark, its elements not both unmarked and passing. -/
theorem marked_skip {pairs : List (ι × ι)} {d : ι → Option ι} (h : Marked test pairs d) {p : ι × ι}
    (hp : d p.1 = none → d p.2 = none → test p.1 p.2 = false) :
    Marked test (pairs++[p]) d where
  before := h.before
  free := h.free
  passed := h.passed
  source b c hb := by
    obtain ⟨a, ha, hca⟩ := h.source b c hb
    exact ⟨a, List.mem_append_left _ ha, hca⟩
  failed a b hab ha hb := by
    rcases List.mem_append.mp hab with hab | hab
    · exact h.failed a b hab ha hb
    · obtain rfl := List.mem_singleton.mp hab
      exact hp ha hb

/-- The step: a mark written at a pair stays a mark of an unmarked element,
since no later pair can mark that element. -/
theorem marked_step {pairs : List (ι × ι)} {d : ι → Option ι} (h : Marked test pairs d)
    (hrep : Represents rep d) {p : ι × ι} (hp : p.1 < p.2)
    (hlast : ∀ q ∈ pairs, toLex q < toLex p) : Marked test (pairs++[p]) (mark test rep d p) := by
  obtain ⟨a, b⟩ := p
  unfold mark
  by_cases hb : (d b).isSome = true
  · rw [if_pos hb]
    refine marked_skip h (fun _ hnone => ?_)
    rw [hnone] at hb
    cases hb
  · rw [if_neg hb]
    rw [Option.not_isSome_iff_eq_none] at hb
    rcases hc : rep d a with _ | c
    · refine marked_skip h (fun hnone _ => ?_)
      rw [hrep.self a hnone] at hc
      cases hc
    · by_cases ht : test c b = true
      · simp only [if_pos ht]
        have hcb : c < b := (hrep.le a c hc).trans_lt hp
        -- a pair that marked with `b` would come after this one
        have hunused : ∀ b' c', d b' = some c' → c' ≠ b := by
          rintro b' c' hb' rfl
          obtain ⟨a', ha', hca⟩ := h.source b' c' hb'
          have hlex := Prod.Lex.toLex_lt_toLex.mp (hlast _ ha')
          rcases hlex with hlt | ⟨heq, -⟩
          · exact absurd (hca.trans_lt hlt) (not_lt.mpr hp.le)
          · exact absurd (hca.trans_eq heq) (not_le.mpr hp)
        constructor
        · intro b' c' hb'
          by_cases he : b' = b
          · subst he
            rw [Function.update_self, Option.some.injEq] at hb'
            exact hb' ▸ hcb
          · rw [Function.update_of_ne he] at hb'
            exact h.before b' c' hb'
        · intro b' c' hb'
          by_cases he : b' = b
          · subst he
            rw [Function.update_self, Option.some.injEq] at hb'
            subst hb'
            rw [Function.update_of_ne hcb.ne]
            exact hrep.free a c hc
          · rw [Function.update_of_ne he] at hb'
            rw [Function.update_of_ne (hunused b' c' hb')]
            exact h.free b' c' hb'
        · intro b' c' hb'
          by_cases he : b' = b
          · subst he
            rw [Function.update_self, Option.some.injEq] at hb'
            exact hb' ▸ ht
          · rw [Function.update_of_ne he] at hb'
            exact h.passed b' c' hb'
        · intro b' c' hb'
          by_cases he : b' = b
          · subst he
            rw [Function.update_self, Option.some.injEq] at hb'
            exact ⟨a, List.mem_append_right _ (List.mem_singleton_self _), hb' ▸ hrep.le a c hc⟩
          · rw [Function.update_of_ne he] at hb'
            obtain ⟨a', ha', hca⟩ := h.source b' c' hb'
            exact ⟨a', List.mem_append_left _ ha', hca⟩
        · intro a' b' hab ha' hb'
          have hne : b' ≠ b := by
            rintro rfl
            rw [Function.update_self] at hb'
            cases hb'
          have hne' : a' ≠ b := by
            rintro rfl
            rw [Function.update_self] at ha'
            cases ha'
          rw [Function.update_of_ne hne] at hb'
          rw [Function.update_of_ne hne'] at ha'
          rcases List.mem_append.mp hab with hab | hab
          · exact h.failed a' b' hab ha' hb'
          · exact absurd (congrArg Prod.snd (List.mem_singleton.mp hab)) hne
      · simp only [if_neg ht]
        refine marked_skip h (fun hnone _ => ?_)
        rw [hrep.self a hnone, Option.some.injEq] at hc
        subst hc
        exact Bool.eq_false_iff.mpr ht

/-- The run over the pairs in lexicographic order. -/
theorem marked_run {pairs : List (ι × ι)} (hsorted : pairs.Pairwise (fun p q => toLex p < toLex q))
    (hlt : ∀ p ∈ pairs, p.1 < p.2) (hrep : ∀ prefixed d, Marked test prefixed d → Represents rep d) :
    Marked test pairs (pairs.foldl (mark test rep) (fun _ => none)) := by
  induction pairs using List.reverseRecOn with
  | nil => exact marked_nil test
  | append_singleton pairs p ih =>
    rw [List.pairwise_append] at hsorted
    have hrun := ih hsorted.1 (fun q hq => hlt q (List.mem_append_left _ hq))
    rw [List.foldl_append]
    exact marked_step hrun (hrep _ _ hrun) (hlt p (List.mem_append_right _ (List.mem_singleton_self p)))
      (fun q hq => hsorted.2.2 q hq p (List.mem_singleton_self p))

end Marking

end Uru.Lib
