import Uru.Indexing.Tending

/-!
# The index converges

Along orderly runs the requests for each path keep the backend's copy of the
note tended: what is outstanding leaves what the note calls for, or a later
look at it is due. Once nothing is outstanding the backend holds exactly the
documents of the notes as they are. Runs that are not orderly need not
converge.
-/

set_option autoImplicit false

namespace Uru.Indexing.Interleaving
open Uru.Lib Uru.Lib.RemoteCopy Uru.Lib.Machine

structure Inv (c : Config) (s : Indexer) : Prop where
  sound : Sound c s
  tended : ∀ p, Tended c.hash (copies c s) p

theorem inv_step (c : Config) (s : Indexer) (e : Event) (s' : Indexer) (h : Inv c s)
    (ho : Orderly c s e) (hst : step c s e = some s') : Inv c s' := by
  refine ⟨sound_step c s e s' h.sound ho hst,fun q => ?_⟩
  have hq := h.tended q
  cases e with
  | create p basename mtime raw => exact tended_create c s h.sound p basename mtime raw s' hst q hq
  | modify p mtime raw => exact tended_modify c s h.sound p mtime raw s' hst q hq
  | delete p t => exact tended_delete c s h.sound p t ho.1 s' hst q hq
  | rename p p' basename t => exact tended_rename c s h.sound p p' basename t ho.1 s' hst q hq
  | fire n t => exact tended_fire c s n t s' hst q hq
  | resume t =>
    obtain ⟨k, hk, hst⟩ := Option.bind_eq_some_iff.mp hst
    exact tended_resume c s t k hk ho s' hst q hq
  | remembered t docId now => exact tended_remembered c s h.sound t docId now s' hst q hq
  | apply t => exact tended_applied c s t s' hst q hq
  | fullIndex force =>
    have hstep := hst
    simp only [step] at hst
    split at hst
    · rename_i hfull
      cases hst
      have hself : asked s none = none := by simp [asked, hfull]
      exact tended_goesOn c s _ hself (forgetNext_request _ false s.store.knownPaths)
        (inTurn_of_step c s _ ho.1 s.store false _ hstep (by simp [hself])) q hq
    · cases hst
      exact hq
  | resumeFull =>
    obtain ⟨w, hw, hst⟩ := Option.bind_eq_some_iff.mp hst
    exact tended_resumeFull c s w hw ho.1 s' hst q hq
  | rememberedFull docId now =>
    exact tended_rememberedFull c s h.sound docId now ho.1 s' hst q hq
  | applyFull =>
    obtain ⟨w, hw, hst⟩ := Option.bind_eq_some_iff.mp hst
    split at hst <;> cases hst
    rename_i p r hr
    refine tended_taken c s { s with
      backend := Function.update s.backend p r.result
      full := some { w with phase := w.phase.applied } } none p r (by simp [asked, hw, hr]) ?_ rfl rfl
        q (Or.inr ⟨rfl,id⟩) hq
    have happlied := phase_applied_request w.phase p r false hr
    funext x
    cases x with
    | none => simp [asked, happlied]
    | some t => rfl
  | stop =>
    cases hst
    exact hq

theorem wanted_some (c : Config) (s : Indexer) (p : String) (t : Text) : wanted c s p = some t ↔
    isIgnored c.settings p = false ∧ ∃ raw, s.noteAt p = some raw ∧
      t = readContent c.settings.includeFrontmatter raw ∧ isBlank t = false := by
  unfold wanted
  split
  · rename_i hi
    simp [hi]
  · rename_i hi
    simp only [Bool.not_eq_true] at hi
    simp only [Option.bind_eq_some_iff, hi, true_and]
    refine exists_congr (fun raw => and_congr_right (fun _ => ?_))
    split
    · rename_i hb
      simp only [reduceCtorEq, false_iff, not_and]
      rintro rfl
      simp [hb]
    · rename_i hb
      simp only [Option.some.injEq]
      refine ⟨fun ht => ⟨ht.symm,?_⟩,fun ht => ht.1.symm⟩
      rw [← ht]
      simpa using hb

theorem converged_iff (c : Config) (s : Indexer) :
    Converged c s ↔ ∀ p, s.backend p = wanted c s p := by
  refine forall_congr' (fun p => ⟨fun h => ?_,fun h t => ?_⟩)
  · exact Option.ext (fun t => (h t).trans (wanted_some c s p t).symm)
  · rw [h]
    exact wanted_some c s p t

/-- A state to start from: nothing outstanding, the backend in step with the
vault, and what the store tracks in the backend. -/
structure Settled (c : Config) (s : Indexer) : Prop where
  quiescent : Quiescent s
  converged : Converged c s
  tracked : ∀ p e, s.store.get p = some e → ∃ t, s.backend p = some t ∧ c.hash t = e.hash
  located : ∀ p f, s.vault.get p = some f → s.path f = p ∧ f < s.nextFile
  pending : ∀ p n, s.pending p = some n → n < s.nextTimer

theorem settled_init (c : Config) : Settled c init := by
  refine ⟨⟨fun _ => rfl,fun _ => rfl,rfl⟩,fun p t => ?_,?_,?_,?_⟩
  · simp [init, Indexer.noteAt]
  all_goals simp [init, HashStore.get]

theorem idle_quiescent (c : Config) (s : Indexer) (h : Quiescent s) (p : String) :
    Idle (copies c s) p := by
  intro x r b
  cases x with
  | none => simp [copies, asked, h.2.2]
  | some t => simp [copies, asked, h.2.1]

theorem inv_settled (c : Config) (s : Indexer) (h : Settled c s) : Inv c s := by
  obtain ⟨htimers, htasks, hfull⟩ := h.quiescent
  refine ⟨⟨h.located,by simp [htimers],h.pending,by simp [htasks],by simp [hfull]⟩,fun p => ?_⟩
  have hidle := idle_quiescent c s h.quiescent p
  refine ⟨fun x _ r _ b _ hx => absurd hx (hidle x r b),fun x r b hx => absurd hx (hidle x r b),
    fun x r hx => absurd hx (hidle x r true),fun _ => ⟨Or.inl ((converged_iff c s).mp h.converged p),
      fun d hd => ?_⟩⟩
  obtain ⟨e, he, rfl⟩ := Option.map_eq_some_iff.mp hd
  exact h.tracked p e he

theorem not_due_quiescent (c : Config) (s : Indexer) (h : Quiescent s) (p : String) :
    ¬ Due c s p := by
  rintro ⟨-, ⟨n, f, hn, -⟩ | ⟨t, ht⟩⟩
  · simp [h.1] at hn
  · simp [h.2.1, Looking] at ht

theorem inv_converged (c : Config) (s : Indexer) (h : Inv c s) (hq : Quiescent s) :
    Converged c s :=
  (converged_iff c s).mpr (fun p => tended_settled c.hash (copies c s) p (h.tended p)
    (idle_quiescent c s hq p) (not_due_quiescent c s hq p))

/-- Whenever nothing is outstanding along an orderly run, the backend holds
exactly the documents of the notes as they are. -/
theorem index_converges (c : Config) (s : Indexer) (hs : Settled c s) (es : List Event)
    (h : Meets (step c) (Orderly c) s es) :
    Always (step c) (fun s => Quiescent s → Converged c s) s es :=
  always_of_invariant (inv_step c) (inv_converged c) es s (inv_settled c s hs) h

def Alone (s : Indexer) : Prop := s.full = none ∧ ∀ u, s.tasks (u+1) = none

theorem asked_alone (s : Indexer) (h : Alone s) (x : Option ℕ) (a : Asked)
    (ha : asked s x = some a) : x = some 0 ∧ (s.tasks 0).bind Task.request = some a := by
  rcases x with _ | _ | u
  · simp [asked, h.1] at ha
  · exact ⟨rfl,ha⟩
  · simp [asked, h.2 u] at ha

/-- A step after which no request is still to be applied. -/
theorem orderly_alone (c : Config) (s s' : Indexer) (e : Event) (hst : step c s e = some s')
    (h : Alone s') (hno : ∀ p r, (s'.tasks 0).bind Task.request ≠ some (p,r,false))
    (hdec : ∀ t k, e = .resume t → s.tasks t = some k → DecidesRight c s k) : Orderly c s e := by
  refine ⟨fun s'' x p r hst' hx _ => ?_,hdec⟩
  rw [hst] at hst'
  cases hst'
  exact absurd (asked_alone s' h x _ hx).2 (hno p r)

def plain : Config := ⟨String.ofList,⟨false,[]⟩⟩

theorem index_converges_note : Always (step plain) (fun s => Quiescent s → Converged plain s) init
    [.create "a.md" "a" 0 "alpha".toList,.fire 0 0,.resume 0,.resume 0,.resume 0,.apply 0,
      .remembered 0 "d" 1,.resume 0] := by
  refine index_converges plain init (settled_init plain) _ ⟨?_,fun _ h => ?_⟩
  · exact orderly_alone _ _ _ _ rfl ⟨rfl,fun _ => rfl⟩ (by rintro _ _ ⟨⟩) (by rintro _ _ ⟨⟩)
  cases h
  refine ⟨?_,fun _ h => ?_⟩
  · exact orderly_alone _ _ _ _ rfl ⟨rfl,fun _ => rfl⟩ (by rintro _ _ ⟨⟩) (by rintro _ _ ⟨⟩)
  cases h
  refine ⟨?_,fun _ h => ?_⟩
  · exact orderly_alone _ _ _ _ rfl ⟨rfl,fun _ => rfl⟩ (by rintro _ _ ⟨⟩)
      (by rintro _ _ ⟨⟩ ⟨⟩; trivial)
  cases h
  refine ⟨?_,fun _ h => ?_⟩
  · exact orderly_alone _ _ _ _ rfl ⟨rfl,fun _ => rfl⟩ (by rintro _ _ ⟨⟩)
      (by rintro _ _ ⟨⟩ ⟨⟩; trivial)
  cases h
  refine ⟨⟨fun s' x p r hst hx _ => ?_,by rintro _ _ ⟨⟩ ⟨⟩; rfl⟩,fun _ h => ?_⟩
  · cases hst
    obtain ⟨rfl, hr⟩ := asked_alone _ ⟨rfl,fun _ => rfl⟩ x _ hx
    cases hr
    refine ⟨fun y r' b hy h => ?_,Or.inl rfl⟩
    exact absurd (asked_alone _ ⟨rfl,fun _ => rfl⟩ y _ h).1 hy
  cases h
  refine ⟨?_,fun _ h => ?_⟩
  · exact orderly_alone _ _ _ _ rfl ⟨rfl,fun _ => rfl⟩ (by rintro _ _ ⟨⟩) (by rintro _ _ ⟨⟩)
  cases h
  refine ⟨?_,fun _ h => ?_⟩
  · exact orderly_alone _ _ _ _ rfl ⟨rfl,fun _ => rfl⟩ (by rintro _ _ ⟨⟩) (by rintro _ _ ⟨⟩)
  cases h
  refine ⟨?_,fun _ _ => trivial⟩
  exact orderly_alone _ _ _ _ rfl ⟨rfl,fun _ => rfl⟩ (by rintro _ _ ⟨⟩)
    (by rintro _ _ ⟨⟩ ⟨⟩; trivial)

/-- Two handlers of one note overlap, and the backend applies the later
request first. Nothing looks at the note again. -/
theorem overlapping_handlers_diverge : ∃ s, run (step plain) init
      [.create "a.md" "a" 0 "alpha".toList,.fire 0 0,.resume 0,.resume 0,.resume 0,
        .modify "a.md" 1 "beta".toList,.fire 1 1,.resume 1,.resume 1,.resume 1,.apply 1,.apply 0,
        .remembered 1 "d" 1,.remembered 0 "d" 2,.resume 0,.resume 1] = some s ∧ Quiescent s ∧
    s.noteAt "a.md" = some "beta".toList ∧ s.backend "a.md" = some "alpha".toList ∧
    ¬ Converged plain s := by
  refine ⟨_,rfl,⟨fun n => ?_,fun t => ?_,rfl⟩,rfl,rfl,fun h => ?_⟩
  · rcases n with _ | _ | n <;> rfl
  · rcases t with _ | _ | t <;> rfl
  · obtain ⟨-, raw, hraw, ht, -⟩ := (h "a.md" "alpha".toList).mp rfl
    have hbeta : raw = "beta".toList := (Option.some.inj hraw).symm
    subst hbeta
    exact absurd ht (by decide)

end Uru.Indexing.Interleaving
