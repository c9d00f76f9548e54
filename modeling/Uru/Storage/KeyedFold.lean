import Uru.Storage.EntityUpsert

/-!
# The batch upsert is a keyed fold

The loop over the batch keeps, under each key, the fold of the members so far,
and lists each key without a row once. After the writes the row of a key holds
its fold; the rows of other keys are as they were.
-/

set_option autoImplicit false

namespace Uru.Storage.EntityUpsert

variable {J : Type}

theorem folded_eq_none {ns : UUID} {r : Option (Entity J)} {es : List (Entity J)} :
    folded ns r es = none ↔ r = none ∧ es = [] := by
  rcases r with _ | r
  · rcases es with _ | ⟨e, es⟩
    · simp [folded]
    · simp [folded]
  · simp [folded]

theorem members_eq_nil {k : Key} {es : List (Entity J)} :
    members k es = [] ↔ k ∉ es.map Entity.key := by
  simp only [members, List.filter_eq_nil_iff, decide_eq_true_eq, List.mem_map, not_exists, not_and]

local instance lawful_keys : LawfulBEq Key := inferInstance

/-- Whether a member is the first of a key without a row. -/
def isNew (before : Key → Option (Entity J)) (es : List (Entity J)) (i : ℕ) (k : Key) : Bool :=
  (before k).isNone && k ∉ (es.take i).map Entity.key

def newcomers (before : Key → Option (Entity J)) (es : List (Entity J)) : List (Entity J) :=
  es.foldl (fun firsts e =>
    if before e.key = none ∧ e.key ∉ firsts.map Entity.key then firsts++[e] else firsts) []

theorem newcomers_snoc (before : Key → Option (Entity J)) (es : List (Entity J)) (e : Entity J) :
    newcomers before (es++[e]) =
      if before e.key = none ∧ e.key ∉ (newcomers before es).map Entity.key then
        newcomers before es++[e]
      else newcomers before es := by
  rw [newcomers, List.foldl_append]
  rfl

structure Classified (ns : UUID) (before : Key → Option (Entity J)) (es : List (Entity J))
    (s : Loop J) : Prop where
  objects : ∀ k, s.existingMap k = folded ns (before k) (members k es)
  once : s.toInsert.Nodup
  inserts : ∀ k, k ∈ s.toInsert ↔ before k = none ∧ k ∈ es.map Entity.key
  firsts : s.toInsert = (newcomers before es).map Entity.key
  named : ∀ e ∈ newcomers before es, (s.existingMap e.key).map Entity.id = some e.id
  updates : ∀ k ∈ s.toUpdate, k ∈ es.map Entity.key
  stored : ∀ k, before k ≠ none → k ∈ es.map Entity.key → k ∈ s.toUpdate
  length : s.results.length = es.length
  results : ∀ i e, es[i]? = some e → s.results[i]? = some (e.key,isNew before es i e.key)
  synced : s.synced.map some = es.map (fun e => (s.existingMap e.key).map Entity.id)

theorem classified_nil (ns : UUID) (before : Key → Option (Entity J)) :
    Classified ns before [] ⟨before,[],[],[],[]⟩ := by
  constructor
  · intro k
    show before k = folded ns (before k) []
    rcases before k with _ | r
    · rfl
    · rfl
  all_goals simp [newcomers]

/-- An index of a list with one more element. -/
theorem getElem?_snoc {α : Type} {xs : List α} {x y : α} {i : ℕ} (h : (xs++[x])[i]? = some y) :
    xs[i]? = some y ∧ i < xs.length ∨ i = xs.length ∧ x = y := by
  rcases lt_or_ge i xs.length with hlt | hge
  · rw [List.getElem?_append_left hlt] at h
    exact .inl ⟨h, hlt⟩
  · rw [List.getElem?_append_right hge, List.getElem?_singleton] at h
    split at h
    · exact .inr ⟨by omega, Option.some.inj h⟩
    · cases h

theorem isNew_snoc {before : Key → Option (Entity J)} {es : List (Entity J)} {e : Entity J} {i : ℕ}
    (h : i ≤ es.length) (k : Key) : isNew before (es++[e]) i k = isNew before es i k := by
  unfold isNew
  rw [List.take_append_of_le_length h]

theorem results_snoc {before : Key → Option (Entity J)} {es : List (Entity J)} {e : Entity J}
    {results : List (Key × Bool)} {b : Bool} (hlen : results.length = es.length)
    (hold : ∀ i e, es[i]? = some e → results[i]? = some (e.key,isNew before es i e.key))
    (hb : b = isNew before es es.length e.key) (i : ℕ) (f : Entity J)
    (hf : (es++[e])[i]? = some f) :
    (results++[(e.key,b)])[i]? = some (f.key,isNew before (es++[e]) i f.key) := by
  rcases getElem?_snoc hf with ⟨hfi, hlt⟩ | ⟨rfl, rfl⟩
  · rw [List.getElem?_append_left (hlen ▸ hlt), isNew_snoc hlt.le]
    exact hold i f hfi
  · rw [← hlen, List.getElem?_concat_length, hlen, isNew_snoc le_rfl, hb]

theorem classified_step {ns : UUID} {before : Key → Option (Entity J)} {es : List (Entity J)}
    {s : Loop J} (h : Classified ns before es s) (e : Entity J) :
    Classified ns before (es++[e]) (classify ns s e) := by
  have hmem : ∀ k, k ∈ (es++[e]).map Entity.key ↔ k ∈ es.map Entity.key ∨ k = e.key := by
    intro k
    rw [List.map_append, List.mem_append, List.map_singleton, List.mem_singleton]
  have hobjects : ∀ v, folded ns (before e.key) (members e.key (es++[e])) = some v →
      ∀ k, Function.update s.existingMap e.key (some v) k =
        folded ns (before k) (members k (es++[e])) := by
    intro v hv k
    by_cases hk : k = e.key
    · subst hk
      rw [Function.update_self, hv]
    · rw [Function.update_of_ne hk, h.objects, members_snoc, if_neg (fun he => hk he.symm)]
  unfold classify
  rcases hx : s.existingMap e.key with _ | x
  · obtain ⟨hrow, hnil⟩ := folded_eq_none.mp ((h.objects e.key).symm.trans hx)
    rw [members_eq_nil] at hnil
    have hnew : newcomers before (es++[e]) = newcomers before es++[e] := by
      rw [newcomers_snoc, ← h.firsts, if_pos ⟨hrow, fun hk => hnil ((h.inserts _).mp hk).2⟩]
    dsimp only
    constructor
    · refine hobjects _ ?_
      rw [members_snoc, if_pos rfl, folded_snoc, ← h.objects, hx]
    · refine List.nodup_append.mpr ⟨h.once, List.nodup_singleton _, fun a ha b hb => ?_⟩
      rw [List.mem_singleton] at hb
      rintro rfl
      exact hnil (hb ▸ ((h.inserts a).mp ha).2)
    · intro k
      rw [List.mem_append, List.mem_singleton, h.inserts, hmem]
      constructor
      · rintro (⟨hb, hk⟩ | rfl)
        · exact ⟨hb, .inl hk⟩
        · exact ⟨hrow, .inr rfl⟩
      · rintro ⟨hb, hk | hk⟩
        · exact .inl ⟨hb, hk⟩
        · exact .inr hk
    · rw [hnew, List.map_append, h.firsts, List.map_singleton]
    · intro f hf
      rw [hnew, List.mem_append, List.mem_singleton] at hf
      dsimp only
      rcases hf with hf | rfl
      · have hk : f.key ∈ s.toInsert := h.firsts ▸ List.mem_map_of_mem hf
        have hne : f.key ≠ e.key := fun he => hnil (he ▸ ((h.inserts _).mp hk).2)
        rw [Function.update_of_ne hne]
        exact h.named f hf
      · rw [Function.update_self]
        rfl
    · exact fun k hk => (hmem k).mpr (.inl (h.updates k hk))
    · intro k hb hk
      rcases (hmem k).mp hk with hk | rfl
      · exact h.stored k hb hk
      · exact absurd hrow hb
    · simp [h.length]
    · refine results_snoc h.length h.results ?_
      rw [isNew, hrow, List.take_length]
      simp [hnil]
    · rw [List.map_append, List.map_append, h.synced]
      congr 1
      · refine List.map_congr_left (fun f hf => ?_)
        have hk : f.key ≠ e.key := fun hk => hnil (hk.symm ▸ List.mem_map_of_mem hf)
        dsimp only
        rw [Function.update_of_ne hk]
      · simp
  · have hsome : ¬ (before e.key = none ∧ e.key ∉ es.map Entity.key) := by
      rw [← members_eq_nil]
      intro hnone
      have hobject := (h.objects e.key).trans (folded_eq_none.mpr hnone)
      exact Option.some_ne_none x (hx.symm.trans hobject)
    have hnew : newcomers before (es++[e]) = newcomers before es := by
      rw [newcomers_snoc, ← h.firsts, if_neg]
      rintro ⟨hb, hk⟩
      exact hsome ⟨hb, fun he => hk ((h.inserts _).mpr ⟨hb, he⟩)⟩
    dsimp only
    constructor
    · refine hobjects _ ?_
      rw [members_snoc, if_pos rfl, folded_snoc, ← h.objects, hx]
    · exact h.once
    · intro k
      rw [h.inserts, hmem]
      refine and_congr_right (fun hb => ⟨.inl, fun hk => hk.elim id ?_⟩)
      rintro rfl
      by_contra hn
      exact hsome ⟨hb, hn⟩
    · rw [hnew, h.firsts]
    · intro f hf
      rw [hnew] at hf
      rw [← h.named f hf]
      dsimp only
      by_cases hk : f.key = e.key
      · rw [hk, Function.update_self, hx]
        rfl
      · rw [Function.update_of_ne hk]
    · intro k hk
      rw [hmem]
      exact (List.mem_append.mp hk).imp (h.updates k) List.mem_singleton.mp
    · intro k hb hk
      rw [List.mem_append, List.mem_singleton]
      exact ((hmem k).mp hk).imp_left (h.stored k hb)
    · simp [h.length]
    · refine results_snoc h.length h.results ?_
      rw [isNew, List.take_length, eq_comm, Bool.and_eq_false_iff]
      by_contra hn
      rw [not_or] at hn
      exact hsome ⟨by simpa using hn.1, by simpa using hn.2⟩
    · rw [List.map_append, List.map_append, h.synced]
      congr 1
      · refine List.map_congr_left (fun f hf => ?_)
        dsimp only
        by_cases hk : f.key = e.key
        · rw [hk, Function.update_self, hx]
          rfl
        · rw [Function.update_of_ne hk]
      · simp

theorem classified (ns : UUID) (before : Key → Option (Entity J)) (es : List (Entity J)) :
    Classified ns before es (es.foldl (classify ns) ⟨before,[],[],[],[]⟩) := by
  induction es using List.reverseRecOn with
  | nil => exact classified_nil ns before
  | append_singleton es e ih =>
    rw [List.foldl_append]
    exact classified_step ih e

end Uru.Storage.EntityUpsert
