import Mathlib.Data.Finset.Card
import Mathlib.Data.List.Nodup
import Mathlib.Tactic
import Uru.Extraction.EntityBlocking
import Uru.Lib.Record
import Uru.Lib.SortOn
import Uru.Lib.UnionFind

/-!
# Cross-tool unification

Entities that match in a field, in their name, in their embedding or nearly in
their name are merged, the chains of matches with them. Names are compared
through an index of their tokens where there is one, and pair by pair where
there is none.
-/

set_option autoImplicit false

namespace Uru.Extraction.CrossToolUnifier
open Uru.Lib EntityBlocking

section Pairs

variable {α κ : Type} [DecidableEq κ]

/-- A dictionary of lists, filled in order; elements without a key are left out. -/
def groupBy (key : α → Option κ) (es : List α) : Record κ (List α) :=
  es.foldl (fun groups e =>
    match key e with
    | none => groups
    | some k => groups.set k ((groups.get k).getD []++[e])) ∅

def pairsOf : List α → List (α × α)
  | [] => []
  | e::es => es.map (fun e' => (e,e'))++pairsOf es

theorem groupBy_get (key : α → Option κ) (es : List α) (k : κ) :
    (groupBy key es).get k =
      if es.filter (fun e => key e = some k) = [] then none
      else some (es.filter (fun e => key e = some k)) := by
  induction es using List.reverseRecOn with
  | nil => rfl
  | append_singleton es e ih =>
    rw [groupBy, List.foldl_append, ← groupBy, List.filter_append]
    cases hk : key e with
    | none => simp [hk, ih]
    | some k' =>
      simp only [List.foldl_cons, List.foldl_nil, hk, Record.get_set]
      by_cases h : k = k'
      · subst h
        rw [if_pos rfl, ih]
        split_ifs with h1 h2 h2
        · simp [hk] at h2
        · simp [h1, hk]
        · simp [hk] at h2
        · simp [hk]
      · have hne : ¬ some k' = some k := fun he => h (Option.some.inj he).symm
        simp [h, hk, Ne.symm h, ih]

theorem mem_values_groupBy {key : α → Option κ} {es : List α} {l : List α} :
    l ∈ (groupBy key es).values ↔ ∃ k, l = es.filter (fun e => key e = some k) ∧ l ≠ [] := by
  unfold Record.values
  rw [List.mem_map]
  constructor
  · rintro ⟨⟨k, l⟩, hmem, rfl⟩
    rw [Record.mem_entries, groupBy_get] at hmem
    split_ifs at hmem with hnil
    cases hmem
    exact ⟨k, rfl, hnil⟩
  · rintro ⟨k, rfl, hnil⟩
    refine ⟨(k,_), ?_, rfl⟩
    rw [Record.mem_entries, groupBy_get, if_neg hnil]

theorem pairsOf_mem {es : List α} {a b : α} (h : (a,b) ∈ pairsOf es) : a ∈ es ∧ b ∈ es := by
  induction es with
  | nil => cases h
  | cons e es ih =>
    rcases List.mem_append.mp h with h | h
    · obtain ⟨e', he', heq⟩ := List.mem_map.mp h
      cases heq
      exact ⟨List.mem_cons_self, List.mem_cons_of_mem _ he'⟩
    · exact ⟨List.mem_cons_of_mem _ (ih h).1, List.mem_cons_of_mem _ (ih h).2⟩

theorem pairsOf_filter {es : List α} {p : α → Bool} {a b : α} :
    (a,b) ∈ pairsOf (es.filter p) ↔ (a,b) ∈ pairsOf es ∧ p a = true ∧ p b = true := by
  induction es with
  | nil => simp [pairsOf]
  | cons e es ih =>
    rw [List.filter_cons]
    split_ifs with hp
    · simp only [pairsOf, List.mem_append, List.mem_map, List.mem_filter, ih]
      constructor
      · rintro (⟨e', ⟨he', hpe'⟩, heq⟩ | ⟨hab, hpab⟩)
        · cases heq
          exact ⟨Or.inl ⟨b, he', rfl⟩, hp, hpe'⟩
        · exact ⟨Or.inr hab, hpab⟩
      · rintro ⟨⟨e', he', heq⟩ | hab, hpa, hpb⟩
        · cases heq
          exact Or.inl ⟨b, ⟨he', hpb⟩, rfl⟩
        · exact Or.inr ⟨hab, hpa, hpb⟩
    · simp only [pairsOf, List.mem_append, List.mem_map, ih]
      constructor
      · exact fun h => ⟨Or.inr h.1, h.2⟩
      · rintro ⟨⟨e', he', heq⟩ | hab, hpa, hpb⟩
        · cases heq
          exact absurd hpa hp
        · exact ⟨hab, hpa, hpb⟩

theorem pairsOf_short {es : List α} (h : es.length < 2) : pairsOf es = [] := by
  cases es with
  | nil => rfl
  | cons e es =>
    cases es with
    | nil => rfl
    | cons e' es => exact absurd h (by simp)

/-- The earlier element is one of a beginning, the later one is not before it. -/
theorem pairsOf_append {done rest : List α} {e b : α} :
    (e,b) ∈ pairsOf (done++e::rest) → e ∉ done → e ∉ rest → b ∈ rest := by
  induction done with
  | nil =>
    intro h _ hrest
    rcases List.mem_append.mp h with h | h
    · obtain ⟨e', he', heq⟩ := List.mem_map.mp h
      cases heq
      exact he'
    · exact absurd (pairsOf_mem h).1 hrest
  | cons d done ih =>
    intro h hdone hrest
    rcases List.mem_append.mp h with h | h
    · obtain ⟨e', -, heq⟩ := List.mem_map.mp h
      cases heq
      exact absurd List.mem_cons_self hdone
    · exact ih h (fun he => hdone (List.mem_cons_of_mem _ he)) hrest

theorem pairsOf_mid {done rest : List α} {e b : α} (hb : b ∈ rest) :
    (e,b) ∈ pairsOf (done++e::rest) := by
  induction done with
  | nil => exact List.mem_append_left _ (List.mem_map.mpr ⟨b, hb, rfl⟩)
  | cons d done ih => exact List.mem_append_right _ ih

end Pairs

section Matches

local instance lawful_types : LawfulBEq Text := inferInstance

structure CorrelationRule where
  matchFields : List Text
  entityTypes : List Text

structure Unifier where
  naming : Naming
  lowerStrip : Text → Text
  cosineSimilarity : List ℚ → List ℚ → ℚ
  correlationRules : List CorrelationRule
  embeddingThreshold : ℚ := 17/20
  fuzzyThreshold : ℚ := 17/20
  /-- The calls that may still be nested. -/
  recursionLimit : ℕ := 900

variable {ι : Type} [LinearOrder ι] (u : Unifier)

def fieldValue (fieldName : Text) (e : Entity ι) : Option Field :=
  match e.attributes.get fieldName with
  | none => none
  | some (.text t) => if t = [] then none else some (.text (u.lowerStrip t))
  | some (.container n) => if n = 0 then none else some (.container n)
  | some (.other n) => if n = 0 then none else some (.other n)

def ids (p : Entity ι × Entity ι) : ι × ι := (p.1.id,p.2.id)

def candidates (es : List (Entity ι)) (rule : CorrelationRule) : List (Entity ι) :=
  if rule.entityTypes = [] then es else es.filter (fun e => e.entityType ∈ rule.entityTypes)

def fieldPairs (es : List (Entity ι)) (rule : CorrelationRule) : List (ι × ι) :=
  rule.matchFields.flatMap (fun fieldName =>
    (groupBy (fieldValue u fieldName) (candidates es rule)).values.flatMap
      (fun group => (pairsOf group).map ids))

/-- Lists and objects cannot be the keys of a dictionary. -/
def hashable : Option Field → Bool
  | some (.container _) => false
  | _ => true

def findFieldMatchPairs (es : List (Entity ι)) (rule : CorrelationRule) :
    Option (List (ι × ι)) :=
  if rule.matchFields.all (fun fieldName =>
    (candidates es rule).all (fun e => hashable (fieldValue u fieldName e))) then
      some (fieldPairs u es rule)
  else none

def findExactNameMatches (es : List (Entity ι)) : List (ι × ι) :=
  (groupBy (fun e => some (u.lowerStrip e.name,e.entityType)) es).values.flatMap (fun group =>
    match group with
    | [] => []
    | first::rest => rest.map (fun e => (first.id,e.id)))

structure Seen (ι : Type) where
  pairs : List (ι × ι)
  seen : Finset (ι × ι)
  processedIds : Finset ι

def Seen.see (s : Seen ι) (e : Entity ι) (r : Entity ι × ℚ) : Seen ι :=
  if (min e.id r.1.id,max e.id r.1.id) ∈ s.seen then s
  else { s with
    pairs := s.pairs++[(e.id,r.1.id)]
    seen := insert (min e.id r.1.id,max e.id r.1.id) s.seen }

/-- One search for each entity, leaving out those searched for before. -/
def blockedMatches (search : Entity ι → Finset ι → List (Entity ι × ℚ)) (es : List (Entity ι)) :
    Seen ι :=
  es.foldl (fun s e =>
    { (search e s.processedIds).foldl (fun s r => s.see e r) s with
      processedIds := insert e.id s.processedIds }) ⟨[],∅,∅⟩

structure Walked (ι : Type) where
  index : EntityIndex ι
  walk : Entity ι → List ι

def findEmbeddingMatches (es : List (Entity ι)) (entityIndex : Option (Walked ι)) :
    List (ι × ι) :=
  let withEmbeddings := es.filter (fun e => e.embedding.isSome)
  if withEmbeddings.length < 2 then []
  else
    match entityIndex with
    | some x => (blockedMatches (fun e skipIds =>
      x.index.findEmbeddingCandidates u.naming e u.embeddingThreshold 100 skipIds (x.walk e))
      withEmbeddings).pairs
    | none => ((pairsOf withEmbeddings).filter (fun p =>
      p.1.entityType = p.2.entityType ∧ u.embeddingThreshold ≤
        u.cosineSimilarity (p.1.embedding.getD []) (p.2.embedding.getD []))).map ids

def findFuzzyMatches (es : List (Entity ι)) (entityIndex : Option (Walked ι)) :
    List (ι × ι) :=
  match entityIndex with
  | some x => (blockedMatches (fun e skipIds =>
    x.index.findFuzzyCandidates u.naming e u.fuzzyThreshold 100 1 skipIds (x.walk e)) es).pairs
  | none => (groupBy (fun e => some e.entityType) es).values.flatMap (fun group =>
    ((pairsOf group).filter (fun p =>
      u.fuzzyThreshold ≤ u.naming.levenshteinSimilarity p.1.name p.2.name)).map ids)

end Matches

section Blocked

variable {ι : Type} [LinearOrder ι]

theorem see_mono (s : Seen ι) (e : Entity ι) (rs : List (Entity ι × ℚ)) :
    s.pairs ⊆ (rs.foldl (fun s r => s.see e r) s).pairs := by
  induction rs generalizing s with
  | nil => exact fun _ h => h
  | cons r rs ih =>
    apply List.Subset.trans _ (ih (s.see e r))
    unfold Seen.see
    split_ifs
    · exact fun _ h => h
    · exact List.subset_append_left _ _

/-- What looking at some candidates adds. -/
theorem see_pairs (s : Seen ι) (e : Entity ι) (rs : List (Entity ι × ℚ)) {x : ι × ι}
    (hx : x ∈ (rs.foldl (fun s r => s.see e r) s).pairs) :
    x ∈ s.pairs ∨ ∃ r ∈ rs, x = (e.id,r.1.id) := by
  induction rs generalizing s with
  | nil => exact Or.inl hx
  | cons r rs ih =>
    rcases ih (s.see e r) hx with hold | ⟨r', hr', rfl⟩
    · unfold Seen.see at hold
      split_ifs at hold
      · exact Or.inl hold
      · rcases List.mem_append.mp hold with hold | hnew
        · exact Or.inl hold
        · exact Or.inr ⟨r, List.mem_cons_self, List.mem_singleton.mp hnew⟩
    · exact Or.inr ⟨r', List.mem_cons_of_mem _ hr', rfl⟩

def ordered (x : ι × ι) : ι × ι := (min x.1 x.2,max x.1 x.2)

theorem ordered_eq {x y : ι × ι} (h : ordered x = ordered y) : x = y ∨ x = (y.2,y.1) := by
  obtain ⟨a, b⟩ := x
  obtain ⟨c, d⟩ := y
  obtain ⟨hmin, hmax⟩ := Prod.mk.inj h
  dsimp only at hmin hmax
  rcases le_total a b with hab | hab
  · rw [min_eq_left hab] at hmin
    rw [max_eq_right hab] at hmax
    rcases le_total c d with hcd | hcd
    · left
      rw [hmin, hmax, min_eq_left hcd, max_eq_right hcd]
    · right
      rw [hmin, hmax, min_eq_right hcd, max_eq_left hcd]
  · rw [min_eq_right hab] at hmin
    rw [max_eq_left hab] at hmax
    rcases le_total c d with hcd | hcd
    · right
      rw [hmin, hmax, min_eq_left hcd, max_eq_right hcd]
    · left
      rw [hmin, hmax, min_eq_right hcd, max_eq_left hcd]

theorem see_seen (s : Seen ι) (e : Entity ι) (rs : List (Entity ι × ℚ))
    (hs : ∀ p ∈ s.seen, ∃ x ∈ s.pairs, p = ordered x) :
    (∀ p ∈ (rs.foldl (fun s r => s.see e r) s).seen,
      ∃ x ∈ (rs.foldl (fun s r => s.see e r) s).pairs, p = ordered x) ∧
    s.seen ⊆ (rs.foldl (fun s r => s.see e r) s).seen ∧
    (rs.foldl (fun s r => s.see e r) s).processedIds = s.processedIds ∧
    ∀ r ∈ rs, ordered (e.id,r.1.id) ∈ (rs.foldl (fun s r => s.see e r) s).seen := by
  induction rs generalizing s with
  | nil => exact ⟨hs, Finset.Subset.refl _, rfl, by simp⟩
  | cons r rs ih =>
    have hstep : (∀ p ∈ (s.see e r).seen, ∃ x ∈ (s.see e r).pairs, p = ordered x) ∧
        s.seen ⊆ (s.see e r).seen ∧ (s.see e r).processedIds = s.processedIds ∧
        ordered (e.id,r.1.id) ∈ (s.see e r).seen := by
      unfold Seen.see
      split_ifs with hmem
      · exact ⟨hs, Finset.Subset.refl _, rfl, hmem⟩
      · refine ⟨?_, Finset.subset_insert _ _, rfl, Finset.mem_insert_self _ _⟩
        intro p hp
        rcases Finset.mem_insert.mp hp with rfl | hp
        · exact ⟨(e.id,r.1.id), List.mem_append_right _ (List.mem_singleton_self _), rfl⟩
        · obtain ⟨x, hx, heq⟩ := hs p hp
          exact ⟨x, List.mem_append_left _ hx, heq⟩
    obtain ⟨hpairs, hsub, hprocessed, hr⟩ := hstep
    obtain ⟨hpairs', hsub', hprocessed', hrs⟩ := ih _ hpairs
    refine ⟨hpairs', hsub.trans hsub', hprocessed'.trans hprocessed, fun r' hr' => ?_⟩
    rcases List.mem_cons.mp hr' with rfl | hr'
    · exact hsub' hr
    · exact hrs r' hr'

structure Progress (search : Entity ι → Finset ι → List (Entity ι × ℚ)) (es : List (Entity ι))
    (ok : Entity ι → Entity ι → Prop) (done : List (Entity ι)) : Prop where
  processed : (blockedMatches search done).processedIds = (done.map Entity.id).toFinset
  seen : ∀ p ∈ (blockedMatches search done).seen,
    ∃ x ∈ (blockedMatches search done).pairs, p = ordered x
  first : ∀ x ∈ (blockedMatches search done).pairs, x.1 ∈ done.map Entity.id
  sound : ∀ x ∈ (blockedMatches search done).pairs,
    ∃ a b, (a,b) ∈ pairsOf es ∧ ok a b ∧ x = (a.id,b.id)
  complete :
    (∀ e ∈ es, ∀ skip, ∀ b ∈ es, b.id ≠ e.id → b.id ∉ skip → ok e b → ∃ s, (b,s) ∈ search e skip) →
    ∀ a ∈ done, ∀ b, (a,b) ∈ pairsOf es → ok a b →
      (a.id,b.id) ∈ (blockedMatches search done).pairs

/-- Searching for each entity among those after it finds the pairs of the list that a search
finds. -/
theorem blocked_progress {search : Entity ι → Finset ι → List (Entity ι × ℚ)}
    {es : List (Entity ι)} (hids : (es.map Entity.id).Nodup) {ok : Entity ι → Entity ι → Prop}
    (hsound : ∀ e ∈ es, ∀ skip, ∀ r ∈ search e skip,
      r.1 ∈ es ∧ r.1.id ≠ e.id ∧ r.1.id ∉ skip ∧ ok e r.1) {done rest : List (Entity ι)}
    (hes : done++rest = es) : Progress search es ok done := by
  induction done using List.reverseRecOn generalizing rest with
  | nil =>
    exact ⟨rfl, by simp [blockedMatches], by simp [blockedMatches], by simp [blockedMatches],
      by simp⟩
  | append_singleton done e ih =>
    rw [List.append_assoc, List.singleton_append] at hes
    have hold := ih hes
    have hmem : e ∈ es := hes ▸ List.mem_append_right _ List.mem_cons_self
    have hparts : (done++e::rest).map Entity.id = done.map Entity.id++e.id::rest.map Entity.id := by
      rw [List.map_append, List.map_cons]
    have hn : (done.map Entity.id++e.id::rest.map Entity.id).Nodup := by
      rw [← hparts, hes]
      exact hids
    have hbefore : ∀ d ∈ done, d.id ≠ e.id ∧ d.id ∉ rest.map Entity.id := by
      intro d hd
      have hdis := (List.nodup_append.mp hn).2.2 d.id (List.mem_map_of_mem hd)
      exact ⟨hdis e.id List.mem_cons_self, fun h => hdis d.id (List.mem_cons_of_mem _ h) rfl⟩
    have hafter : e.id ∉ rest.map Entity.id := (List.nodup_cons.mp (List.nodup_append.mp hn).2.1).1
    let s := blockedMatches search done
    let s' := (search e s.processedIds).foldl (fun s r => s.see e r) s
    have hnext : blockedMatches search (done++[e]) =
        { s' with processedIds := insert e.id s.processedIds } := List.foldl_append
    obtain ⟨hseen, hsub, -, hrs⟩ := see_seen s e (search e s.processedIds) hold.seen
    have hpair : ∀ x ∈ s'.pairs, x ∈ s.pairs ∨ ∃ b ∈ rest, ok e b ∧ x = (e.id,b.id) := by
      intro x hx
      rcases see_pairs s e _ hx with hx | ⟨r, hr, rfl⟩
      · exact Or.inl hx
      · obtain ⟨hres, hne, hskip, hok⟩ := hsound e hmem s.processedIds r hr
        rw [hold.processed, List.mem_toFinset] at hskip
        rw [← hes, List.mem_append, List.mem_cons] at hres
        rcases hres with hdone | rfl | hrest
        · exact absurd (List.mem_map_of_mem hdone) hskip
        · exact absurd rfl hne
        · exact Or.inr ⟨r.1, hrest, hok, rfl⟩
    constructor
    · rw [hnext]
      show insert e.id s.processedIds = _
      rw [hold.processed]
      ext id
      simp
    · rw [hnext]
      exact hseen
    · rw [hnext, List.map_append]
      intro x hx
      rcases hpair x hx with hx | ⟨b, -, -, rfl⟩
      · exact List.mem_append_left _ (hold.first x hx)
      · exact List.mem_append_right _ (List.mem_singleton_self _)
    · rw [hnext]
      intro x hx
      rcases hpair x hx with hx | ⟨b, hb, hok, rfl⟩
      · exact hold.sound x hx
      · exact ⟨e, b, hes ▸ pairsOf_mid hb, hok, rfl⟩
    · intro hall a ha b hab hok
      rw [hnext]
      rcases List.mem_append.mp ha with ha | ha
      · exact see_mono s e _ (hold.complete hall a ha b hab hok)
      · obtain rfl := List.mem_singleton.mp ha
        have hb : b ∈ rest := by
          rw [← hes] at hab
          exact pairsOf_append hab (fun h => (hbefore a h).1 rfl)
            (fun h => hafter (List.mem_map_of_mem h))
        have hbid : b.id ∉ (done++[a]).map Entity.id := by
          rw [List.map_append, List.mem_append, List.map_singleton, List.mem_singleton]
          rintro (h | h)
          · obtain ⟨d, hd, hdb⟩ := List.mem_map.mp h
            exact (hbefore d hd).2 (hdb ▸ List.mem_map_of_mem hb)
          · exact hafter (h ▸ List.mem_map_of_mem hb)
        rw [List.map_append, List.mem_append, List.map_singleton, List.mem_singleton,
          not_or] at hbid
        have hskip : b.id ∉ s.processedIds := by
          rw [hold.processed, List.mem_toFinset]
          exact hbid.1
        obtain ⟨score, hscore⟩ := hall a hmem s.processedIds b (pairsOf_mem hab).2 hbid.2 hskip hok
        obtain ⟨x, hx, heq⟩ := hseen _ (hrs _ hscore)
        rcases ordered_eq heq with hxe | hxe
        · rw [hxe]
          exact hx
        · exfalso
          have hxb : x.1 = b.id := congrArg Prod.snd hxe |>.symm
          rcases hpair x hx with hx | ⟨b', -, -, hx'⟩
          · exact hbid.1 (hxb ▸ hold.first x hx)
          · rw [hx'] at hxb
            exact hbid.2 hxb.symm

variable {z : Naming} {x : EntityIndex ι} {kept es : List (Entity ι)}
  {accepts : Entity ι → Entity ι → Bool} {score : Entity ι → Entity ι → ℚ} {threshold : ℚ}
  {search : Entity ι → Finset ι → List (Entity ι × ℚ)}

def Findable (z : Naming) (accepts : Entity ι → Entity ι → Bool) (score : Entity ι → Entity ι → ℚ)
    (threshold : ℚ) (a b : Entity ι) : Prop :=
  accepts a b = true ∧ 1 ≤ shared z a b ∧ threshold ≤ score a b

structure Uncapped (z : Naming) (x : EntityIndex ι) (kept es : List (Entity ι))
    (accepts : Entity ι → Entity ι → Bool) : Prop where
  postings : ∀ t, (x.token t).card ≤ 500
  candidates : ∀ e ∈ es, (kept.filter (Eligible z (accepts e) e 1 ∅)).length ≤ 100

/-- Few entities meet no cap. -/
theorem uncapped_of_few (h : Indexes z x kept) (hfew : kept.length ≤ 100) :
    Uncapped z x kept es accepts := by
  constructor
  · intro t
    have hsub : x.token t ⊆ (kept.map Entity.id).toFinset := by
      intro id hid
      obtain ⟨e, he, rfl, -⟩ := (h.token t id).mp hid
      exact List.mem_toFinset.mpr (List.mem_map_of_mem he)
    calc (x.token t).card ≤ (kept.map Entity.id).toFinset.card := Finset.card_le_card hsub
      _ ≤ (kept.map Entity.id).length := List.toFinset_card_le _
      _ ≤ 500 := by
        rw [List.length_map]
        omega
  · exact fun e _ => (List.length_filter_le _ _).trans hfew

theorem blocked_iff (hids : (es.map Entity.id).Nodup) (hsub : ∀ b ∈ es, b ∈ kept)
    (haccepts : ∀ e ∈ es, ∀ b ∈ kept, accepts e b = true → b ∈ es)
    (hscan : ∀ e ∈ es, ∀ skip, Scans x (tokenize z e.name) 100 (score e) threshold
      (kept.filter (Eligible z (accepts e) e 1 skip)) (search e skip)) :
    (∀ p ∈ (blockedMatches search es).pairs,
      ∃ a b, (a,b) ∈ pairsOf es ∧ Findable z accepts score threshold a b ∧ p = (a.id,b.id)) ∧
    (Uncapped z x kept es accepts → ∀ a b, (a,b) ∈ pairsOf es →
      Findable z accepts score threshold a b → (a.id,b.id) ∈ (blockedMatches search es).pairs) := by
  have hsound : ∀ e ∈ es, ∀ skip, ∀ r ∈ search e skip, r.1 ∈ es ∧ r.1.id ≠ e.id ∧ r.1.id ∉ skip ∧
      Findable z accepts score threshold e r.1 := by
    intro e he skip r hr
    obtain ⟨hmem, hscore, hle⟩ := mem_scored.mp ((hscan e he skip).sound r hr)
    obtain ⟨hkept, heligible⟩ := List.mem_filter.mp hmem
    obtain ⟨hself, hskip, hacc, hshared⟩ := of_decide_eq_true heligible
    exact ⟨haccepts e he r.1 hkept hacc, hself, hskip, hacc, hshared, hscore ▸ hle⟩
  have hprogress := blocked_progress hids hsound (List.append_nil es)
  refine ⟨hprogress.sound, fun hcaps a b hab hfound => ?_⟩
  apply hprogress.complete _ a (pairsOf_mem hab).1 b hab hfound
  intro e he skip b hb hself hskip hok
  have hfew : (kept.filter (Eligible z (accepts e) e 1 skip)).length ≤ 100 := by
    apply le_trans _ (hcaps.candidates e he)
    apply List.Sublist.length_le
    apply List.monotone_filter_right
    intro c hc
    obtain ⟨h1, -, h3, h4⟩ := of_decide_eq_true hc
    exact decide_eq_true ⟨h1, Finset.notMem_empty _, h3, h4⟩
  have hall := (hscan e he skip).complete (fun t _ => hcaps.postings t) hfew
  have heligible : b ∈ kept.filter (Eligible z (accepts e) e 1 skip) :=
    List.mem_filter.mpr ⟨hsub b hb, decide_eq_true ⟨hself, hskip, hok.1, hok.2.1⟩⟩
  exact ⟨score e b, hall.1.mem_iff.mpr (mem_scored.mpr ⟨heligible, rfl, hok.2.2⟩)⟩

variable (u : Unifier)

theorem mem_fuzzy_pairs {p : ι × ι} :
    p ∈ findFuzzyMatches u es none ↔ ∃ a b, (a,b) ∈ pairsOf es ∧
      a.entityType = b.entityType ∧
      u.fuzzyThreshold ≤ u.naming.levenshteinSimilarity a.name b.name ∧ p = (a.id,b.id) := by
  unfold findFuzzyMatches
  simp only [List.mem_flatMap, List.mem_map, List.mem_filter, decide_eq_true_eq]
  constructor
  · rintro ⟨group, hgroup, ⟨a, b⟩, ⟨hab, hle⟩, rfl⟩
    obtain ⟨t, rfl, -⟩ := mem_values_groupBy.mp hgroup
    rw [pairsOf_filter] at hab
    have ha := Option.some.inj (of_decide_eq_true hab.2.1)
    have hb := Option.some.inj (of_decide_eq_true hab.2.2)
    exact ⟨a, b, hab.1, ha.trans hb.symm, hle, rfl⟩
  · rintro ⟨a, b, hab, htype, hle, rfl⟩
    refine ⟨es.filter (fun e => some e.entityType = some a.entityType), ?_, (a,b), ⟨?_, hle⟩, rfl⟩
    · apply mem_values_groupBy.mpr
      refine ⟨a.entityType, rfl, List.ne_nil_of_mem (List.mem_filter.mpr ⟨(pairsOf_mem hab).1, ?_⟩)⟩
      exact decide_eq_true rfl
    · rw [pairsOf_filter]
      exact ⟨hab, decide_eq_true rfl, decide_eq_true (by rw [htype])⟩

theorem mem_embedding_pairs {p : ι × ι} :
    p ∈ findEmbeddingMatches u es none ↔ ∃ a b, (a,b) ∈ pairsOf es ∧
      (a.embedding.isSome = true ∧ b.embedding.isSome = true) ∧ a.entityType = b.entityType ∧
      u.embeddingThreshold ≤ u.cosineSimilarity (a.embedding.getD []) (b.embedding.getD []) ∧
      p = (a.id,b.id) := by
  have hpairs : findEmbeddingMatches u es none =
      ((pairsOf (es.filter (fun e => e.embedding.isSome))).filter (fun p =>
        p.1.entityType = p.2.entityType ∧ u.embeddingThreshold ≤
          u.cosineSimilarity (p.1.embedding.getD []) (p.2.embedding.getD []))).map ids := by
    unfold findEmbeddingMatches
    dsimp only
    split_ifs with hshort
    · rw [pairsOf_short hshort]
      rfl
    · rfl
  rw [hpairs]
  simp only [List.mem_map, List.mem_filter, decide_eq_true_eq]
  constructor
  · rintro ⟨⟨a, b⟩, ⟨hab, htype, hle⟩, rfl⟩
    rw [pairsOf_filter] at hab
    exact ⟨a, b, hab.1, hab.2, htype, hle, rfl⟩
  · rintro ⟨a, b, hab, hsome, htype, hle, rfl⟩
    exact ⟨(a,b), ⟨pairsOf_filter.mpr ⟨hab, hsome⟩, htype, hle⟩, rfl⟩

omit [LinearOrder ι] in
/-- Entities of a list with distinct ids are known by them. -/
theorem pairOf_ids (hids : (es.map Entity.id).Nodup) {a b a' b' : Entity ι} (ha : a ∈ es)
    (hb : b ∈ es) (hab : (a',b') ∈ pairsOf es) (h : (a.id,b.id) = (a'.id,b'.id)) :
    a' = a ∧ b' = b := by
  obtain ⟨hida, hidb⟩ := Prod.mk.inj h
  obtain ⟨ha', hb'⟩ := pairsOf_mem hab
  exact ⟨List.inj_on_of_nodup_map hids ha' ha hida.symm,
    List.inj_on_of_nodup_map hids hb' hb hidb.symm⟩

theorem mem_embedding_blocked {x : Walked ι} (h : Indexes u.naming x.index es)
    (hids : (es.map Entity.id).Nodup)
    (hwalk : ∀ e, (x.walk e).Nodup ∧
      (x.walk e).toFinset = x.index.sharing (tokenize u.naming e.name)) :
    (∀ p ∈ findEmbeddingMatches u es (some x), ∃ a b, (a,b) ∈ pairsOf es ∧
      (a.embedding.isSome = true ∧ b.embedding.isSome = true) ∧ a.entityType = b.entityType ∧
      1 ≤ shared u.naming a b ∧
      u.embeddingThreshold ≤ dot (a.embedding.getD []) (b.embedding.getD []) ∧
      p = (a.id,b.id)) ∧
    (Uncapped u.naming x.index es es embedded → ∀ a b, (a,b) ∈ pairsOf es →
      (a.embedding.isSome = true ∧ b.embedding.isSome = true) → a.entityType = b.entityType →
      1 ≤ shared u.naming a b →
      u.embeddingThreshold ≤ dot (a.embedding.getD []) (b.embedding.getD []) →
      (a.id,b.id) ∈ findEmbeddingMatches u es (some x)) := by
  let search := fun (e : Entity ι) (skipIds : Finset ι) =>
    x.index.findEmbeddingCandidates u.naming e u.embeddingThreshold 100 skipIds (x.walk e)
  let withEmbeddings := es.filter (fun e => e.embedding.isSome)
  have hwith : (withEmbeddings.map Entity.id).Nodup :=
    hids.sublist (List.filter_sublist.map _)
  have hscan : ∀ e ∈ withEmbeddings, ∀ skip, Scans x.index (tokenize u.naming e.name) 100
      (fun b => dot (e.embedding.getD []) (b.embedding.getD [])) u.embeddingThreshold
      (es.filter (Eligible u.naming (embedded e) e 1 skip)) (search e skip) := by
    intro e he skip
    obtain ⟨query, hquery⟩ := Option.isSome_iff_exists.mp (List.mem_filter.mp he).2
    rw [hquery]
    exact embedding_scan h hids (hwalk e).1 (hwalk e).2 hquery u.embeddingThreshold 100 skip
  have hblocked := blocked_iff hwith (fun b hb => List.mem_of_mem_filter hb)
    (fun e _ b hb hacc => List.mem_filter.mpr ⟨hb, (Bool.and_eq_true_iff.mp hacc).1⟩) hscan
  have hlong : findEmbeddingMatches u es (some x) =
      if withEmbeddings.length < 2 then [] else (blockedMatches search withEmbeddings).pairs :=
    rfl
  constructor
  · intro p hp
    rw [hlong] at hp
    split_ifs at hp
    · cases hp
    · obtain ⟨a, b, hpair, ⟨hacc, hshared, hle⟩, rfl⟩ := hblocked.1 p hp
      obtain ⟨hab, hsome⟩ := pairsOf_filter.mp hpair
      have htype := of_decide_eq_true (Bool.and_eq_true_iff.mp hacc).2
      exact ⟨a, b, hab, hsome, htype.symm, hshared, hle, rfl⟩
  · intro hcaps a b hab hsome htype hshared hle
    have hpair : (a,b) ∈ pairsOf withEmbeddings := pairsOf_filter.mpr ⟨hab, hsome⟩
    rw [hlong, if_neg]
    · have hcaps' : Uncapped u.naming x.index es withEmbeddings embedded :=
        ⟨hcaps.postings, fun e he => hcaps.candidates e (List.mem_of_mem_filter he)⟩
      have hacc : embedded a b = true :=
        Bool.and_eq_true_iff.mpr ⟨hsome.2, decide_eq_true htype.symm⟩
      exact hblocked.2 hcaps' a b hpair ⟨hacc, hshared, hle⟩
    · intro hshort
      rw [pairsOf_short hshort] at hpair
      cases hpair

/-- With distinct ids, and embeddings of length one, the matches found through the index of all the
entities are among those of the comparison of all pairs, and of these exactly the ones that share a
token, and for names those that are not alike already, as long as no cap is met. -/
theorem blocked_agrees {added : List (Entity ι)} (hadded : (added.map Entity.id).Nodup)
    {x : Walked ι} (hx : x.index = EntityIndex.run u.naming added)
    (hwalk : ∀ e, (x.walk e).Nodup ∧
      (x.walk e).toFinset = x.index.sharing (tokenize u.naming e.name))
    (hcosine : ∀ a ∈ added, ∀ b ∈ added,
      u.cosineSimilarity (a.embedding.getD []) (b.embedding.getD []) =
        dot (a.embedding.getD []) (b.embedding.getD [])) :
    let es := x.index.getAllEntities
    let named := fun a b : Entity ι => otherName u.naming a b = true ∧ 1 ≤ shared u.naming a b
    (∀ a ∈ es, ∀ b ∈ es, (a.id,b.id) ∈ findFuzzyMatches u es (some x) →
      (a.id,b.id) ∈ findFuzzyMatches u es none ∧ named a b) ∧
    (Uncapped u.naming x.index es es (otherName u.naming) → ∀ a ∈ es, ∀ b ∈ es, named a b →
      (a.id,b.id) ∈ findFuzzyMatches u es none →
      (a.id,b.id) ∈ findFuzzyMatches u es (some x)) ∧
    (∀ a ∈ es, ∀ b ∈ es, (a.id,b.id) ∈ findEmbeddingMatches u es (some x) →
      (a.id,b.id) ∈ findEmbeddingMatches u es none ∧ 1 ≤ shared u.naming a b) ∧
    (Uncapped u.naming x.index es es embedded → ∀ a ∈ es, ∀ b ∈ es, 1 ≤ shared u.naming a b →
      (a.id,b.id) ∈ findEmbeddingMatches u es none →
      (a.id,b.id) ∈ findEmbeddingMatches u es (some x)) := by
  intro es named
  have hes : es = firsts u.naming added := by
    show x.index.getAllEntities = _
    rw [hx]
    exact (run_lookups u.naming hadded).2.2.2.2.1
  have h : Indexes u.naming x.index es := by
    rw [hes, hx]
    exact run_indexes u.naming hadded
  have hids : (es.map Entity.id).Nodup := by
    rw [hes]
    exact hadded.sublist ((firsts_sublist u.naming added).map _)
  have hfound : findFuzzyMatches u es (some x) = (blockedMatches (fun e skipIds =>
      x.index.findFuzzyCandidates u.naming e u.fuzzyThreshold 100 1 skipIds (x.walk e))
      es).pairs := rfl
  have hfuzzy := blocked_iff hids (fun b hb => hb) (fun e _ b hb _ => hb)
    (fun e _ skip => fuzzy_scan h hids (hwalk e).1 (hwalk e).2 u.fuzzyThreshold 100 1 skip)
  have hembedding := mem_embedding_blocked u h hids hwalk
  have hcos : ∀ a ∈ es, ∀ b ∈ es,
      u.cosineSimilarity (a.embedding.getD []) (b.embedding.getD []) =
        dot (a.embedding.getD []) (b.embedding.getD []) := by
    intro a ha b hb
    rw [hes] at ha hb
    have hsub := (firsts_sublist u.naming added).subset
    exact hcosine a (hsub ha) b (hsub hb)
  refine ⟨?_, ?_, ?_, ?_⟩
  · intro a ha b hb hab
    rw [hfound] at hab
    obtain ⟨a', b', hpair, ⟨hname, hshared, hle⟩, heq⟩ := hfuzzy.1 _ hab
    obtain ⟨rfl, rfl⟩ := pairOf_ids hids ha hb hpair heq
    exact ⟨(mem_fuzzy_pairs u).mpr
      ⟨a', b', hpair, (of_decide_eq_true hname).1.symm, hle, rfl⟩, hname, hshared⟩
  · intro hcaps a ha b hb hnamed hab
    obtain ⟨a', b', hpair, -, hle, heq⟩ := (mem_fuzzy_pairs u).mp hab
    obtain ⟨rfl, rfl⟩ := pairOf_ids hids ha hb hpair heq
    rw [hfound]
    exact hfuzzy.2 hcaps a' b' hpair ⟨hnamed.1, hnamed.2, hle⟩
  · intro a ha b hb hab
    obtain ⟨a', b', hpair, hsome, htype, hshared, hle, heq⟩ := hembedding.1 _ hab
    obtain ⟨rfl, rfl⟩ := pairOf_ids hids ha hb hpair heq
    rw [← hcos a' ha b' hb] at hle
    exact ⟨(mem_embedding_pairs u).mpr ⟨a', b', hpair, hsome, htype, hle, rfl⟩, hshared⟩
  · intro hcaps a ha b hb hshared hab
    obtain ⟨a', b', hpair, hsome, htype, hle, heq⟩ := (mem_embedding_pairs u).mp hab
    obtain ⟨rfl, rfl⟩ := pairOf_ids hids ha hb hpair heq
    rw [hcos a' ha b' hb] at hle
    exact hembedding.2 hcaps a' b' hpair hsome htype hshared hle

end Blocked

section Names

def plainUnifier : Unifier where
  naming := plainNames
  lowerStrip := List.map Char.toLower
  cosineSimilarity := dot
  correlationRules := []

def indexedCompanies : Walked ℕ where
  index := EntityIndex.run plainNames companies
  walk e := ((EntityIndex.run plainNames companies).sharing (tokenize plainNames e.name)).sort
    (· ≤ ·)

theorem blocked_agrees_companies :
    (1,3) ∈ findFuzzyMatches plainUnifier indexedCompanies.index.getAllEntities
      (some indexedCompanies) := by
  have hids : (companies.map Entity.id).Nodup := by decide
  have hindexes := run_indexes plainNames hids
  have hkept : indexedCompanies.index.getAllEntities = firsts plainNames companies :=
    (run_lookups plainNames hids).2.2.2.2.1
  have hfew : Uncapped plainNames indexedCompanies.index
      indexedCompanies.index.getAllEntities indexedCompanies.index.getAllEntities
      (otherName plainNames) := by
    rw [hkept]
    exact uncapped_of_few hindexes (by decide +kernel)
  have hpair : (company 1 "Acme corp",company 3 "Acme corps") ∈
      pairsOf indexedCompanies.index.getAllEntities := List.mem_cons_self
  obtain ⟨hfirst, hthird⟩ := pairsOf_mem hpair
  have hagrees := blocked_agrees plainUnifier hids
    (show indexedCompanies.index = EntityIndex.run plainNames companies from rfl)
    (fun e => ⟨Finset.sort_nodup _ _, Finset.sort_toFinset _ _⟩) (fun _ _ _ _ => rfl)
  apply hagrees.2.1 hfew _ hfirst _ hthird
  · exact ⟨by decide +kernel, by decide +kernel⟩
  · exact (mem_fuzzy_pairs plainUnifier).mpr
      ⟨_, _, hpair, rfl, by decide +kernel, rfl⟩

end Names

end Uru.Extraction.CrossToolUnifier
