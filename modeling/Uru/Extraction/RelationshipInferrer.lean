import Uru.Extraction.Derivation

/-!
# Inference in passes

Each pass evaluates all rules on the relationships at hand, turns the matches
into relationships and keeps those whose source, target and type are new. The
relationships of a pass are there for the next one. The matches of a rule count
against its limit whether or not they give a new relationship, and only the
entities of the first two conditions can be referred to.
-/

set_option autoImplicit false

namespace Uru.Extraction

open Uru.Storage (UUID)
open Uru.Lib

structure InferredRelationship where
  sourceEntityId : UUID
  targetEntityId : UUID
  relationshipType : String
  description : String
  confidence : ℚ
  ruleName : String
  evidence : List (Option UUID)

def InferredRelationship.key (r : InferredRelationship) : Key :=
  (r.sourceEntityId,r.targetEntityId,r.relationshipType)

structure RelationshipInferrer where
  inferenceRules : List InferenceRule
  minConfidence : ℚ
  maxInferencesPerRule : ℕ

structure Graph where
  entities : List Entity
  relationships : List Relationship
  entity_keys : (entities.map Entity.id).Nodup

def resolveRef (m : RuleMatch) (ref : List String) : Option Entity :=
  match ref with
  | [group, p] =>
    if group = "first" then (m.entityMap.lookup "first").bind (position p)
    else if group = "second" then (m.entityMap.lookup "second").bind (position p)
    else none
  | _ => none

section Passes

variable (inferrer : RelationshipInferrer)

def inferredRelationship (m : RuleMatch) (source target : Entity) : InferredRelationship where
  sourceEntityId := source.id
  targetEntityId := target.id
  relationshipType := m.thenRelationship
  description := "Inferred by rule: "++m.ruleName
  confidence := m.confidence
  ruleName := m.ruleName
  evidence := m.matchedRelationships.map Relationship.id

def matchRelationship (m : RuleMatch) : Option InferredRelationship :=
  if m.confidence < inferrer.minConfidence then none
  else match resolveRef m m.thenSource, resolveRef m m.thenTarget with
    | some source, some target =>
      if source.id = target.id then none else some (inferredRelationship m source target)
    | _, _ => none

def matchesToRelationships : (String → ℕ) → List RuleMatch → List InferredRelationship
  | _, [] => []
  | ruleCounts, m::ms =>
    let ruleCounts := Function.update ruleCounts m.ruleName (ruleCounts m.ruleName+1)
    if inferrer.maxInferencesPerRule < ruleCounts m.ruleName then
      matchesToRelationships ruleCounts ms
    else (matchRelationship inferrer m).toList++matchesToRelationships ruleCounts ms

local instance lawful_keys : LawfulBEq Key := inferInstance

def newOnly : List Key → List InferredRelationship → List InferredRelationship
  | _, [] => []
  | existingKeys, r::rs =>
    if r.key ∈ existingKeys then newOnly existingKeys rs
    else r::newOnly (existingKeys++[r.key]) rs

def filterDuplicates (newInferred : List InferredRelationship)
    (existingRelationships : List Relationship) (alreadyInferred : List InferredRelationship) :
    List InferredRelationship :=
  newOnly (existingRelationships.map Relationship.key++
    alreadyInferred.map InferredRelationship.key) newInferred

def toMockRelationship (r : InferredRelationship) : Relationship where
  id := none
  sourceEntityId := r.sourceEntityId
  targetEntityId := r.targetEntityId
  relationshipType := r.relationshipType

structure State where
  currentRelationships : List Relationship
  allInferred : List InferredRelationship

def context (g : Graph) (s : State) : RuleEvaluationContext := ⟨g.entities, s.currentRelationships⟩

def passMatches (g : Graph) (s : State) : List RuleMatch :=
  evaluateInferenceRules (context g s) inferrer.inferenceRules

def passInferred (g : Graph) (s : State) : List InferredRelationship :=
  matchesToRelationships inferrer (fun _ => 0) (passMatches inferrer g s)

def newInferred (g : Graph) (s : State) : List InferredRelationship :=
  filterDuplicates (passInferred inferrer g s) s.currentRelationships s.allInferred

def State.extend (s : State) (rs : List InferredRelationship) : State where
  currentRelationships := s.currentRelationships++rs.map toMockRelationship
  allInferred := s.allInferred++rs

def passes (g : Graph) : ℕ → State → State
  | 0, s => s
  | depth+1, s =>
    if (passInferred inferrer g s).isEmpty then s
    else if (newInferred inferrer g s).isEmpty then s
    else passes g depth (s.extend (newInferred inferrer g s))

def start (g : Graph) : State := ⟨g.relationships, []⟩

def infer (g : Graph) (depth : ℕ) : List InferredRelationship :=
  (passes inferrer g depth (start g)).allInferred

end Passes

section Pass

variable (inferrer : RelationshipInferrer) (g : Graph)

def advance (s : State) : State := s.extend (newInferred inferrer g s)

theorem extend_nil (s : State) : s.extend [] = s := by simp [State.extend]

theorem passes_eq (depth : ℕ) (s : State) :
    passes inferrer g depth s = (advance inferrer g)^[depth] s := by
  induction depth generalizing s with
  | zero => rfl
  | succ depth ih =>
    have hfix : newInferred inferrer g s = [] →
        (advance inferrer g)^[depth+1] s = s := fun h =>
      Function.iterate_fixed (by rw [advance, h, extend_nil]) _
    rw [passes]
    split_ifs with hpass hnew
    · refine (hfix ?_).symm
      rw [newInferred, List.isEmpty_iff.mp hpass]
      rfl
    · exact (hfix (List.isEmpty_iff.mp hnew)).symm
    · rw [ih]
      rfl

theorem mem_newOnly {existing : List Key} {rs : List InferredRelationship} {x : Key} :
    x ∈ (newOnly existing rs).map InferredRelationship.key ↔
      x ∉ existing ∧ x ∈ rs.map InferredRelationship.key := by
  induction rs generalizing existing with
  | nil => simp [newOnly]
  | cons r rs ih =>
    rw [newOnly]
    split_ifs with h
    · rw [ih, List.map_cons, List.mem_cons]
      grind
    · rw [List.map_cons, List.mem_cons, ih, List.map_cons, List.mem_cons]
      grind

theorem newOnly_nodup (existing : List Key) (rs : List InferredRelationship) :
    ((newOnly existing rs).map InferredRelationship.key).Nodup := by
  induction rs generalizing existing with
  | nil => exact List.nodup_nil
  | cons r rs ih =>
    rw [newOnly]
    split_ifs with h
    · exact ih existing
    · rw [List.map_cons, List.nodup_cons]
      refine ⟨fun hmem => (mem_newOnly.mp hmem).1 ?_, ih _⟩
      exact List.mem_append_right _ (List.mem_singleton.mpr rfl)

/-- A match that is within the limit of its rule, confident enough, with
references to its first or second group that lead to the relationship. -/
def Listed (ms : List RuleMatch) (x : Key) : Prop :=
  ∃ before m after, ms = before++m::after ∧
    before.countP (fun m' => m'.ruleName = m.ruleName) < inferrer.maxInferencesPerRule ∧
    (matchRelationship inferrer m).map InferredRelationship.key = some x

theorem mem_matchesToRelationships {ruleCounts : String → ℕ} {ms : List RuleMatch} {x : Key} :
    x ∈ (matchesToRelationships inferrer ruleCounts ms).map InferredRelationship.key ↔
      ∃ before m after, ms = before++m::after ∧
        ruleCounts m.ruleName+before.countP (fun m' => m'.ruleName = m.ruleName) <
          inferrer.maxInferencesPerRule ∧
        (matchRelationship inferrer m).map InferredRelationship.key = some x := by
  induction ms generalizing ruleCounts with
  | nil => simp [matchesToRelationships]
  | cons m ms ih =>
    have hrest : x ∈ (matchesToRelationships inferrer (Function.update ruleCounts m.ruleName
        (ruleCounts m.ruleName+1)) ms).map InferredRelationship.key ↔
        ∃ before m' after, m::ms = (m::before)++m'::after ∧
          ruleCounts m'.ruleName+(m::before).countP (fun q => q.ruleName = m'.ruleName) <
            inferrer.maxInferencesPerRule ∧
          (matchRelationship inferrer m').map InferredRelationship.key = some x := by
      rw [ih]
      refine exists_congr (fun before => exists_congr (fun m' => exists_congr (fun after => ?_)))
      rw [List.cons_append, List.cons.injEq, List.countP_cons]
      by_cases hname : m'.ruleName = m.ruleName
      · rw [hname, Function.update_self]
        simp only [decide_true, if_true, true_and]
        rw [Nat.add_right_comm, Nat.add_assoc]
      · rw [Function.update_of_ne hname]
        simp [Ne.symm hname]
    have hsplit : (∃ before m' after, m::ms = before++m'::after ∧
        ruleCounts m'.ruleName+before.countP (fun q => q.ruleName = m'.ruleName) <
          inferrer.maxInferencesPerRule ∧
        (matchRelationship inferrer m').map InferredRelationship.key = some x) ↔
        (ruleCounts m.ruleName < inferrer.maxInferencesPerRule ∧
          (matchRelationship inferrer m).map InferredRelationship.key = some x) ∨
        ∃ before m' after, m::ms = (m::before)++m'::after ∧
          ruleCounts m'.ruleName+(m::before).countP (fun q => q.ruleName = m'.ruleName) <
            inferrer.maxInferencesPerRule ∧
          (matchRelationship inferrer m').map InferredRelationship.key = some x := by
      constructor
      · rintro ⟨before, m', after, heq, hcount, hx⟩
        cases before with
        | nil =>
          cases heq
          exact .inl ⟨by simpa using hcount, hx⟩
        | cons b before =>
          cases heq
          exact .inr ⟨before, m', after, rfl, hcount, hx⟩
      · rintro (⟨hcount, hx⟩ | ⟨before, m', after, heq, hcount, hx⟩)
        · exact ⟨[], m, ms, rfl, by simpa using hcount, hx⟩
        · exact ⟨m::before, m', after, heq, hcount, hx⟩
    rw [hsplit, ← hrest, matchesToRelationships]
    simp only [Function.update_self]
    split_ifs with hlimit
    · have hover : ¬ ruleCounts m.ruleName < inferrer.maxInferencesPerRule := by omega
      simp [hover]
    · have hunder : ruleCounts m.ruleName < inferrer.maxInferencesPerRule := by omega
      rw [List.map_append, List.mem_append]
      simp [hunder, Option.map_eq_some_iff]

theorem mem_passInferred {s : State} {x : Key} :
    x ∈ (passInferred inferrer g s).map InferredRelationship.key ↔
      Listed inferrer (passMatches inferrer g s) x := by
  simp only [passInferred, mem_matchesToRelationships, Nat.zero_add, Listed]

end Pass

end Uru.Extraction
