import Uru.Storage.Rows
import Mathlib.Data.List.Basic

/-!
# The rule engine

A rule lists conditions on relationships and says which relationship follows.
The engine walks the conditions: it starts from the relationships that meet the
first and extends each partial match by the relationships that meet the next
one and are connected to the last. It stops extending where it holds too many
partial matches, and returns at most so many matches of one rule.
-/

set_option autoImplicit false

namespace Uru.Extraction

open Uru.Storage (UUID)

structure Entity where
  id : UUID
  entityType : String
deriving DecidableEq

/-- A relationship that was inferred in an earlier pass has no stored id. -/
structure Relationship where
  id : Option UUID
  sourceEntityId : UUID
  targetEntityId : UUID
  relationshipType : String
deriving DecidableEq

structure InferenceCondition where
  relationship : String
  sourceType : Option String
  targetType : Option String

/-- The references are given as their parts between the dots. -/
structure InferenceRule where
  name : String
  conditions : List InferenceCondition
  thenRelationship : String
  thenSource : List String
  thenTarget : List String
  confidence : ℚ

def typeHierarchy : String → List String
  | "EMPLOYEE" => ["PERSON"]
  | "EXTERNAL_PERSON" => ["PERSON"]
  | "COMPANY" => ["ORGANIZATION"]
  | "DEPARTMENT" => ["ORGANIZATION"]
  | "TEAM" => ["ORGANIZATION"]
  | "MESSAGE" => ["CONTENT"]
  | "PAGE" => ["CONTENT", "DOCUMENT"]
  | "ISSUE" => ["WORK_ITEM", "CONTENT"]
  | "SALES_NOTE" => ["CONTENT", "NOTE"]
  | "CALL" => ["EVENT", "MEETING"]
  | "DEAL" => ["OPPORTUNITY"]
  | "PROJECT" => ["WORK_ITEM"]
  | "CYCLE" => ["WORK_ITEM", "SPRINT"]
  | _ => []

def typesMatch (actualType expectedType : String) : Bool :=
  actualType = expectedType ∨ expectedType ∈ typeHierarchy actualType ∨
    actualType ∈ typeHierarchy expectedType

def unconstrained : Option String → Bool
  | none => true
  | some t => t = ""

def typeMatches (expected : Option String) (e : Entity) : Bool :=
  unconstrained expected || typesMatch e.entityType (expected.getD "")

structure RuleEvaluationContext where
  entities : List Entity
  relationships : List Relationship

namespace RuleEvaluationContext

variable (ctx : RuleEvaluationContext)

/-- `entity_by_id`: the last of the entities with an id. -/
def findEntityById (id : UUID) : Option Entity := ctx.entities.reverse.find? (fun e => e.id = id)

def relationshipIndex (t : String) : List Relationship :=
  ctx.relationships.filter (fun r => r.relationshipType = t)

def relsBySource (id : UUID) : List Relationship :=
  ctx.relationships.filter (fun r => r.sourceEntityId = id)

def relsByTarget (id : UUID) : List Relationship :=
  ctx.relationships.filter (fun r => r.targetEntityId = id)

def ends (r : Relationship) : Option (Entity × Entity) :=
  match ctx.findEntityById r.sourceEntityId, ctx.findEntityById r.targetEntityId with
  | some s, some t => some (s,t)
  | _, _ => none

def filterRelationshipsByTypes (rels : List Relationship) (sourceType targetType : Option String) :
    List Relationship :=
  if unconstrained sourceType ∧ unconstrained targetType then rels
  else rels.filter (fun r => (ctx.ends r).any
    (fun e => typeMatches sourceType e.1 && typeMatches targetType e.2))

end RuleEvaluationContext

def ordinals : List String :=
  ["first", "second", "third", "fourth", "fifth", "sixth", "seventh", "eighth"]

def ordinal (i : ℕ) : String := (ordinals[i]?).getD ("cond_"++toString i)

abbrev EntityMap := List (String × Entity × Entity)

structure PartialMatch where
  matchedRels : List Relationship
  entityMap : EntityMap

def position (p : String) (e : Entity × Entity) : Option Entity :=
  if p = "source" then some e.1 else if p = "target" then some e.2 else none

def resolveEntityRef (ref : List String) (entityMap : EntityMap) : Option Entity :=
  match ref with
  | [group, p] => (entityMap.lookup group).bind (position p)
  | _ => none

structure RuleMatch where
  ruleName : String
  matchedRelationships : List Relationship
  confidence : ℚ
  thenRelationship : String
  thenSource : List String
  thenTarget : List String
  entityMap : EntityMap

def ruleMatch (rule : InferenceRule) (p : PartialMatch) : Option RuleMatch :=
  let found : RuleMatch :=
    { ruleName := rule.name
      matchedRelationships := p.matchedRels
      confidence := rule.confidence
      thenRelationship := rule.thenRelationship
      thenSource := rule.thenSource
      thenTarget := rule.thenTarget
      entityMap := p.entityMap }
  match resolveEntityRef rule.thenSource p.entityMap,
      resolveEntityRef rule.thenTarget p.entityMap with
  | some s, some t => if s.id = t.id then none else some found
  | _, _ => some found

section Evaluation

variable (ctx : RuleEvaluationContext)

def addAbsent (out rels : List Relationship) : List Relationship :=
  rels.foldl (fun out r => if r ∈ out then out else out++[r]) out

/-- Relationships of a type that start where the last one ends, start where it
starts, or end where it ends. -/
def candidateRels (prev : Relationship) (t : String) : List Relationship :=
  let typed := fun rels : List Relationship => rels.filter (fun r => r.relationshipType = t)
  addAbsent (addAbsent (typed (ctx.relsBySource prev.targetEntityId))
    (typed (ctx.relsBySource prev.sourceEntityId)))
      (typed (ctx.relsByTarget prev.targetEntityId))

def extended (name : String) (p : PartialMatch) (r : Relationship) : Option PartialMatch :=
  (ctx.ends r).map (fun e => ⟨p.matchedRels++[r], p.entityMap++[(name,e)]⟩)

def extensions (c : InferenceCondition) (name : String) (p : PartialMatch) : List PartialMatch :=
  match p.matchedRels.getLast? with
  | none => []
  | some prev => (ctx.filterRelationshipsByTypes (candidateRels ctx prev c.relationship)
      c.sourceType c.targetType).filterMap (extended ctx name p)

def extendMatches (maxMatches : ℕ) (c : InferenceCondition) (name : String) :
    List PartialMatch → List PartialMatch → List PartialMatch
  | out, [] => out
  | out, p::ps =>
    if maxMatches ≤ out.length then out
    else extendMatches maxMatches c name (out++extensions ctx c name p) ps

def walk (maxMatches : ℕ) : ℕ → List InferenceCondition → List PartialMatch → List PartialMatch
  | _, [], ps => ps
  | i, c::cs, ps => walk maxMatches (i+1) cs (extendMatches ctx maxMatches c (ordinal i) [] ps)

def firstMatches (c : InferenceCondition) : List PartialMatch :=
  (ctx.filterRelationshipsByTypes (ctx.relationshipIndex c.relationship) c.sourceType
    c.targetType).filterMap (extended ctx (ordinal 0) ⟨[], []⟩)

def evaluateInferenceRule (maxMatches : ℕ) (rule : InferenceRule) : List RuleMatch :=
  match rule.conditions with
  | [] => []
  | c::cs => ((walk ctx maxMatches 1 cs (firstMatches ctx c)).filterMap
      (ruleMatch rule)).take maxMatches

def maxMatches : ℕ := 1000

def evaluateInferenceRules (rules : List InferenceRule) : List RuleMatch :=
  rules.flatMap (evaluateInferenceRule ctx maxMatches)

end Evaluation

end Uru.Extraction
