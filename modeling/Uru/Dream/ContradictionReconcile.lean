import Uru.Dream.GraphMirror

/-!
# Reconciling contradicting relationships

The planner flags pairs of live relationships of one bucket: the same two
entities and the same type. Two judges answer for each pair, and a relationship
is closed where both name it. The pairs are judged and applied one by one. No
decision looks at the others: the winner of one pair may lose the next, and
three relationships may lose to each other in a circle.
-/

set_option autoImplicit false

namespace Uru.Dream.Reconcile

open Uru.Storage Uru.Lib Uru.Lib.Table

abbrev Bucket := UUID × UUID × String

def bucket (r : Relationship) : Bucket :=
  (r.sourceEntityId,r.targetEntityId,r.relationshipType)

/-- Both end markers that the planner reads are empty. -/
def isLive (r : Relationship) : Bool := r.validUntil.isNone && r.validTo.isNone

structure Finding where
  relationshipAId : UUID
  relationshipBId : UUID
  sourceEntityId : UUID
  targetEntityId : UUID
  relationshipType : String
  similarity : ℚ
  contradictingKeys : List String
  reason : String
  aConfidence : Option ℚ
  bConfidence : Option ℚ
  aSourceChunkIds : List String
  aSourceDocumentIds : List String
  bSourceChunkIds : List String
  bSourceDocumentIds : List String
  deriving DecidableEq

structure ReconcileVerdict where
  decision : String
  loser : String
  confidence : ℚ
  evidenceIds : List String
  confidence_nonneg : 0 ≤ confidence
  confidence_le_one : confidence ≤ 1

inductive Decision where
  | invalidate
  | keep
  | defer
  deriving DecidableEq, Repr

structure JudgeOutcome where
  decision : Decision
  loser : Option String
  deriving DecidableEq, Repr

section Plan

variable (textSimilarity : Relationship → Relationship → ℚ)
  (contradictingPropertyKeys : Relationship → Relationship → List String)
  (str : UUID → String) (similarityThreshold : ℚ)

def pairs {α : Type} : List α → List (α × α)
  | [] => []
  | x::xs => xs.map (fun y => (x,y))++pairs xs

def ordered (p : Relationship × Relationship) : Relationship × Relationship :=
  if str p.1.id < str p.2.id then p else (p.2,p.1)

def findContradiction (p : Relationship × Relationship) : Option Finding :=
  let similarity := textSimilarity p.1 p.2
  let contradictingKeys := contradictingPropertyKeys p.1 p.2
  let lowSim : Bool := similarity < similarityThreshold
  let hasContra := !contradictingKeys.isEmpty
  let rel := ordered str p
  if lowSim || hasContra then
    some
      { relationshipAId := rel.1.id
        relationshipBId := rel.2.id
        sourceEntityId := rel.1.sourceEntityId
        targetEntityId := rel.1.targetEntityId
        relationshipType := rel.1.relationshipType
        similarity := similarity
        contradictingKeys := contradictingKeys
        reason :=
          if lowSim && hasContra then "both"
          else if lowSim then "low_similarity"
          else "property_contradiction"
        aConfidence := some rel.1.confidence
        bConfidence := some rel.2.confidence
        aSourceChunkIds := rel.1.sourceChunkIds.map str
        aSourceDocumentIds := rel.1.sourceDocumentIds.map str
        bSourceChunkIds := rel.2.sourceChunkIds.map str
        bSourceDocumentIds := rel.2.sourceDocumentIds.map str }
  else none

def findContradictions (rs : List Relationship) : List Finding :=
  (pairs rs).filterMap (findContradiction textSimilarity contradictingPropertyKeys str
    similarityThreshold)

def bucketKeys (rs : List Relationship) : List Bucket :=
  rs.foldl (fun ks r => if bucket r ∈ ks then ks else ks++[bucket r]) []

def buckets (rs : List Relationship) : List (List Relationship) :=
  (bucketKeys rs).map (fun k => rs.filter (fun r => bucket r = k))

def planContradictionReconcile (now : Time) (c : Content) : List Finding :=
  let relationships := c.relationships.filter (fun r => r.live now)
  let live := relationships.filter isLive
  ((buckets live).filter (fun rs => 2 ≤ rs.length)).flatMap
    (findContradictions textSimilarity contradictingPropertyKeys str similarityThreshold)

end Plan

def allowedIds (f : Finding) : List String :=
  f.aSourceChunkIds++f.aSourceDocumentIds++f.bSourceChunkIds++f.bSourceDocumentIds

def grounded (v : ReconcileVerdict) (allowed : List String) : Bool :=
  v.evidenceIds.any (fun eid => eid ∈ allowed)

def combineVerdicts (minConfidence : ℚ) (allowed : List String) :
    Option ReconcileVerdict → Option ReconcileVerdict → JudgeOutcome
  | some verifier, some auditor =>
    if verifier.decision = "invalidate" ∧ auditor.decision = "invalidate" then
      if verifier.loser ≠ auditor.loser ∨ verifier.loser ∉ ["a","b"] then ⟨.defer,none⟩
      else if ¬(minConfidence ≤ verifier.confidence ∧ minConfidence ≤ auditor.confidence) then
        ⟨.defer,none⟩
      else if ¬(grounded verifier allowed ∧ grounded auditor allowed) then ⟨.defer,none⟩
      else ⟨.invalidate,some verifier.loser⟩
    else if verifier.decision = "keep" ∧ auditor.decision = "keep" then ⟨.keep,none⟩
    else ⟨.defer,none⟩
  | _, _ => ⟨.defer,none⟩

/-- The relationship that loses and the one that wins. -/
def resolveLoserWinner (f : Finding) (outcome : JudgeOutcome) : Option (UUID × UUID) :=
  let a := f.relationshipAId
  let b := f.relationshipBId
  if outcome.decision ≠ .invalidate then none
  else if outcome.loser = some "a" then some (a,b)
  else if outcome.loser = some "b" then some (b,a)
  else
    match f.aConfidence, f.bConfidence with
    | some aConf, some bConf => if aConf < bConf then some (a,b) else some (b,a)
    | _, _ => some (b,a)

def resolutionLabel : Decision → String
  | .invalidate => "invalidated"
  | .keep => "kept"
  | .defer => "deferred"

structure Triage where
  resolution : String
  loserRelationshipId : Option UUID
  winnerRelationshipId : Option UUID
  deriving DecidableEq, Repr

/-- The rows, the table of conflicts under its pair of ids, and the
relationships that the undo record lists. -/
structure State where
  content : Content
  triage : UUID × UUID → Option Triage
  invalidated : List UUID

section Apply

variable (askJudges : Finding → Option ReconcileVerdict × Option ReconcileVerdict)
  (minConfidence : ℚ) (now : Time)

def runContradictionJudge (f : Finding) : JudgeOutcome :=
  combineVerdicts minConfidence (allowedIds f) (askJudges f).1 (askJudges f).2

def agreed (f : Finding) : Option (UUID × UUID) :=
  resolveLoserWinner f (runContradictionJudge askJudges minConfidence f)

def triageOf (f : Finding) : Triage where
  resolution := resolutionLabel (runContradictionJudge askJudges minConfidence f).decision
  loserRelationshipId := (agreed askJudges minConfidence f).map Prod.fst
  winnerRelationshipId := (agreed askJudges minConfidence f).map Prod.snd

def pairOf (f : Finding) : UUID × UUID := (f.relationshipAId,f.relationshipBId)

/-- `UPDATE relationships SET valid_to = :ts WHERE id = :rid AND valid_to IS NULL`,
and the upsert of the row of the pair. -/
def applyFinding (s : State) (f : Finding) : State where
  content :=
    match agreed askJudges minConfidence f with
    | some (loser,_) => updateRelationships [prune now loser] s.content
    | none => s.content
  triage := Function.update s.triage (pairOf f) (some (triageOf askJudges minConfidence f))
  invalidated :=
    match agreed askJudges minConfidence f with
    | some (loser,_) =>
      if touched [prune now loser] s.content.relationships then s.invalidated++[loser]
      else s.invalidated
    | none => s.invalidated

def applyContradictionReconcile (c : Content) (triage : UUID × UUID → Option Triage)
    (findings : List Finding) : State :=
  findings.foldl (applyFinding askJudges minConfidence now) ⟨c,triage,[]⟩

end Apply

section Run

variable (askJudges : Finding → Option ReconcileVerdict × Option ReconcileVerdict)
  (minConfidence : ℚ) (now : Time)

/-- Both judges of a finding name the loser against the winner, above the floor
and citing an id of the pair. -/
def Named (f : Finding) (loser winner : UUID) : Prop :=
  ∃ verifier auditor, askJudges f = (some verifier,some auditor) ∧
    verifier.decision = "invalidate" ∧ auditor.decision = "invalidate" ∧
    verifier.loser = auditor.loser ∧
    (verifier.loser = "a" ∧ loser = f.relationshipAId ∧ winner = f.relationshipBId ∨
      verifier.loser = "b" ∧ loser = f.relationshipBId ∧ winner = f.relationshipAId) ∧
    minConfidence ≤ verifier.confidence ∧ minConfidence ≤ auditor.confidence ∧
    grounded verifier (allowedIds f) = true ∧ grounded auditor (allowedIds f) = true

def losers (findings : List Finding) : List UUID :=
  findings.filterMap (fun f => (agreed askJudges minConfidence f).map Prod.fst)

structure Detected (c : Content) (findings : List Finding) : Prop where
  rows : ∀ f ∈ findings, ∃ a ∈ c.relationships, ∃ b ∈ c.relationships,
    a.id = f.relationshipAId ∧ b.id = f.relationshipBId ∧ bucket a = bucket b
  distinct : (findings.map pairOf).Nodup

/-- No bucket is emptied, no relationship is closed without both judges of a
finding naming it against one that is live then, and every winner on record is
live at the end. -/
structure Safe (c : Content) (triage : UUID × UUID → Option Triage) (findings : List Finding) :
    Prop where
  survivor : ∀ r ∈ c.relationships, r.live now →
    ∃ r' ∈ (applyContradictionReconcile askJudges minConfidence now c triage
      findings).content.relationships, bucket r' = bucket r ∧ r'.live now
  justified : ∀ r ∈ c.relationships, r.live now →
    ∀ r' ∈ (applyContradictionReconcile askJudges minConfidence now c triage
      findings).content.relationships, r'.id = r.id → ¬r'.live now →
    ∃ before f after winner, findings = before++f::after ∧
      Named askJudges minConfidence f r.id winner ∧
      ∃ w ∈ (applyContradictionReconcile askJudges minConfidence now c triage
        before).content.relationships, w.id = winner ∧ w.live now
  recorded : ∀ f ∈ findings, ∀ row,
    (applyContradictionReconcile askJudges minConfidence now c triage findings).triage
      (pairOf f) = some row → row.resolution = "invalidated" →
    ∃ w ∈ (applyContradictionReconcile askJudges minConfidence now c triage
      findings).content.relationships, row.winnerRelationshipId = some w.id ∧ w.live now

variable {askJudges minConfidence now}

theorem resolved_iff {f : Finding} {loser winner : UUID} (verifier auditor : ReconcileVerdict) :
    resolveLoserWinner f (combineVerdicts minConfidence (allowedIds f) (some verifier)
        (some auditor)) = some (loser,winner) ↔
      verifier.decision = "invalidate" ∧ auditor.decision = "invalidate" ∧
      verifier.loser = auditor.loser ∧
      (verifier.loser = "a" ∧ loser = f.relationshipAId ∧ winner = f.relationshipBId ∨
        verifier.loser = "b" ∧ loser = f.relationshipBId ∧ winner = f.relationshipAId) ∧
      minConfidence ≤ verifier.confidence ∧ minConfidence ≤ auditor.confidence ∧
      grounded verifier (allowedIds f) = true ∧ grounded auditor (allowedIds f) = true := by
  have hba : ("b" : String) ≠ "a" := by decide
  have hnone : ∀ d, d ≠ Decision.invalidate → resolveLoserWinner f ⟨d,none⟩ = none :=
    fun d hd => if_pos hd
  unfold combineVerdicts
  dsimp only
  split_ifs with hinv hlose hconf hground hkeep
  · simp only [List.mem_cons, List.not_mem_nil, or_false] at hlose
    rw [hnone _ (by decide)]
    tauto
  · have hnamed : verifier.loser = auditor.loser ∧
        (verifier.loser = "a" ∨ verifier.loser = "b") := by
      simp only [List.mem_cons, List.not_mem_nil, or_false] at hlose
      tauto
    obtain ⟨hv, hu⟩ := hinv
    rcases hnamed.2 with ha | hb
    · simp [resolveLoserWinner, ha, hv, hu, hconf, hground, ← hnamed.1, eq_comm]
    · simp [resolveLoserWinner, hb, hba, hv, hu, hconf, hground, ← hnamed.1, eq_comm]
  · rw [hnone _ (by decide)]
    tauto
  · rw [hnone _ (by decide)]
    tauto
  · rw [hnone _ (by decide)]
    tauto
  · rw [hnone _ (by decide)]
    tauto

theorem agreed_iff_named {f : Finding} {loser winner : UUID} :
    agreed askJudges minConfidence f = some (loser,winner) ↔
      Named askJudges minConfidence f loser winner := by
  unfold agreed runContradictionJudge Named
  rcases askJudges f with ⟨_ | verifier, _ | auditor⟩
  · simp [combineVerdicts, resolveLoserWinner]
  · simp [combineVerdicts, resolveLoserWinner]
  · simp [combineVerdicts, resolveLoserWinner]
  · rw [resolved_iff]
    simp

theorem onRow_pruned (ids : List UUID) (r : Relationship) :
    onRow (ids.map (prune now)) r =
      if r.validTo = none ∧ r.id ∈ ids then { r with validTo := some now, updatedAt := now }
      else r := by
  induction ids generalizing r with
  | nil => simp
  | cons id ids ih =>
    rw [List.map_cons, onRow_cons, ih]
    by_cases hid : r.id = id
    · cases hv : r.validTo with
      | none => simp [Update.on, Update.hits, prune, hid, hv]
      | some v => simp [Update.on, Update.hits, prune, hid, hv]
    · rw [Update.on_other (u := prune now id) hid]
      simp [hid]

theorem apply_content (s : State) (findings : List Finding) :
    (findings.foldl (applyFinding askJudges minConfidence now) s).content =
      updateRelationships ((losers askJudges minConfidence findings).map (prune now))
        s.content := by
  induction findings generalizing s with
  | nil => rfl
  | cons f findings ih =>
    rw [List.foldl_cons, ih]
    unfold applyFinding losers
    rcases hf : agreed askJudges minConfidence f with _ | ⟨loser,winner⟩
    · simp [hf]
    · simp only [List.filterMap_cons, hf, Option.map_some, List.map_cons]
      rfl

theorem live_pruned (ids : List UUID) (r : Relationship) :
    (onRow (ids.map (prune now)) r).live now = (r.live now && r.id ∉ ids) := by
  rw [onRow_pruned]
  by_cases hid : r.id ∈ ids
  · cases hv : r.validTo with
    | none => simp [Relationship.live, hid]
    | some v => simp [Relationship.live, hid, hv]
  · simp [hid]

theorem bucket_pruned (ids : List UUID) (r : Relationship) :
    bucket (onRow (ids.map (prune now)) r) = bucket r := by
  rw [onRow_pruned]
  split_ifs
  · rfl
  · rfl

section After

variable {c : Content} {triage : UUID × UUID → Option Triage} {findings : List Finding}

theorem mem_after {x : Relationship} :
    x ∈ (applyContradictionReconcile askJudges minConfidence now c triage
      findings).content.relationships ↔
    ∃ r ∈ c.relationships,
      onRow ((losers askJudges minConfidence findings).map (prune now)) r = x := by
  rw [applyContradictionReconcile, apply_content]
  change x ∈ run _ c.relationships ↔ _
  rw [run_eq_map, List.mem_map]

/-- A relationship is live after a run exactly if it was and no finding of the
run closes it. -/
theorem live_after_iff (id : UUID) :
    (∃ x ∈ (applyContradictionReconcile askJudges minConfidence now c triage
      findings).content.relationships, x.id = id ∧ x.live now) ↔
    (∃ r ∈ c.relationships, r.id = id ∧ r.live now) ∧
      id ∉ losers askJudges minConfidence findings := by
  constructor
  · rintro ⟨x, hx, rfl, hlive⟩
    obtain ⟨r, hr, rfl⟩ := mem_after.mp hx
    rw [live_pruned, Bool.and_eq_true, decide_eq_true_eq] at hlive
    have hid := onRow_key ((losers askJudges minConfidence findings).map (prune now)) r
    exact ⟨⟨r, hr, hid.symm, hlive.1⟩, fun hmem => hlive.2 (hid ▸ hmem)⟩
  · rintro ⟨⟨r, hr, rfl, hlive⟩, hid⟩
    refine ⟨_, mem_after.mpr ⟨r, hr, rfl⟩, onRow_key _ r, ?_⟩
    rw [live_pruned, hlive, Bool.true_and, decide_eq_true hid]

theorem mem_losers {id : UUID} : id ∈ losers askJudges minConfidence findings ↔
    ∃ f ∈ findings, ∃ winner, agreed askJudges minConfidence f = some (id,winner) := by
  simp [losers]

theorem triage_other {s : State} {key : UUID × UUID} (h : key ∉ findings.map pairOf) :
    (findings.foldl (applyFinding askJudges minConfidence now) s).triage key = s.triage key := by
  induction findings generalizing s with
  | nil => rfl
  | cons f findings ih =>
    rw [List.map_cons, List.mem_cons, not_or] at h
    rw [List.foldl_cons, ih h.2]
    exact Function.update_of_ne h.1 _ _

/-- Every finding leaves the row of its pair. -/
theorem triage_mem {s : State} (hn : (findings.map pairOf).Nodup) {f : Finding}
    (hf : f ∈ findings) :
    (findings.foldl (applyFinding askJudges minConfidence now) s).triage (pairOf f) =
      some (triageOf askJudges minConfidence f) := by
  induction findings generalizing s with
  | nil => cases hf
  | cons g findings ih =>
    rw [List.map_cons, List.nodup_cons] at hn
    rw [List.foldl_cons]
    rcases List.mem_cons.mp hf with rfl | hf
    · rw [triage_other hn.1]
      exact Function.update_self _ _ _
    · exact ih hn.2 hf

theorem invalidated_iff (f : Finding) :
    (triageOf askJudges minConfidence f).resolution = "invalidated" ↔
      ∃ loser winner, agreed askJudges minConfidence f = some (loser,winner) := by
  unfold triageOf agreed
  rcases runContradictionJudge askJudges minConfidence f with ⟨_ | _ | _, loser⟩
  · refine iff_of_true rfl ?_
    unfold resolveLoserWinner
    dsimp only
    split_ifs
    · contradiction
    · exact ⟨_, _, rfl⟩
    · exact ⟨_, _, rfl⟩
    · split
      · split_ifs
        · exact ⟨_, _, rfl⟩
        · exact ⟨_, _, rfl⟩
      · exact ⟨_, _, rfl⟩
  · simp [resolutionLabel, resolveLoserWinner]
  · simp [resolutionLabel, resolveLoserWinner]

theorem Detected.agreed_bucket (h : Detected c findings) {f : Finding} (hf : f ∈ findings)
    {loser winner : UUID} (ha : agreed askJudges minConfidence f = some (loser,winner))
    {r w : Relationship} (hr : r ∈ c.relationships) (hw : w ∈ c.relationships) (hl : r.id = loser)
    (hwin : w.id = winner) : bucket r = bucket w := by
  obtain ⟨a, hma, b, hmb, haid, hbid, hab⟩ := h.rows f hf
  obtain ⟨verifier, auditor, -, -, -, -, hside, -⟩ := agreed_iff_named.mp ha
  rcases hside with ⟨-, rfl, rfl⟩ | ⟨-, rfl, rfl⟩
  · rw [c.relationship_ext hr hma (hl.trans haid.symm), c.relationship_ext hw hmb
      (hwin.trans hbid.symm)]
    exact hab
  · rw [c.relationship_ext hr hmb (hl.trans hbid.symm), c.relationship_ext hw hma
      (hwin.trans haid.symm)]
    exact hab.symm

/-- Reconciling is safe exactly if every winner is live when it starts and
loses no other pair. -/
theorem reconcile_safe_iff (h : Detected c findings) :
    Safe askJudges minConfidence now c triage findings ↔
      ∀ f ∈ findings, ∀ loser winner,
        agreed askJudges minConfidence f = some (loser,winner) →
        (∃ r ∈ c.relationships, r.id = winner ∧ r.live now) ∧
          ∀ g ∈ findings, ∀ other,
            agreed askJudges minConfidence g ≠ some (winner,other) := by
  constructor
  · intro hs f hf loser winner ha
    have hinv := (invalidated_iff f).mpr ⟨loser, winner, ha⟩
    obtain ⟨w, hw, hid, hlive⟩ := hs.recorded f hf _ (triage_mem h.distinct hf) hinv
    have hwin : w.id = winner := by
      rw [triageOf, ha] at hid
      exact (Option.some.inj hid).symm
    obtain ⟨hstart, hnot⟩ := (live_after_iff winner).mp ⟨w, hw, hwin, hlive⟩
    exact ⟨hstart, fun g hg other hother => hnot (mem_losers.mpr ⟨g, hg, other, hother⟩)⟩
  · intro hc
    have hwinner : ∀ f ∈ findings, ∀ loser winner,
        agreed askJudges minConfidence f = some (loser,winner) →
        (∃ r ∈ c.relationships, r.id = winner ∧ r.live now) ∧
          winner ∉ losers askJudges minConfidence findings := by
      intro f hf loser winner ha
      obtain ⟨hlive, hnot⟩ := hc f hf loser winner ha
      refine ⟨hlive, fun hmem => ?_⟩
      obtain ⟨g, hg, other, hother⟩ := mem_losers.mp hmem
      exact hnot g hg other hother
    refine ⟨fun r hr hlive => ?_, fun r hr hlive r' hr' hid hdead => ?_,
      fun f hf row hrow hinv => ?_⟩
    · by_cases hmem : r.id ∈ losers askJudges minConfidence findings
      · obtain ⟨f, hf, winner, ha⟩ := mem_losers.mp hmem
        obtain ⟨⟨w, hw, rfl, hwlive⟩, hnot⟩ := hwinner f hf r.id winner ha
        refine ⟨_, mem_after.mpr ⟨w, hw, rfl⟩, ?_, ?_⟩
        · rw [bucket_pruned]
          exact (h.agreed_bucket hf ha hr hw rfl rfl).symm
        · rw [live_pruned, hwlive, Bool.true_and, decide_eq_true hnot]
      · refine ⟨_, mem_after.mpr ⟨r, hr, rfl⟩, bucket_pruned _ r, ?_⟩
        rw [live_pruned, hlive, Bool.true_and, decide_eq_true hmem]
    · have hmem : r.id ∈ losers askJudges minConfidence findings := by
        by_contra hmem
        obtain ⟨x, hx, rfl⟩ := mem_after.mp hr'
        obtain rfl := c.relationship_ext hx hr ((onRow_key _ x).symm.trans hid)
        rw [live_pruned, hlive, Bool.true_and, decide_eq_true hmem] at hdead
        exact hdead rfl
      obtain ⟨f, hf, winner, ha⟩ := mem_losers.mp hmem
      obtain ⟨before, after, rfl⟩ := List.append_of_mem hf
      obtain ⟨hstart, hnot⟩ := hwinner f hf r.id winner ha
      refine ⟨before, f, after, winner, rfl, agreed_iff_named.mp ha,
        (live_after_iff winner).mpr ⟨hstart, fun hb => hnot ?_⟩⟩
      rw [losers, List.filterMap_append]
      exact List.mem_append_left _ hb
    · rw [applyContradictionReconcile, triage_mem h.distinct hf] at hrow
      obtain rfl := Option.some.inj hrow
      obtain ⟨loser, winner, ha⟩ := (invalidated_iff f).mp hinv
      obtain ⟨w, hw, rfl, hwlive⟩ := (live_after_iff winner).mpr (hwinner f hf loser winner ha)
      exact ⟨w, hw, by rw [triageOf, ha]; rfl, hwlive⟩

end After

end Run

section Planned

theorem pairs_mem {α : Type} {xs : List α} {p : α × α} (h : p ∈ pairs xs) :
    p.1 ∈ xs ∧ p.2 ∈ xs := by
  induction xs with
  | nil => cases h
  | cons x xs ih =>
    rw [pairs, List.mem_append, List.mem_map] at h
    rcases h with ⟨y, hy, rfl⟩ | h
    · exact ⟨List.mem_cons_self, List.mem_cons_of_mem _ hy⟩
    · exact ⟨List.mem_cons_of_mem _ (ih h).1, List.mem_cons_of_mem _ (ih h).2⟩

/-- No pair comes up twice, nor the other way round. -/
theorem pairs_distinct {α : Type} {xs : List α} (h : xs.Nodup) :
    (pairs xs).Pairwise (fun p q => p ≠ q ∧ p ≠ q.swap) := by
  induction xs with
  | nil => exact List.Pairwise.nil
  | cons x xs ih =>
    obtain ⟨hx, hxs⟩ := List.nodup_cons.mp h
    rw [pairs, List.pairwise_append]
    refine ⟨List.pairwise_map.mpr (hxs.imp_of_mem ?_), ih hxs, ?_⟩
    · intro y z hy _ hne
      refine ⟨fun he => hne (Prod.mk.inj he).2, fun he => hx ?_⟩
      rw [(Prod.mk.inj he).2] at hy
      exact hy
    · intro p hp q hq
      obtain ⟨y, -, rfl⟩ := List.mem_map.mp hp
      obtain ⟨h₁, h₂⟩ := pairs_mem hq
      refine ⟨fun he => hx ?_, fun he => hx ?_⟩
      · rw [← he] at h₁
        exact h₁
      · have hxq : x = q.2 := congrArg Prod.fst he
        exact hxq ▸ h₂

variable {textSimilarity : Relationship → Relationship → ℚ}
  {contradictingPropertyKeys : Relationship → Relationship → List String}
  {str : UUID → String} {similarityThreshold : ℚ}

theorem ordered_cases (p : Relationship × Relationship) :
    ordered str p = p ∨ ordered str p = p.swap := by
  unfold ordered
  split_ifs
  · exact .inl rfl
  · exact .inr rfl

theorem finding_of {p : Relationship × Relationship} {f : Finding}
    (h : findContradiction textSimilarity contradictingPropertyKeys str similarityThreshold p =
      some f) : pairOf f = ((ordered str p).1.id,(ordered str p).2.id) := by
  unfold findContradiction at h
  dsimp only at h
  by_cases hflag : (decide (textSimilarity p.1 p.2 < similarityThreshold) ||
      !(contradictingPropertyKeys p.1 p.2).isEmpty) = true
  · rw [if_pos hflag] at h
    obtain rfl := Option.some.inj h
    rfl
  · rw [if_neg hflag] at h
    cases h

theorem bucketKeys_nodup (rs : List Relationship) : (bucketKeys rs).Nodup := by
  suffices h : ∀ ks : List Bucket, ks.Nodup →
      (rs.foldl (fun ks r => if bucket r ∈ ks then ks else ks++[bucket r]) ks).Nodup from
    h [] List.nodup_nil
  induction rs with
  | nil => exact fun ks h => h
  | cons r rs ih =>
    intro ks hks
    rw [List.foldl_cons]
    refine ih _ ?_
    split_ifs with hmem
    · exact hks
    · exact List.nodup_append.mpr ⟨hks, List.nodup_singleton _, fun a ha b hb => by
        rintro rfl
        rw [List.mem_singleton] at hb
        exact hmem (hb ▸ ha)⟩

theorem mem_bucket {rs b : List Relationship} (h : b ∈ buckets rs) {r : Relationship}
    (hr : r ∈ b) : r ∈ rs := by
  obtain ⟨k, -, rfl⟩ := List.mem_map.mp h
  exact (List.mem_filter.mp hr).1

theorem bucket_eq {rs b : List Relationship} (h : b ∈ buckets rs) {r s : Relationship}
    (hr : r ∈ b) (hs : s ∈ b) : bucket r = bucket s := by
  obtain ⟨k, -, rfl⟩ := List.mem_map.mp h
  have hrk := of_decide_eq_true (List.mem_filter.mp hr).2
  exact hrk.trans (of_decide_eq_true (List.mem_filter.mp hs).2).symm

theorem buckets_apart (rs : List Relationship) :
    (buckets rs).Pairwise (fun b b' => ∀ r ∈ b, r ∉ b') := by
  refine List.pairwise_map.mpr ((bucketKeys_nodup rs).imp (fun {k k'} hne r hr hr' => hne ?_))
  have hk := of_decide_eq_true (List.mem_filter.mp hr).2
  exact hk.symm.trans (of_decide_eq_true (List.mem_filter.mp hr').2)

theorem bucket_nodup {now : Time} (c : Content) {b : List Relationship}
    (h : b ∈ buckets ((c.relationships.filter (fun r => r.live now)).filter isLive)) :
    b.Nodup := by
  obtain ⟨k, -, rfl⟩ := List.mem_map.mp h
  exact ((c.relationship_keys.of_map.filter _).filter _).filter _

/-- The planner finds pairs of rows of one bucket, no pair twice. -/
theorem plan_detected (now : Time) (c : Content) :
    Detected c (planContradictionReconcile textSimilarity contradictingPropertyKeys str
      similarityThreshold now c) := by
  have hrows : ∀ r ∈ (c.relationships.filter (fun r => r.live now)).filter isLive,
      r ∈ c.relationships := fun r hr => (List.mem_filter.mp (List.mem_filter.mp hr).1).1
  have hfound : ∀ b f, f ∈ findContradictions textSimilarity contradictingPropertyKeys str
      similarityThreshold b → ∃ x ∈ b, ∃ y ∈ b, pairOf f = (x.id,y.id) := by
    intro b f hf
    obtain ⟨p, hp, hfp⟩ := List.mem_filterMap.mp hf
    obtain ⟨h₁, h₂⟩ := pairs_mem hp
    rw [finding_of hfp]
    rcases @ordered_cases str p with ho | ho
    · exact ⟨p.1, h₁, p.2, h₂, by rw [ho]⟩
    · exact ⟨p.2, h₂, p.1, h₁, by rw [ho]; rfl⟩
  constructor
  · intro f hf
    obtain ⟨b, hb, hfb⟩ := List.mem_flatMap.mp hf
    have hb' := (List.mem_filter.mp hb).1
    obtain ⟨x, hx, y, hy, hpair⟩ := hfound b f hfb
    exact ⟨x, hrows x (mem_bucket hb' hx), y, hrows y (mem_bucket hb' hy),
      (congrArg Prod.fst hpair).symm, (congrArg Prod.snd hpair).symm, bucket_eq hb' hx hy⟩
  · rw [planContradictionReconcile, List.map_flatMap, List.nodup_flatMap]
    constructor
    · intro b hb
      have hb' := (List.mem_filter.mp hb).1
      have hids : ∀ x ∈ b, ∀ y ∈ b, x.id = y.id → x = y := fun x hx y hy =>
        c.relationship_ext (hrows x (mem_bucket hb' hx)) (hrows y (mem_bucket hb' hy))
      refine List.pairwise_map.mpr (List.pairwise_filterMap.mpr
        ((pairs_distinct (bucket_nodup c hb')).imp_of_mem ?_))
      rintro p q hp hq ⟨hne, hswap⟩ f hf g hg hpair
      rw [finding_of hf, finding_of hg] at hpair
      obtain ⟨hp₁, hp₂⟩ := pairs_mem hp
      obtain ⟨hq₁, hq₂⟩ := pairs_mem hq
      obtain ⟨hfst, hsnd⟩ := Prod.mk.inj hpair
      rcases @ordered_cases str p with ho | ho
      · rcases @ordered_cases str q with ho' | ho'
        · rw [ho, ho'] at hfst hsnd
          exact hne (Prod.ext (hids _ hp₁ _ hq₁ hfst) (hids _ hp₂ _ hq₂ hsnd))
        · rw [ho, ho'] at hfst hsnd
          exact hswap (Prod.ext (hids _ hp₁ _ hq₂ hfst) (hids _ hp₂ _ hq₁ hsnd))
      · rcases @ordered_cases str q with ho' | ho'
        · rw [ho, ho'] at hfst hsnd
          exact hswap (Prod.ext (hids _ hp₁ _ hq₂ hsnd) (hids _ hp₂ _ hq₁ hfst))
        · rw [ho, ho'] at hfst hsnd
          exact hne (Prod.ext (hids _ hp₁ _ hq₁ hsnd) (hids _ hp₂ _ hq₂ hfst))
    · refine ((buckets_apart _).sublist List.filter_sublist).imp_of_mem ?_
      intro b b' hb hb' hapart
      rw [Function.onFun, List.disjoint_left]
      intro k hk hk'
      obtain ⟨f, hf, rfl⟩ := List.mem_map.mp hk
      obtain ⟨g, hg, hpair⟩ := List.mem_map.mp hk'
      obtain ⟨x, hx, y, -, hxy⟩ := hfound b f hf
      obtain ⟨u, hu, v, -, huv⟩ := hfound b' g hg
      have hid : u.id = x.id :=
        (congrArg Prod.fst huv).symm.trans ((congrArg Prod.fst hpair).trans
          (congrArg Prod.fst hxy))
      have hux := c.relationship_ext (hrows u (mem_bucket (List.mem_filter.mp hb').1 hu))
        (hrows x (mem_bucket (List.mem_filter.mp hb).1 hx)) hid
      exact hapart x hx (hux ▸ hu)

end Planned

namespace Circle

def relationship (id : UUID) : Relationship where
  id := id
  sourceEntityId := 10
  targetEntityId := 11
  relationshipType := "WORKS_AT"
  sourceDocumentIds := []
  sourceChunkIds := [id+20]
  confidence := 1
  weight := 1
  validUntil := none
  validTo := none
  invalidatedAt := none
  invalidatedBy := none
  createdAt := 0
  updatedAt := 0
  columns := []

def content (ids : List UUID) (h : ids.Nodup) : Content where
  entities := []
  relationships := ids.map relationship
  entity_keys := List.nodup_nil
  relationship_keys := by
    rw [List.map_map]
    exact h.map_on (fun _ _ _ _ hid => hid)

def str (id : UUID) : String := "00000000-0000-0000-0000-0000000000"++Nat.repr (id+10)

def verdict (loser : String) (evidenceIds : List String) : ReconcileVerdict where
  decision := "invalidate"
  loser := loser
  confidence := 9/10
  evidenceIds := evidenceIds
  confidence_nonneg := by norm_num
  confidence_le_one := by norm_num

/-- The first loses to the second, the second to the third, the third to the
first. -/
def askJudges (f : Finding) : Option ReconcileVerdict × Option ReconcileVerdict :=
  let side := if pairOf f = (1,3) then "b" else "a"
  (some (verdict side f.aSourceChunkIds),some (verdict side f.bSourceChunkIds))

def findings (ids : List UUID) (h : ids.Nodup) : List Finding :=
  planContradictionReconcile (fun _ _ => 0) (fun _ _ => []) str (1/2) 100 (content ids h)

theorem three : [1,2,3].Nodup := by decide

theorem two : [1,2].Nodup := by decide

/-- All three relationships of the bucket are closed. -/
theorem circle_empties_bucket :
    ¬Safe askJudges (3/5) 100 (content [1,2,3] three) (fun _ => none) (findings [1,2,3] three) := by
  intro h
  obtain ⟨r, hr, -, hlive⟩ := h.survivor (relationship 1) (by decide) (by decide)
  have hclosed : ∀ x ∈ (applyContradictionReconcile askJudges (3/5) 100
      (content [1,2,3] three) (fun _ => none) (findings [1,2,3] three)).content.relationships,
      x.live 100 = false := by decide +kernel
  exact Bool.false_ne_true ((hclosed r hr).symm.trans hlive)

/-- Of two relationships the winner stays. -/
theorem pair_keeps_winner :
    Safe askJudges (3/5) 100 (content [1,2] two) (fun _ => none) (findings [1,2] two) := by
  have hfindings : (findings [1,2] two).map (agreed askJudges (3/5)) = [some (1,2)] := by
    decide +kernel
  have hall : ∀ f ∈ findings [1,2] two, agreed askJudges (3/5) f = some (1,2) := by
    intro f hf
    have hmem := List.mem_map_of_mem (f := agreed askJudges (3/5)) hf
    rw [hfindings, List.mem_singleton] at hmem
    exact hmem
  refine (reconcile_safe_iff (plan_detected 100 (content [1,2] two))).mpr
    (fun f hf loser winner ha => ?_)
  obtain ⟨rfl, rfl⟩ := Prod.mk.inj (Option.some.inj ((hall f hf).symm.trans ha))
  refine ⟨⟨relationship 2, by decide, rfl, by decide⟩, fun g hg other hother => ?_⟩
  have hone := (Prod.mk.inj (Option.some.inj ((hall g hg).symm.trans hother))).1
  exact absurd hone (by decide)

end Circle

end Uru.Dream.Reconcile
