import Uru.Filter.Calendar
import Uru.Filter.Oracle

/-!
# The date window of a filter

The compiler folds the bounds that the top-level conjunction puts on
`source_timestamp` into one window and leaves everything else to the predicate
that re-checks the rows. Strict and non-strict comparisons give the same bound.
-/

set_option autoImplicit false

namespace Uru.Filter.Chronicle

open Uru.Lib

structure ChronicleDateBound where
  createdAfter : Option DateTime
  createdBefore : Option DateTime
deriving DecidableEq

inductive OnUnsupported
  | raise
  | split
deriving DecidableEq

inductive CompileError
  | typeError
  | unsupported (path : PyStr) (message : String)

structure Compiled where
  predicate : ChronicleDateBound
  consumedKeys : List PyStr

def unbounded : Compiled := ⟨⟨none, none⟩, []⟩

def pushdownKey : PyStr := py "source_timestamp"

def lowerOps : Op → Bool
  | .gt | .gte => true
  | _ => false

def upperOps : Op → Bool
  | .lt | .lte => true
  | _ => false

def asDatetime : Operand → Option DateTime
  | .atom (.date t) => some t.aware
  | .atom (.val (.datetime d)) => some d
  | _ => none

def consumableDateClause : Ast → Option (PyStr × Op × DateTime)
  | .leaf c =>
    if c.path = [pushdownKey] ∧ (c.op = .eq ∨ lowerOps c.op ∨ upperOps c.op) then
      (asDatetime c.operand).map (fun value => (pushdownKey,c.op,value))
    else none
  | .node _ _ => none

def operatorName : Connective → PyStr
  | .and => py "$and"
  | .or => py "$or"
  | .not => py "$not"

def representativePath : Ast → PyStr
  | .leaf c => c.key
  | .node op _ => operatorName op

def rejectIfRaise (mode : OnUnsupported) (node : Ast) : Except CompileError Unit :=
  if mode = .raise then .error (.unsupported (representativePath node)
    ("Chronicle pushes down only conjunctive source_timestamp date bounds; "++
      "this clause must be post-filtered"))
  else .ok ()

/-- `max` of the current lower bound and the candidate, which Python refuses for
a naive and an aware datetime. -/
def maxLower (current : Option DateTime) (candidate : DateTime) : Except CompileError DateTime :=
  match current with
  | none => .ok candidate
  | some c =>
    match pyCompare .gt (.datetime candidate) (.datetime c) with
    | some later => .ok (if later then candidate else c)
    | none => .error .typeError

def minUpper (current : Option DateTime) (candidate : DateTime) : Except CompileError DateTime :=
  match current with
  | none => .ok candidate
  | some c =>
    match pyCompare .lt (.datetime candidate) (.datetime c) with
    | some earlier => .ok (if earlier then candidate else c)
    | none => .error .typeError

def foldLower (current : Option DateTime) (value : DateTime) :
    Except CompileError (Option DateTime) := (maxLower current value).map some

def foldUpper (current : Option DateTime) (value : DateTime) :
    Except CompileError (Option DateTime) := (minUpper current value).map some

def foldBound (op : Op) (value : DateTime) (b : ChronicleDateBound) :
    Except CompileError ChronicleDateBound :=
  if op = .eq then do
    let lower ← foldLower b.createdAfter value
    let upper ← foldUpper b.createdBefore value
    return ⟨lower,upper⟩
  else if lowerOps op then do
    let lower ← foldLower b.createdAfter value
    return { b with createdAfter := lower }
  else do
    let upper ← foldUpper b.createdBefore value
    return { b with createdBefore := upper }

def foldChild (mode : OnUnsupported) (s : Compiled) (child : Ast) : Except CompileError Compiled :=
  match consumableDateClause child with
  | none => do
    rejectIfRaise mode child
    return s
  | some (key,op,value) => do
    let bound ← foldBound op value s.predicate
    return ⟨bound, if key ∈ s.consumedKeys then s.consumedKeys else s.consumedKeys++[key]⟩

def compileChronicle (mode : OnUnsupported) : Ast → Except CompileError Compiled
  | .node .and children => children.foldlM (foldChild mode) unbounded
  | ast => do
    rejectIfRaise mode ast
    return unbounded

def ChronicleDateBound.Holds (b : ChronicleDateBound) (t : ℤ) : Prop :=
  (∀ d ∈ b.createdAfter, d.micros ≤ t) ∧ ∀ d ∈ b.createdBefore, t ≤ d.micros

def Within (op : Op) (value : DateTime) (t : ℤ) : Prop :=
  if op = .eq then value.micros = t
  else if lowerOps op then value.micros ≤ t
  else t ≤ value.micros

def folded : Ast → List (PyStr × Op × DateTime)
  | .node .and children => children.filterMap consumableDateClause
  | _ => []

/-- Where Python compares two datetimes, it compares their instants. -/
theorem pyCompare_micros {op : Op} {d e : DateTime} {b : Bool}
    (h : pyCompare op (.datetime d) (.datetime e) = some b) :
    op.holds (decide (d.micros < e.micros)) (decide (d.micros = e.micros))
      (decide (e.micros < d.micros)) = some b := by
  have hinstant : ∀ {x : DateTime} {o : Offset}, x.offset = some o → x.instant o = x.micros := by
    intro x o hx
    simp [DateTime.instant, DateTime.micros, hx]
  have hmicros : d.offset = e.offset →
      (d.micros < e.micros ↔ d.clock.fields < e.clock.fields) ∧
      (d.micros = e.micros ↔ d.clock = e.clock) ∧
      (e.micros < d.micros ↔ e.clock.fields < d.clock.fields) := by
    intro ho
    have hclock : d.clock.civil.toMicros = e.clock.civil.toMicros ↔ d.clock = e.clock :=
      ⟨micros_inj, fun h => by rw [h]⟩
    simp only [DateTime.micros, ho, fields_lt_iff, ← hclock, sub_lt_sub_iff_right, sub_left_inj,
      and_self]
  simp only [pyCompare] at h
  split_ifs at h with ho
  · obtain ⟨hlt, heq, hgt⟩ := hmicros ho
    simp only [hlt, heq, hgt]
    exact h
  · rcases hd : d.offset with _ | o
    · simp [hd] at h
    · rcases he : e.offset with _ | p
      · simp [hd, he] at h
      · simp only [hd, he, hinstant hd, hinstant he] at h
        exact h

theorem maxLower_spec {current : Option DateTime} {candidate d : DateTime}
    (h : maxLower current candidate = .ok d) :
    (d = candidate ∨ current = some d) ∧
      ∀ t, d.micros ≤ t ↔ (∀ c ∈ current, c.micros ≤ t) ∧ candidate.micros ≤ t := by
  unfold maxLower at h
  cases current with
  | none =>
    cases h
    exact ⟨.inl rfl, fun t => by simp⟩
  | some c =>
    simp only at h
    split at h
    · rename_i later hlater
      have hgt := pyCompare_micros hlater
      simp only [Op.holds, Option.some.injEq] at hgt
      cases h
      subst hgt
      split_ifs with hlt
      · rw [decide_eq_true_eq] at hlt
        exact ⟨.inl rfl, fun t => by simp; omega⟩
      · rw [decide_eq_true_eq] at hlt
        exact ⟨.inr rfl, fun t => by simp; omega⟩
    · cases h

theorem minUpper_spec {current : Option DateTime} {candidate d : DateTime}
    (h : minUpper current candidate = .ok d) :
    (d = candidate ∨ current = some d) ∧
      ∀ t, t ≤ d.micros ↔ (∀ c ∈ current, t ≤ c.micros) ∧ t ≤ candidate.micros := by
  unfold minUpper at h
  cases current with
  | none =>
    cases h
    exact ⟨.inl rfl, fun t => by simp⟩
  | some c =>
    simp only at h
    split at h
    · rename_i earlier hearlier
      have hlt := pyCompare_micros hearlier
      simp only [Op.holds, Option.some.injEq] at hlt
      cases h
      subst hlt
      split_ifs with hlt
      · rw [decide_eq_true_eq] at hlt
        exact ⟨.inl rfl, fun t => by simp; omega⟩
      · rw [decide_eq_true_eq] at hlt
        exact ⟨.inr rfl, fun t => by simp; omega⟩
    · cases h

def ChronicleDateBound.dates (b : ChronicleDateBound) : List DateTime :=
  b.createdAfter.toList++b.createdBefore.toList

/-- Folding a comparison narrows the window by it, boundary included. -/
theorem foldBound_spec {op : Op} {value : DateTime} {b b' : ChronicleDateBound}
    (h : foldBound op value b = .ok b') :
    (∀ d ∈ b'.dates, d = value ∨ d ∈ b.dates) ∧
      ∀ t, b'.Holds t ↔ b.Holds t ∧ Within op value t := by
  have hlower : ∀ {x : Option DateTime}, foldLower b.createdAfter value = .ok x →
      ∃ d, x = some d ∧ (d = value ∨ b.createdAfter = some d) ∧
        ∀ t, d.micros ≤ t ↔ (∀ c ∈ b.createdAfter, c.micros ≤ t) ∧ value.micros ≤ t := by
    intro x hx
    cases hm : maxLower b.createdAfter value with
    | error e => rw [foldLower, hm] at hx; cases hx
    | ok d =>
      rw [foldLower, hm] at hx
      cases hx
      exact ⟨d, rfl, maxLower_spec hm⟩
  have hupper : ∀ {x : Option DateTime}, foldUpper b.createdBefore value = .ok x →
      ∃ d, x = some d ∧ (d = value ∨ b.createdBefore = some d) ∧
        ∀ t, t ≤ d.micros ↔ (∀ c ∈ b.createdBefore, t ≤ c.micros) ∧ t ≤ value.micros := by
    intro x hx
    cases hm : minUpper b.createdBefore value with
    | error e => rw [foldUpper, hm] at hx; cases hx
    | ok d =>
      rw [foldUpper, hm] at hx
      cases hx
      exact ⟨d, rfl, minUpper_spec hm⟩
  unfold foldBound at h
  split_ifs at h with heq hlow
  · cases hl : foldLower b.createdAfter value with
    | error e => rw [hl] at h; cases h
    | ok x =>
      cases hu : foldUpper b.createdBefore value with
      | error e => rw [hl, hu] at h; cases h
      | ok y =>
        rw [hl, hu] at h
        cases h
        obtain ⟨d, rfl, hd, hdt⟩ := hlower hl
        obtain ⟨e, rfl, he, het⟩ := hupper hu
        refine ⟨?_, fun t => ?_⟩
        · simp only [ChronicleDateBound.dates, Option.toList_some]
          grind
        · simp only [ChronicleDateBound.Holds, Within, if_pos heq, Option.mem_some,
            forall_eq', hdt t, het t]
          grind
  · cases hl : foldLower b.createdAfter value with
    | error e => rw [hl] at h; cases h
    | ok x =>
      rw [hl] at h
      cases h
      obtain ⟨d, rfl, hd, hdt⟩ := hlower hl
      refine ⟨?_, fun t => ?_⟩
      · simp only [ChronicleDateBound.dates, Option.toList_some]
        grind
      · simp only [ChronicleDateBound.Holds, Within, if_neg heq, if_pos hlow, Option.mem_some,
          forall_eq', hdt t]
        tauto
  · cases hu : foldUpper b.createdBefore value with
    | error e => rw [hu] at h; cases h
    | ok y =>
      rw [hu] at h
      cases h
      obtain ⟨e, rfl, he, het⟩ := hupper hu
      refine ⟨?_, fun t => ?_⟩
      · simp only [ChronicleDateBound.dates, Option.toList_some]
        grind
      · simp only [ChronicleDateBound.Holds, Within, if_neg heq, if_neg hlow, Option.mem_some,
          forall_eq', het t]
        tauto

theorem consumable_key {node : Ast} {p : PyStr × Op × DateTime}
    (h : consumableDateClause node = some p) : ∃ c : FilterClause, node = .leaf c ∧
      c.path = [pushdownKey] ∧ (c.op = .eq ∨ lowerOps c.op ∨ upperOps c.op) ∧
      asDatetime c.operand = some p.2.2 ∧ p.1 = pushdownKey ∧ p.2.1 = c.op := by
  cases node with
  | node op fs => cases h
  | leaf c =>
    simp only [consumableDateClause] at h
    split_ifs at h with hc
    obtain ⟨d, hd, rfl⟩ := Option.map_eq_some_iff.mp h
    exact ⟨c, rfl, hc.1, hc.2, hd, rfl, rfl⟩

theorem foldChild_skip {mode : OnUnsupported} {s s' : Compiled} {child : Ast}
    (hc : consumableDateClause child = none) (h : foldChild mode s child = .ok s') : s' = s := by
  unfold foldChild at h
  rw [hc] at h
  simp only [rejectIfRaise] at h
  split_ifs at h
  · cases h
  · cases h
    rfl

theorem foldChild_bound {mode : OnUnsupported} {s s' : Compiled} {child : Ast} {key : PyStr}
    {op : Op} {value : DateTime} (hc : consumableDateClause child = some (key,op,value))
    (h : foldChild mode s child = .ok s') :
    foldBound op value s.predicate = .ok s'.predicate ∧ s'.consumedKeys =
      if key ∈ s.consumedKeys then s.consumedKeys else s.consumedKeys++[key] := by
  unfold foldChild at h
  rw [hc] at h
  cases hb : foldBound op value s.predicate with
  | error e => simp only [hb] at h; cases h
  | ok b =>
    simp only [hb] at h
    cases h
    exact ⟨rfl, rfl⟩

/-- What folding the children of a conjunction does to the window. -/
theorem fold_children_spec {mode : OnUnsupported} {children : List Ast} {s s' : Compiled}
    (h : children.foldlM (foldChild mode) s = .ok s') :
    (∀ d ∈ s'.predicate.dates,
      d ∈ s.predicate.dates ∨ ∃ p ∈ children.filterMap consumableDateClause, p.2.2 = d) ∧
    (∀ t, s'.predicate.Holds t ↔ s.predicate.Holds t ∧
      ∀ p ∈ children.filterMap consumableDateClause, Within p.2.1 p.2.2 t) ∧
    ∀ key, key ∈ s'.consumedKeys ↔
      key ∈ s.consumedKeys ∨ key ∈ (children.filterMap consumableDateClause).map Prod.fst := by
  induction children generalizing s with
  | nil =>
    cases h
    simp
  | cons child children ih =>
    rw [List.foldlM_cons] at h
    cases hs : foldChild mode s child with
    | error e => rw [hs] at h; cases h
    | ok s₁ =>
      rw [hs] at h
      obtain ⟨hdates, hholds, hkeys⟩ := ih h
      cases hc : consumableDateClause child with
      | none =>
        rw [foldChild_skip hc hs] at hdates hholds hkeys
        rw [List.filterMap_cons_none hc]
        exact ⟨hdates, hholds, hkeys⟩
      | some p =>
        obtain ⟨key, op, value⟩ := p
        obtain ⟨hbound, hkey⟩ := foldChild_bound hc hs
        obtain ⟨hd, hw⟩ := foldBound_spec hbound
        rw [List.filterMap_cons_some hc]
        refine ⟨fun d hds => ?_, fun t => ?_, fun k => ?_⟩
        · rcases hdates d hds with hin | ⟨p, hp, hpd⟩
          · rcases hd d hin with rfl | hin
            · exact .inr ⟨_, List.mem_cons_self, rfl⟩
            · exact .inl hin
          · exact .inr ⟨p, List.mem_cons_of_mem _ hp, hpd⟩
        · rw [hholds, hw, List.forall_mem_cons, and_assoc]
        · rw [hkeys, hkey, List.map_cons, List.mem_cons]
          split_ifs with hin
          · constructor
            · rintro (hk | hk)
              · exact .inl hk
              · exact .inr (.inr hk)
            · rintro (hk | rfl | hk)
              · exact .inl hk
              · exact .inl hin
              · exact .inr hk
          · rw [List.mem_append, List.mem_singleton, or_assoc]

/-- The window is the conjunction of the folded clauses, boundaries included,
and the consumed keys are theirs. -/
theorem compileChronicle_spec {mode : OnUnsupported} {ast : Ast} {s : Compiled}
    (h : compileChronicle mode ast = .ok s) :
    (∀ d ∈ s.predicate.dates, ∃ p ∈ folded ast, p.2.2 = d) ∧
    (∀ t, s.predicate.Holds t ↔ ∀ p ∈ folded ast, Within p.2.1 p.2.2 t) ∧
    ∀ key, key ∈ s.consumedKeys ↔ key = pushdownKey ∧ folded ast ≠ [] := by
  have hnone : ∀ {a : Ast}, (∀ fs, a ≠ .node .and fs) → compileChronicle mode a = .ok s →
      s = unbounded ∧ folded a = [] := by
    intro a ha hs
    have hrej : (do rejectIfRaise mode a; return unbounded) = Except.ok s := by
      rcases a with c | ⟨op, fs⟩
      · exact hs
      · cases op with
        | and => exact absurd rfl (ha fs)
        | or | not => exact hs
    have hfold : folded a = [] := by
      rcases a with c | ⟨op, fs⟩
      · rfl
      · cases op with
        | and => exact absurd rfl (ha fs)
        | or | not => rfl
    simp only [rejectIfRaise] at hrej
    split_ifs at hrej
    · cases hrej
    · cases hrej
      exact ⟨rfl, hfold⟩
  by_cases ha : ∃ fs, ast = .node .and fs
  · obtain ⟨fs, rfl⟩ := ha
    obtain ⟨hdates, hholds, hkeys⟩ := fold_children_spec h
    refine ⟨fun d hd => (hdates d hd).resolve_left (by simp [unbounded, ChronicleDateBound.dates]),
      fun t => (hholds t).trans (and_iff_right (by simp [unbounded, ChronicleDateBound.Holds])),
      fun key => (hkeys key).trans ?_⟩
    have hall : ∀ p ∈ fs.filterMap consumableDateClause, p.1 = pushdownKey := by
      intro p hp
      obtain ⟨node, _, hnode⟩ := List.mem_filterMap.mp hp
      obtain ⟨c, _, _, _, _, hkey, _⟩ := consumable_key hnode
      exact hkey
    simp only [unbounded, List.not_mem_nil, false_or, folded, List.mem_map]
    constructor
    · rintro ⟨p, hp, rfl⟩
      exact ⟨hall p hp, List.ne_nil_of_mem hp⟩
    · rintro ⟨rfl, hne⟩
      obtain ⟨p, hp⟩ := List.exists_mem_of_ne_nil _ hne
      exact ⟨p, hp, hall p hp⟩
  · rw [not_exists] at ha
    obtain ⟨rfl, hf⟩ := hnone ha h
    rw [hf]
    simp [unbounded, ChronicleDateBound.dates, ChronicleDateBound.Holds]

end Uru.Filter.Chronicle
