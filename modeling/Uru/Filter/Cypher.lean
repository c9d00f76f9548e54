import Uru.Lib.Emit
import Uru.Lib.PushDown
import Uru.Filter.Columns

/-!
# The Cypher push-down

`compile_cypher` in the split mode that the engines use. It pushes system keys
only: a leaf on any other path becomes the constant `true`, a conjunction is
pushed child by child, and a disjunction or a negation is pushed whole or not
at all. Operands are bound to numbered parameters, dates among them as their
ISO texts. A property of a chunk node is a text or missing, and Cypher reads
a comparison with a missing property as unknown.
-/

set_option autoImplicit false

namespace Uru.Filter

open Uru.Lib

inductive CypherExpr
  | const (b : Bool)
  | isNull (key : SystemKey)
  | isNotNull (key : SystemKey)
  | compare (key : SystemKey) (op : Op) (param : ℕ)
  | isIn (key : SystemKey) (param : ℕ)
  | coalesceFalse (e : CypherExpr)
  | not (e : CypherExpr)
  | and (es : List CypherExpr)
  | or (es : List CypherExpr)

/-- A comparison of a text property with a parameter. Values of different
types are unequal, and in no order. -/
def cypherCompare (op : Op) : Option PyStr → Val → Option Bool
  | none, _ => none
  | _, .null => none
  | some s, .str t =>
    match op with
    | .eq => some (decide (s = t))
    | .ne => some (decide (s ≠ t))
    | op => op.holds (s < t) (s = t) (t < s)
  | some _, _ =>
    match op with
    | .eq => some false
    | .ne => some true
    | _ => none

def cypherIn (p : Option PyStr) : Val → Option Bool
  | .list xs => Formula.kleeneOr (xs.map (cypherCompare .eq p))
  | _ => none

def CypherExpr.eval (node : SystemKey → Option PyStr) (params : List Val) :
    CypherExpr → Option Bool
  | .const b => some b
  | .isNull key => some (node key).isNone
  | .isNotNull key => some (node key).isSome
  | .compare key op i => (params[i]?).bind (cypherCompare op (node key))
  | .isIn key i => (params[i]?).bind (cypherIn (node key))
  | .coalesceFalse e => some ((e.eval node params).getD false)
  | .not e => (e.eval node params).map (fun b => !b)
  | .and es => Formula.kleeneAnd (evalAll es)
  | .or es => Formula.kleeneOr (evalAll es)
where
  evalAll : List CypherExpr → List (Option Bool)
    | [] => []
    | e::es => e.eval node params::evalAll es

theorem CypherExpr.evalAll_eq (node : SystemKey → Option PyStr) (params : List Val)
    (es : List CypherExpr) :
    CypherExpr.eval.evalAll node params es = es.map (CypherExpr.eval node params) := by
  induction es with
  | nil => rfl
  | cons e es ih => simp [CypherExpr.eval.evalAll, ih]

def Atom.systemValue : Atom → Val
  | .date t => .str t.isoformat
  | .val (.datetime d) => .str d.isoformat
  | .val v => v

def Operand.systemValue : Operand → Val
  | .atom a => a.systemValue
  | .tuple xs => .list (xs.map Atom.systemValue)

def Operand.elements : Operand → List Atom
  | .atom _ => []
  | .tuple xs => xs

def systemPath : List PyStr → Option SystemKey
  | [s] => SystemKey.ofName s
  | _ => none

namespace Cypher

def compileSystemClause (key : SystemKey) (op : Op) (operand : Operand) : Emit Val CypherExpr :=
  match op, operand with
  | .exists_, x => pure (.const x.truthy)
  | .in_, x =>
    if x.elements.isEmpty then pure (.const false)
    else do
      let vs ← Emit.param (.list (x.elements.map Atom.systemValue))
      return .coalesceFalse (.isIn key vs)
  | .nin, x =>
    if x.elements.isEmpty then pure (.const true)
    else do
      let vs ← Emit.param (.list (x.elements.map Atom.systemValue))
      return .or [.isNull key,.not (.isIn key vs)]
  | .ne, .atom (.val .null) => pure (.isNotNull key)
  | _, .atom (.val .null) => pure (.isNull key)
  | .ne, x => do
    let v ← Emit.param x.systemValue
    return .or [.isNull key,.compare key .ne v]
  | op, x => do
    let v ← Emit.param x.systemValue
    return .coalesceFalse (.compare key op v)

def pushable (c : FilterClause) : Bool := (systemPath c.path).isSome

def compileClause (c : FilterClause) : Emit Val (CompiledFilter CypherExpr) :=
  match systemPath c.path with
  | some key => do
    let e ← compileSystemClause key c.op c.operand
    return ⟨e, [c.key]⟩
  | none => pure ⟨.const true, []⟩

def deferred : CompiledFilter CypherExpr := ⟨.const true, []⟩

def compileNode : Ast → Emit Val (CompiledFilter CypherExpr)
  | .leaf c => compileClause c
  | .node .and [] => pure ⟨.const true, []⟩
  | .node .and fs => do
    let cs ← nodes fs
    return ⟨.and (cs.map (fun c => c.predicate)), cs.flatMap (fun c => c.consumedKeys)⟩
  | .node .or [] => pure ⟨.const false, []⟩
  | .node .or fs =>
    if Formula.consumable pushable (.node .or fs) then do
      let cs ← nodes fs
      return ⟨.or (cs.map (fun c => c.predicate)), cs.flatMap (fun c => c.consumedKeys)⟩
    else pure deferred
  | .node .not [] => pure deferred
  | .node .not (f::fs) =>
    if Formula.consumable pushable (.node .not (f::fs)) then do
      let c ← compileNode f
      return ⟨.not c.predicate, c.consumedKeys⟩
    else pure deferred
where
  nodes : List Ast → Emit Val (List (CompiledFilter CypherExpr))
    | [] => pure []
    | f::fs => do
      let c ← compileNode f
      let cs ← nodes fs
      return c::cs

def compile (a : Ast) : CompiledFilter CypherExpr × List Val := compileNode a []

def accepts (node : SystemKey → Option PyStr) (a : Ast) : Option Bool :=
  (compile a).1.predicate.eval node (compile a).2

/-- A piece of the query reads as `truth` on the node, and consumes `keys`. -/
def Reads (node : SystemKey → Option PyStr) (truth : Option Bool) (keys : List PyStr)
    (env : List Val) (c : CompiledFilter CypherExpr) : Prop :=
  c.predicate.eval node env = truth ∧ c.consumedKeys = keys

section Node

variable {node : SystemKey → Option PyStr} {v : FilterClause → Option Bool}

def SplitReads (node : SystemKey → Option PyStr) (v : FilterClause → Option Bool) (f : Ast) :
    List Val → CompiledFilter CypherExpr → Prop :=
  Reads node ((f.split pushable).truth v) ((f.split pushable).leaves.map FilterClause.key)

theorem nodes_sat (fs : List Ast) (ih : ∀ f ∈ fs, (compileNode f).Sat (SplitReads node v f)) :
    (compileNode.nodes fs).Sat (fun env cs =>
      cs.map (fun c => c.predicate.eval node env) = fs.map (fun f => (f.split pushable).truth v) ∧
        cs.flatMap (fun c => c.consumedKeys) =
          fs.flatMap (fun f => (f.split pushable).leaves.map FilterClause.key)) := by
  induction fs with
  | nil => exact Emit.sat_pure (fun _ => ⟨rfl, rfl⟩)
  | cons f fs ihf =>
    refine Emit.sat_bind (ih f (by simp)) (fun c => ?_)
    refine Emit.sat_map (ihf (fun g hg => ih g (by simp [hg]))) (fun env cs hcs hc => ?_)
    simp [hc.1, hc.2, hcs.1, hcs.2]

theorem nodes_reads {op : Connective} {fs : List Ast} {env : List Val}
    {cs : List (CompiledFilter CypherExpr)}
    (h : cs.map (fun c => c.predicate.eval node env) = fs.map (fun f => (f.split pushable).truth v) ∧
      cs.flatMap (fun c => c.consumedKeys) =
        fs.flatMap (fun f => (f.split pushable).leaves.map FilterClause.key))
    (e : CypherExpr)
    (he : e.eval node env = Formula.kleene op (cs.map (fun c => c.predicate.eval node env))) :
    Reads node ((Formula.node op (fs.map (Formula.split pushable))).truth v)
      ((Formula.node op (fs.map (Formula.split pushable))).leaves.map FilterClause.key) env
      ⟨e, cs.flatMap (fun c => c.consumedKeys)⟩ := by
  refine ⟨?_, ?_⟩
  · rw [he, h.1, Formula.truth_node, List.map_map]
    rfl
  · rw [h.2, Formula.leaves_node, List.flatMap_map, List.map_flatMap]

theorem deferred_reads (env : List Val) :
    Reads node ((Formula.everything : Ast).truth v)
      ((Formula.everything : Ast).leaves.map FilterClause.key) env deferred := ⟨rfl, rfl⟩

/-- The compiler emits the split of the tree, when each pushed leaf reads as
its clause says. -/
theorem compileNode_sat (a : Ast) (hu : a.UnaryNots)
    (h : ∀ c ∈ a.leaves, pushable c = true → (compileClause c).Sat (Reads node (v c) [c.key])) :
    (compileNode a).Sat (SplitReads node v a) := by
  induction a using Formula.ind with
  | hleaf c =>
    unfold SplitReads
    by_cases hp : pushable c = true
    · rw [Formula.split, if_pos hp]
      exact h c (by simp) hp
    · rw [Formula.split, if_neg hp, compileNode, compileClause]
      rw [pushable, Bool.not_eq_true, Option.isSome_eq_false_iff, Option.isNone_iff_eq_none] at hp
      rw [hp]
      exact Emit.sat_pure deferred_reads
  | hnode op fs ih =>
    have hn := (Formula.atNodes_node _ _ _).mp hu
    have hfs : ∀ f ∈ fs, (compileNode f).Sat (SplitReads node v f) := by
      refine fun f hf => ih f hf (hn.2 f hf) (fun c hc => h c ?_)
      rw [Formula.leaves_node]
      exact List.mem_flatMap.mpr ⟨f, hf, hc⟩
    have hkeep : (Formula.node op fs).consumable pushable = true →
        fs.map (Formula.split pushable) = fs := by
      intro hc
      conv_rhs => rw [← List.map_id fs]
      exact List.map_congr_left (fun f hf =>
        Formula.split_of_consumable pushable f ((Formula.consumable_node pushable op fs).mp hc f hf))
    unfold SplitReads
    cases op with
    | and =>
      rw [Formula.split_and]
      rcases fs with _ | ⟨f, fs⟩
      · exact Emit.sat_pure deferred_reads
      · rw [compileNode]
        · refine Emit.sat_map (nodes_sat (f::fs) hfs) (fun env cs hcs => nodes_reads hcs _ ?_)
          rw [CypherExpr.eval, CypherExpr.evalAll_eq, List.map_map]
          rfl
        · intro he
          cases he
    | or =>
      rw [Formula.split_of_ne pushable (by decide)]
      rcases fs with _ | ⟨f, fs⟩
      · exact Emit.sat_pure (fun _ => ⟨rfl, rfl⟩)
      · rw [compileNode]
        · by_cases hc : (Formula.node .or (f::fs)).consumable pushable = true
          · rw [if_pos hc, if_pos hc]
            refine Emit.sat_map (nodes_sat (f::fs) hfs) (fun env cs hcs => ?_)
            rw [← hkeep hc]
            refine nodes_reads hcs _ ?_
            rw [CypherExpr.eval, CypherExpr.evalAll_eq, List.map_map]
            rfl
          · rw [if_neg hc, if_neg hc]
            exact Emit.sat_pure deferred_reads
        · intro he
          cases he
    | not =>
      rw [Formula.split_of_ne pushable (by decide)]
      obtain ⟨f, rfl⟩ := List.length_eq_one_iff.mp (hn.1 rfl)
      rw [compileNode]
      by_cases hc : (Formula.node .not [f]).consumable pushable = true
      · rw [if_pos hc, if_pos hc]
        have hf : f.split pushable = f :=
          Formula.split_of_consumable pushable f
            ((Formula.consumable_node pushable .not [f]).mp hc f (by simp))
        refine Emit.sat_map (hfs f (by simp)) (fun env c hr => ?_)
        rw [SplitReads, hf] at hr
        refine ⟨?_, ?_⟩
        · rw [CypherExpr.eval, hr.1]
          simp [Formula.kleene]
        · rw [hr.2]
          simp
      · rw [if_neg hc, if_neg hc]
        exact Emit.sat_pure deferred_reads

end Node

section Leaf

variable {X : Type} (C : Coding X PyStr) {node : SystemKey → Option PyStr} {key : SystemKey}
  {x : Option X}

theorem operands_isEmpty (ys : List X) : (C.operands ys).elements.isEmpty = ys.isEmpty := by
  cases ys <;> rfl

theorem compare_eq (hb : ∀ y, (Atom.val (C.val y)).systemValue = .str (C.key y)) (op : Op)
    (x y : X) (h : op ∈ [Op.eq,.gt,.gte,.lt,.lte]) :
    cypherCompare op (some (C.key x)) (C.operand y).systemValue =
      some (keyTest op (C.key x) (C.key y)) := by
  have hv : (C.operand y).systemValue = .str (C.key y) := hb y
  rw [hv]
  cases op with
  | eq | gt | gte | lt | lte => rfl
  | _ => exact absurd h (by decide)

theorem in_eq (hb : ∀ y, (Atom.val (C.val y)).systemValue = .str (C.key y)) (x : X) (ys : List X) :
    cypherIn (some (C.key x)) (.list ((C.operands ys).elements.map Atom.systemValue)) =
      some (ys.any (fun y => keyTest .eq (C.key x) (C.key y))) := by
  have hmap : ((C.operands ys).elements.map Atom.systemValue).map
      (cypherCompare .eq (some (C.key x))) =
      (ys.map (fun y => keyTest .eq (C.key x) (C.key y))).map some := by
    rw [Coding.operands, Operand.elements, List.map_map, List.map_map, List.map_map]
    exact List.map_congr_left (fun y _ => by
      simp only [Function.comp, hb]
      rfl)
  have h := Formula.kleene_total .or (ys.map (fun y => keyTest .eq (C.key x) (C.key y)))
  rw [cypherIn, hmap]
  rw [Formula.kleene, Formula.combine, Formula.anyOf_total, List.any_map] at h
  exact h

/-- A scalar operand is no null, so that it is bound and compared. -/
theorem compile_scalar (y : X) (op : Op) :
    compileSystemClause key op (C.operand y) = match op with
      | .exists_ => pure (.const (C.operand y).truthy)
      | .in_ => pure (.const false)
      | .nin => pure (.const true)
      | .ne => do
        let v ← Emit.param (C.operand y).systemValue
        return .or [.isNull key,.compare key .ne v]
      | op => do
        let v ← Emit.param (C.operand y).systemValue
        return .coalesceFalse (.compare key op v) := by
  have hn := val_ne_null C y
  unfold Coding.operand Operand.val
  generalize C.val y = v at hn
  cases v with
  | null => exact absurd rfl hn
  | _ => cases op <;> rfl

theorem in_missing (vs : List Val) : (cypherIn none (.list vs)).getD false = false := by
  have hmap : vs.map (cypherCompare .eq none) = vs.map (fun _ => none) :=
    List.map_congr_left (fun _ _ => rfl)
  rw [cypherIn, hmap, Formula.kleeneOr, if_neg (by simp)]
  split_ifs <;> rfl

theorem or_missing (y : Option Bool) : Formula.kleeneOr [some true,y] = some true :=
  if_pos (by simp)

theorem or_present (b : Bool) : Formula.kleeneOr [some false,some b] = some b := by
  cases b <;> rfl

/-- On a node that keeps the coded value of the record, a pushed clause reads
as the oracle's. -/
theorem compileSystemClause_sat (hb : ∀ y, (Atom.val (C.val y)).systemValue = .str (C.key y))
    (hx : node key = x.map C.key) {op : Op} {operand : Operand} (h : C.Typed op operand) :
    (compileSystemClause key op operand).Sat (fun env e =>
      e.eval node env = Filter.compileSystemClause (C.stored x) op operand) := by
  cases h with
  | isIn ys =>
    rw [oracle_in, compileSystemClause, operands_isEmpty]
    by_cases hys : ys.isEmpty = true
    · rw [if_pos hys, List.isEmpty_iff.mp hys]
      refine Emit.sat_pure (fun _ => ?_)
      cases x <;> rfl
    · rw [if_neg hys]
      refine Emit.sat_map (Emit.sat_param _) (fun env i hi => ?_)
      rw [CypherExpr.eval, CypherExpr.eval, hi, Option.bind_some, hx]
      cases x with
      | none => exact congrArg some (in_missing _)
      | some x =>
        rw [Option.map_some, in_eq C hb]
        rfl
  | nin ys =>
    rw [oracle_nin, compileSystemClause, operands_isEmpty]
    by_cases hys : ys.isEmpty = true
    · rw [if_pos hys, List.isEmpty_iff.mp hys]
      refine Emit.sat_pure (fun _ => ?_)
      cases x <;> rfl
    · rw [if_neg hys]
      refine Emit.sat_map (Emit.sat_param _) (fun env i hi => ?_)
      rw [CypherExpr.eval, CypherExpr.evalAll_eq]
      simp only [List.map_cons, List.map_nil, CypherExpr.eval, hi, Option.bind_some, hx]
      cases x with
      | none => exact or_missing _
      | some x =>
        rw [Option.map_some, in_eq C hb]
        exact or_present _
  | exists_ y => exact Emit.sat_pure (fun _ => rfl)
  | array ys =>
    refine Emit.sat_map (Emit.sat_param _) (fun env i hi => ?_)
    rw [oracle_array, CypherExpr.eval, CypherExpr.eval, hi, Option.bind_some, hx]
    cases x <;> rfl
  | null op hop =>
    rw [oracle_null C x op hop]
    have hnull : (Operand.val .null) = .atom (.val .null) := rfl
    rw [hnull]
    cases op with
    | eq | ne | gt | gte | lt | lte =>
      refine Emit.sat_pure (fun _ => ?_)
      rw [CypherExpr.eval, hx]
      cases x <;> rfl
    | _ => exact absurd hop (by decide)
  | scalar op y hop =>
    have hpos : ∀ op : Op, op ∈ [Op.eq,.gt,.gte,.lt,.lte] →
        (compileSystemClause key op (C.operand y) = do
          let v ← Emit.param (C.operand y).systemValue
          return .coalesceFalse (.compare key op v)) →
        Filter.compileSystemClause (C.stored x) op (C.operand y) =
          some (x.any (fun x => keyTest op (C.key x) (C.key y))) →
        (compileSystemClause key op (C.operand y)).Sat (fun env e =>
          e.eval node env = Filter.compileSystemClause (C.stored x) op (C.operand y)) := by
      intro op hop hc ho
      rw [hc, ho]
      refine Emit.sat_map (Emit.sat_param _) (fun env i hi => ?_)
      rw [CypherExpr.eval, CypherExpr.eval, hi, Option.bind_some, hx]
      cases x with
      | none => rfl
      | some x =>
        rw [Option.map_some, compare_eq C hb op x y hop]
        rfl
    cases op with
    | ne =>
      rw [oracle_ne, compile_scalar C y .ne]
      refine Emit.sat_map (Emit.sat_param _) (fun env i hi => ?_)
      rw [CypherExpr.eval, CypherExpr.evalAll_eq]
      simp only [List.map_cons, List.map_nil, CypherExpr.eval, hi, Option.bind_some, hx]
      cases x with
      | none => exact or_missing _
      | some x =>
        have hv : (C.operand y).systemValue = .str (C.key y) := hb y
        rw [hv]
        exact (or_present _).trans (congrArg some (decide_not))
    | eq => exact hpos .eq (by decide) (compile_scalar C y .eq) (oracle_eq C x y)
    | gt => exact hpos .gt (by decide) (compile_scalar C y .gt) (oracle_range C x y .gt (by decide))
    | gte => exact hpos .gte (by decide) (compile_scalar C y .gte) (oracle_range C x y .gte (by decide))
    | lt => exact hpos .lt (by decide) (compile_scalar C y .lt) (oracle_range C x y .lt (by decide))
    | lte => exact hpos .lte (by decide) (compile_scalar C y .lte) (oracle_range C x y .lte (by decide))
    | _ => exact absurd hop (by decide)

end Leaf

end Cypher

structure TemporalChunk where
  dates : DateKey → Option DateTime
  texts : StringKey → Option PyStr
  metadata : Dict

def TemporalChunk.record (c : TemporalChunk) : Record where
  system
    | .date k => ((c.dates k).map Val.datetime).getD .null
    | .text k => ((c.texts k).map Val.str).getD .null
  metadata := c.metadata

/-- The properties that `create_chunk_node` writes at the time `now`. -/
def chunkNode (now : UtcTime) (c : TemporalChunk) : SystemKey → Option PyStr
  | .date .createdAt => some (((c.dates .createdAt).map DateTime.isoformat).getD now.isoformat)
  | .date k => (c.dates k).map DateTime.isoformat
  | .text k => c.texts k

structure TemporalChunk.InUtc (c : TemporalChunk) : Prop where
  utc : ∀ k d, c.dates k = some d → ∃ t : UtcTime, d = t.aware
  created : c.dates .createdAt ≠ none

theorem TemporalChunk.InUtc.coded {c : TemporalChunk} (h : c.InUtc) (now : UtcTime) (k : DateKey) :
    ∃ x : Option UtcTime, chunkNode now c (.date k) = x.map isoCoding.key ∧
      c.record.system (.date k) = isoCoding.stored x := by
  cases hd : c.dates k with
  | none =>
    refine ⟨none, ?_, ?_⟩
    · cases k with
      | createdAt => exact absurd hd h.created
      | occurredAt | sourceTimestamp => simp [chunkNode, hd]
    · simp [TemporalChunk.record, hd, Coding.stored]
  | some d =>
    obtain ⟨t, rfl⟩ := h.utc k d hd
    refine ⟨some t, ?_, ?_⟩
    · cases k with
      | createdAt | occurredAt | sourceTimestamp =>
        simp [chunkNode, hd, isoCoding, UtcTime.isoformat]
    · simp [TemporalChunk.record, hd, Coding.stored, isoCoding, UtcTime.val]

/-- A document whose folded keys are metadata paths, as the folding of the
model makes them. -/
def metadataPaths : Content :=
  ⟨fun _ => True, fun key => ∃ s, key = py "metadata." ++s, fun _ => True⟩

theorem metadataPaths_hereditary : metadataPaths.Hereditary :=
  ⟨fun _ _ _ _ => trivial, fun _ _ _ _ => trivial⟩

theorem splitDots_ne_nil (s : PyStr) : splitDots s ≠ [] := by
  cases s with
  | nil => exact List.cons_ne_nil _ _
  | cons c s =>
    unfold splitDots
    split_ifs
    · exact List.cons_ne_nil _ _
    · split <;> exact List.cons_ne_nil _ _

theorem splitDots_metadata (s : PyStr) :
    splitDots (py "metadata." ++s) = py "metadata" ::splitDots s := by
  have hstep : ∀ (c : CodePoint) (t seg : PyStr) (segs : List PyStr), c ≠ point '.' →
      splitDots t = seg::segs → splitDots (c::t) = (c::seg)::segs := by
    intro c t seg segs hc ht
    rw [splitDots, if_neg hc, ht]
  have hdot : splitDots (point '.' ::s) = []::splitDots s := if_pos rfl
  exact hstep _ _ _ _ (by decide) (hstep _ _ _ _ (by decide) (hstep _ _ _ _ (by decide)
    (hstep _ _ _ _ (by decide) (hstep _ _ _ _ (by decide) (hstep _ _ _ _ (by decide)
      (hstep _ _ _ _ (by decide) (hstep _ _ _ _ (by decide) hdot)))))))

theorem systemPath_name (k : SystemKey) : systemPath [k.name] = some k := by
  rcases k with k | k <;> cases k <;> rfl

theorem systemPath_pathKind {path : List PyStr} {k : SystemKey} (h : systemPath path = some k) :
    pathKind path = .system k := by
  rcases path with _ | ⟨s, _ | ⟨t, path⟩⟩
  · cases h
  · simp only [systemPath] at h
    simp [pathKind, h]
  · cases h

theorem systemPath_metadata (s : PyStr) : systemPath (splitDots (py "metadata." ++s)) = none := by
  rw [splitDots_metadata]
  cases hs : splitDots s with
  | nil => exact absurd hs (splitDots_ne_nil s)
  | cons seg segs => rfl

namespace Cypher

/-- The fragment holds on every record that the filter accepts, and on no
other when every leaf is on a system key. -/
structure Sound (node : SystemKey → Option PyStr) (r : Record) (a : Ast) : Prop where
  superset : compilePython a r = some true → accepts node a = some true
  exact : (∀ c ∈ a.leaves, pushable c = true) →
    (accepts node a = some true ↔ compilePython a r = some true)

theorem clause_sat {chunk : TemporalChunk} (hu : chunk.InUtc) (now : UtcTime) {c : FilterClause}
    (he : Emitted metadataPaths c) (hp : pushable c = true) :
    (compileClause c).Sat (Reads (chunkNode now chunk) (Filter.compileClause c chunk.record) [c.key]) ∧
      ∃ b, Filter.compileClause c chunk.record = some b := by
  have key : ∀ {X : Type} (C : Coding X PyStr) (k : SystemKey) (x : Option X) (op : Op) (y : Operand),
      (∀ y, (Atom.val (C.val y)).systemValue = .str (C.key y)) →
      chunkNode now chunk k = x.map C.key → chunk.record.system k = C.stored x → C.Typed op y →
      (compileClause ⟨[k.name], op, y⟩).Sat (Reads (chunkNode now chunk)
        (Filter.compileClause ⟨[k.name], op, y⟩ chunk.record) [FilterClause.key ⟨[k.name], op, y⟩]) ∧
        ∃ b, Filter.compileClause ⟨[k.name], op, y⟩ chunk.record = some b := by
    intro X C k x op y hb hx hr ht
    have hsat := compileSystemClause_sat C hb hx ht
    have ho : Filter.compileClause ⟨[k.name], op, y⟩ chunk.record =
        Filter.compileSystemClause (C.stored x) op y := by
      rw [Filter.compileClause, systemPath_pathKind (systemPath_name k), ← hr]
    rw [ho, compileClause, systemPath_name k]
    refine ⟨Emit.sat_map hsat (fun env e h => ⟨h, rfl⟩), ?_⟩
    obtain ⟨b, hb⟩ := oracle_answers C x ht
    exact ⟨b, hb⟩
  cases he with
  | date k op y h =>
    obtain ⟨x, hx, hr⟩ := hu.coded now k
    exact key isoCoding (.date k) x op y (fun _ => rfl) hx hr (dateOperand_typed h)
  | text k op y h =>
    exact key textCoding (.text k) (chunk.texts k) op y (fun _ => rfl) (by simp [chunkNode, textCoding])
      rfl (stringOperand_typed h)
  | blob d h => cases hp
  | folded name op y hk h =>
    obtain ⟨s, rfl⟩ := hk
    rw [pushable, systemPath_metadata] at hp
    cases hp

/-- The compiled filter of an accepted document: its fragment reads as the
split of the tree, with the leaves read by the oracle. -/
theorem compile_reads {chunk : TemporalChunk} (hu : chunk.InUtc) (now : UtcTime) {a : Ast}
    (hb : Built metadataPaths a) :
    Reads (chunkNode now chunk)
      ((a.split pushable).truth (fun c => Filter.compileClause c chunk.record))
      ((a.split pushable).leaves.map FilterClause.key) (compile a).2 (compile a).1 :=
  (compileNode_sat a hb.1 (fun c hc hp => (clause_sat hu now (hb.2 c hc) hp).1)).closed

theorem sound_of_utc {chunk : TemporalChunk} (hu : chunk.InUtc) (now : UtcTime) {a : Ast}
    (hb : Built metadataPaths a) : Sound (chunkNode now chunk) chunk.record a := by
  have hreads := (compile_reads hu now hb).1
  have hleaf : ∀ c ∈ a.leaves, pushable c = true →
      Filter.compileClause c chunk.record = Filter.compileClause c chunk.record ∧
        ∃ b, Filter.compileClause c chunk.record = some b :=
    fun c hc hp => ⟨rfl, (clause_sat hu now (hb.2 c hc) hp).2⟩
  refine ⟨fun h => ?_, fun hall => ?_⟩
  · refine hreads.trans (Formula.split_accepts a hb.1 (fun c hc => ?_) h)
    obtain ⟨hc, hp⟩ := Formula.split_leaves pushable a c hc
    exact hleaf c hc hp
  · rw [accepts, hreads, Formula.split_exact a hb.1 ((Formula.consumable_iff pushable a).mpr hall)
      (fun c hc => hleaf c hc (hall c hc))]
    exact Iff.rfl

def dateFilter (k : DateKey) (spec : DateSpec) : RecallFilter :=
  .mk ⟨fun k' => if k' = k then some spec else none, fun _ => none⟩ none [] none none none none

theorem dateFilter_within (k : DateKey) (spec : DateSpec) :
    (dateFilter k spec).Within metadataPaths :=
  ⟨fun _ _ h => (nomatch h), fun _ h => (nomatch h), fun _ h => absurd h List.not_mem_nil, trivial,
    trivial, trivial, trivial⟩

def differsFrom (t : UtcTime) : DateSpec :=
  .ops (.plain ⟨none, some (some t), none, none, none, none, none, none⟩)

theorem dateFilter_parse (k : DateKey) (spec : DateSpec) (c : FilterClause)
    (h : spec.lower [(SystemKey.date k).name] = .ok [.leaf c]) :
    (dateFilter k spec).parseToAst = .ok (.node .and [.leaf c]) := by
  have hs : lowerSystem ⟨fun k' => if k' = k then some spec else none, fun _ => none⟩ SystemKey.all =
      .ok [.leaf c] := by
    cases k with
    | occurredAt | createdAt | sourceTimestamp =>
      simp [lowerSystem, SystemKey.all, DateKey.all, StringKey.all, lowerSystemKey, h]
      rfl
  rw [dateFilter, RecallFilter.parseToAst, hs]
  rfl

theorem accepts_single (node : SystemKey → Option PyStr) (k : DateKey) (t : UtcTime) :
    accepts node (.node .and [clause [(SystemKey.date k).name] .eq (.val .null)]) =
      Formula.kleeneAnd [some (node (.date k)).isNone] ∧
    accepts node (.node .and [clause [(SystemKey.date k).name] .eq (.val t.val)]) =
      Formula.kleeneAnd [some ((cypherCompare .eq (node (.date k)) (.str t.isoformat)).getD false)] ∧
    accepts node (.node .and [clause [(SystemKey.date k).name] .ne (.val t.val)]) =
      Formula.kleeneAnd [Formula.kleeneOr [some (node (.date k)).isNone,
        cypherCompare .ne (node (.date k)) (.str t.isoformat)]] := by
  cases k with
  | occurredAt | createdAt | sourceTimestamp => exact ⟨rfl, rfl, rfl⟩

theorem oracle_single (r : Record) (k : DateKey) (t : UtcTime) :
    compilePython (.node .and [clause [(SystemKey.date k).name] .eq (.val .null)]) r =
      Formula.allOf [some (r.system (.date k)).isNull] ∧
    compilePython (.node .and [clause [(SystemKey.date k).name] .eq (.val t.val)]) r =
      Formula.allOf [systemEq (r.system (.date k)) t.val] ∧
    compilePython (.node .and [clause [(SystemKey.date k).name] .ne (.val t.val)]) r =
      Formula.allOf [systemNe (r.system (.date k)) t.val] := by
  cases k with
  | occurredAt | createdAt | sourceTimestamp => exact ⟨rfl, rfl, rfl⟩

theorem systemEq_of_utc {d : DateTime} {t : UtcTime} (h : d.toUtc = some t) :
    systemEq (.datetime d) t.val = some true := by
  have he : eqAligned (.datetime d) t.val = some (pyEq (.datetime t.aware) (.datetime t.aware)) := by
    simp only [eqAligned, aligned, UtcTime.val, h, aware_toUtc, bind, Option.bind_some]
  rw [systemEq, he]
  simp [Val.isNull, Filter.comparable, Val.isNumber, Val.sameType, UtcTime.val, pyEq, DateTime.pyEq]

theorem systemNe_of_overflow {d : DateTime} (t : UtcTime) (h : d.toUtc = none) :
    systemNe (.datetime d) t.val = none := by
  have he : eqAligned (.datetime d) t.val = none := by
    simp only [eqAligned, aligned, UtcTime.val, h, bind, Option.bind_none]
  rw [systemNe, he]
  simp [Val.isNull, Filter.comparable, Val.isNumber, Val.sameType, UtcTime.val]

theorem chunkNode_date (now : UtcTime) {chunk : TemporalChunk} {k : DateKey} {d : DateTime}
    (h : chunk.dates k = some d) : chunkNode now chunk (.date k) = some d.isoformat := by
  cases k with
  | occurredAt | createdAt | sourceTimestamp => simp [chunkNode, h]

/-- A date that is not in UTC is told from its equal in UTC, or from a date
that the oracle cannot compare it with. -/
theorem utc_of_sound (now : UtcTime) {chunk : TemporalChunk} {k : DateKey} {d : DateTime}
    (hd : chunk.dates k = some d)
    (h : ∀ spec a, (dateFilter k spec).parseToAst = .ok a →
      Sound (chunkNode now chunk) chunk.record a) : ∃ t : UtcTime, d = t.aware := by
  have hnode := chunkNode_date now hd
  have hrec : chunk.record.system (.date k) = .datetime d := by simp [TemporalChunk.record, hd]
  cases hu : d.toUtc with
  | some t =>
    refine ⟨t, isoformat_utc ?_⟩
    have hs := (h (.scalar t) _ (dateFilter_parse k _ _ rfl)).superset
    change compilePython (.node .and [clause [(SystemKey.date k).name] .eq (.val t.val)]) _ = _ →
      accepts _ (.node .and [clause [(SystemKey.date k).name] .eq (.val t.val)]) = _ at hs
    rw [(oracle_single _ k t).2.1, (accepts_single _ k t).2.1, hrec, systemEq_of_utc hu, hnode] at hs
    have ha := (Formula.kleeneAnd_true _).mp (hs rfl) _ (List.mem_singleton.mpr rfl)
    exact of_decide_eq_true (Option.some.inj ha)
  | none =>
    have hs := (h (differsFrom d.clock) _ (dateFilter_parse k _ _ rfl)).exact
    change _ → (accepts _ (.node .and [clause [(SystemKey.date k).name] .ne (.val d.clock.val)]) = _ ↔
      compilePython (.node .and [clause [(SystemKey.date k).name] .ne (.val d.clock.val)]) _ = _) at hs
    rw [(oracle_single _ k d.clock).2.2, (accepts_single _ k d.clock).2.2, hrec,
      systemNe_of_overflow _ hu, hnode] at hs
    have hne : d.isoformat ≠ d.clock.isoformat := by
      intro he
      rw [isoformat_utc he] at hu
      cases hu
    have hacc : cypherCompare .ne (some d.isoformat) (.str d.clock.isoformat) = some true :=
      congrArg some (decide_eq_true hne)
    rw [hacc] at hs
    have hp : pushable ⟨[(SystemKey.date k).name], .ne, .val d.clock.val⟩ = true := by
      rw [pushable, systemPath_name]
      rfl
    cases (hs (fun c hc => by rw [List.mem_singleton.mp hc]; exact hp)).mp rfl

/-- The Cypher push-down is a sound split on the node of a chunk exactly when
the dates of the chunk are in UTC. -/
theorem sound_iff (now : UtcTime) (chunk : TemporalChunk) :
    (∀ f : RecallFilter, f.accepted = true → f.Within metadataPaths → ∀ a, f.parseToAst = .ok a →
      Sound (chunkNode now chunk) chunk.record a) ↔ chunk.InUtc := by
  constructor
  · intro h
    have hdate : ∀ k spec a, (dateFilter k spec).parseToAst = .ok a →
        Sound (chunkNode now chunk) chunk.record a :=
      fun k spec a ha => h _ rfl (dateFilter_within k spec) a ha
    refine ⟨fun k d hd => utc_of_sound now hd (hdate k), fun hc => ?_⟩
    have hs := (hdate .createdAt .null _ (dateFilter_parse .createdAt _ _ rfl)).superset
    have hrec : chunk.record.system (.date .createdAt) = .null := by simp [TemporalChunk.record, hc]
    change compilePython (.node .and [clause [(SystemKey.date .createdAt).name] .eq (.val .null)]) _ = _ →
      accepts _ (.node .and [clause [(SystemKey.date .createdAt).name] .eq (.val .null)]) = _ at hs
    rw [(oracle_single _ .createdAt now).1, (accepts_single _ .createdAt now).1, hrec] at hs
    cases hs rfl
  · intro hu f hacc hw a ha
    exact sound_of_utc hu now (parseToAst_built metadataPaths_hereditary f hacc hw a ha)

def sevenUtc : UtcTime := ⟨⟨2024, 1, 15, 7, 0, 0, 0⟩, by decide⟩

/-- A chunk that occurred at 2024-01-15T12:00:00+05:00. -/
def noonPlusFive : TemporalChunk where
  dates
    | .occurredAt => some ⟨⟨⟨2024, 1, 15, 12, 0, 0, 0⟩, by decide⟩, some ⟨18000000000, by decide⟩⟩
    | .createdAt => some sevenUtc.aware
    | .sourceTimestamp => none
  texts _ := none
  metadata := []

/-- `{"occurred_at": "2024-01-15T07:00:00Z"}` accepts the chunk, and the
fragment rejects its node. -/
theorem noonPlusFive_rejected :
    (dateFilter .occurredAt (.scalar sevenUtc)).accepted = true ∧
    (dateFilter .occurredAt (.scalar sevenUtc)).parseToAst =
      .ok (.node .and [clause [py "occurred_at"] .eq (.val sevenUtc.val)]) ∧
    compilePython (.node .and [clause [py "occurred_at"] .eq (.val sevenUtc.val)])
      noonPlusFive.record = some true ∧
    accepts (chunkNode sevenUtc noonPlusFive)
      (.node .and [clause [py "occurred_at"] .eq (.val sevenUtc.val)]) = some false :=
  ⟨rfl, dateFilter_parse .occurredAt _ _ rfl, by decide, by decide⟩

end Cypher

end Uru.Filter
