import Mathlib.Algebra.Order.Field.Rat
import Mathlib.Data.List.Basic
import Mathlib.Tactic

/-!
# Filtering items by time, one at a time and in a batch

A filter has an operator and up to two bounds, and tests one timestamp. The
batch reads a timestamp from every item, turns all of them and the bounds into
seconds, and tests the seconds; if an item has no timestamp, all items are
tested one at a time, by another field. The two tests agree on neither missing
bounds nor missing timestamps.
-/

set_option autoImplicit false

namespace Uru.Query.Temporal

/-- A wall clock, in microseconds, and the offset from UTC of an aware one. -/
structure Datetime where
  wall : ℤ
  utcoffset : Option ℤ
  deriving DecidableEq, Repr

inductive TemporalOperator where
  | before
  | after
  | between
  | during
  | overlaps
  deriving DecidableEq, Repr

def TemporalOperator.value : TemporalOperator → String
  | .before => "before"
  | .after => "after"
  | .between => "between"
  | .during => "during"
  | .overlaps => "overlaps"

structure TemporalFilter where
  operator : TemporalOperator
  startTime : Option Datetime
  endTime : Option Datetime
  relativeDays : Option ℤ
  relativeHours : Option ℤ
  deriving DecidableEq, Repr

def TemporalFilter.init (operator : TemporalOperator)
    (startTime endTime startDate endDate : Option Datetime)
    (relativeDays relativeHours : Option ℤ) : TemporalFilter where
  operator :=
    if (startTime.or startDate).isSome && (endTime.or endDate).isSome then .between
    else if (endTime.or endDate).isSome && (startTime.or startDate).isNone then .before
    else operator
  startTime := startTime.or startDate
  endTime := endTime.or endDate
  relativeDays := relativeDays
  relativeHours := relativeHours

/-- The time in UTC without its offset; a naive time counts as UTC. -/
def normalizeTz (dt : Option Datetime) : Option ℤ := dt.map (fun d => d.wall-d.utcoffset.getD 0)

def microsecondsPerHour : ℤ := 3600000000

section Test

variable (now : Datetime) (f : TemporalFilter)

def ago (microseconds : ℤ) : Datetime := { now with wall := now.wall-microseconds }

def effectiveStart : Option Datetime :=
  match f.relativeHours with
  | some h => some (ago now (h*microsecondsPerHour))
  | none =>
    match f.relativeDays with
    | some d => some (ago now (d*24*microsecondsPerHour))
    | none => f.startTime

def getEffectiveTimes : Option Datetime × Option Datetime := (effectiveStart now f,f.endTime)

def lower : Option ℤ := normalizeTz (getEffectiveTimes now f).1

def upper : Option ℤ := normalizeTz (getEffectiveTimes now f).2

def TemporalFilter.matches (timestamp : Option Datetime) : Option Bool :=
  let ts := normalizeTz timestamp
  match f.operator with
  | .before =>
    match upper now f with
    | none => some false
    | some e => ts.map (fun t => t < e)
  | .after =>
    match lower now f with
    | none => some false
    | some s => ts.map (fun t => s < t)
  | .between =>
    match lower now f, upper now f with
    | some s, some e => ts.map (fun t => s ≤ t && t ≤ e)
    | _, _ => some true
  | _ => some true

/-- The interval that a filter denotes; a missing bound leaves its side open. -/
def TemporalFilter.denotes (t : ℤ) : Bool :=
  match f.operator with
  | .before => (upper now f).all (fun e => t < e)
  | .after => (lower now f).all (fun s => s < t)
  | _ => (lower now f).all (fun s => s ≤ t) && (upper now f).all (fun e => t ≤ e)

end Test

def batchTemporalFilter (timestampsSecs : List ℚ) (operator : String)
    (startSecs endSecs : Option ℚ) : List Bool :=
  timestampsSecs.map (fun ts =>
    if operator = "before" then endSecs.isNone || endSecs.any (fun e => ts < e)
    else if operator = "after" then startSecs.isNone || startSecs.any (fun s => s < ts)
    else if operator = "between" then
      let afterStart := startSecs.isNone || startSecs.any (fun s => s ≤ ts)
      let beforeEnd := endSecs.isNone || endSecs.any (fun e => ts ≤ e)
      afterStart && beforeEnd
    else true)

namespace Rust

inductive Op where
  | before
  | after
  | between
  | pass
  deriving DecidableEq, Repr

def parse (operator : String) : Op :=
  if operator = "before" then .before
  else if operator = "after" then .after
  else if operator = "between" then .between
  else .pass

def matchesOp (ts : ℚ) (op : Op) (start stop : Option ℚ) : Bool :=
  match op with
  | .before => (stop.map (fun e => decide (ts < e))).getD true
  | .after => (start.map (fun s => decide (s < ts))).getD true
  | .between =>
    (start.map (fun s => decide (s ≤ ts))).getD true &&
      (stop.map (fun e => decide (ts ≤ e))).getD true
  | .pass => true

def batchTemporalFilter (timestampsSecs : List ℚ) (operator : String)
    (startSecs endSecs : Option ℚ) : List Bool :=
  timestampsSecs.map (fun ts => matchesOp ts (parse operator) startSecs endSecs)

theorem batch_eq (timestampsSecs : List ℚ) (operator : String) (startSecs endSecs : Option ℚ) :
    batchTemporalFilter timestampsSecs operator startSecs endSecs =
      Temporal.batchTemporalFilter timestampsSecs operator startSecs endSecs := by
  refine List.map_congr_left (fun ts _ => ?_)
  unfold parse
  split_ifs
  · cases endSecs <;> simp [matchesOp]
  · cases startSecs <;> simp [matchesOp]
  · cases startSecs <;> cases endSecs <;> simp [matchesOp]
  · rfl

end Rust

structure Chunk where
  id : ℕ
  sourceTimestamp : Option Datetime
  createdAt : Option Datetime
  deriving DecidableEq, Repr

def effectiveTimestamp (c : Chunk) : Option Datetime := c.sourceTimestamp.or c.createdAt

abbrev Scored := Chunk × ℚ

/-- The items that a test keeps; `none` where the test raises. -/
def keepBy (test : Chunk → Option Bool) : List Scored → Option (List Scored)
  | [] => some []
  | x::xs =>
    match test x.1 with
    | none => none
    | some keep => (keepBy test xs).map (fun ys => if keep then x::ys else ys)

section Batch

/- The seconds of a time as a double; the compiled or the other batch test. -/
variable (totalSeconds : ℤ → ℚ)
  (batch : List ℚ → String → Option ℚ → Option ℚ → List Bool)
  (now : Datetime) (f : TemporalFilter)

def dtToEpoch (dt : Option Datetime) : Option ℚ := (normalizeTz dt).map totalSeconds

def timestamps (chunksAndScores : List Scored) : Option (List ℚ) :=
  chunksAndScores.mapM (fun x => dtToEpoch totalSeconds (effectiveTimestamp x.1))

def batchFilterChunks (chunksAndScores : List Scored) : Option (List Scored) :=
  if chunksAndScores = [] then some []
  else
    let times := getEffectiveTimes now f
    match timestamps totalSeconds chunksAndScores with
    | none => keepBy (fun c => f.matches now c.createdAt) chunksAndScores
    | some ts =>
      let mask := batch ts f.operator.value (dtToEpoch totalSeconds times.1)
        (dtToEpoch totalSeconds times.2)
      some (((chunksAndScores.zip mask).filter Prod.snd).map Prod.fst)

def oneByOne (chunksAndScores : List Scored) : Option (List Scored) :=
  keepBy (fun c => f.matches now (effectiveTimestamp c)) chunksAndScores

def inside (x : Scored) : Bool :=
  (normalizeTz (effectiveTimestamp x.1)).any (fun t => f.denotes now t)

end Batch

def Agrees (totalSeconds : ℤ → ℚ) (now : Datetime) (f : TemporalFilter) (items : List Scored) :
    Prop :=
  batchFilterChunks totalSeconds Rust.batchTemporalFilter now f items =
      some (items.filter (inside now f)) ∧
    batchFilterChunks totalSeconds batchTemporalFilter now f items =
      some (items.filter (inside now f)) ∧
    oneByOne now f items = some (items.filter (inside now f))

section Agreement

variable {totalSeconds : ℤ → ℚ} {now : Datetime} {f : TemporalFilter} {items : List Scored}

/-- The filter has every bound that its operator compares with. -/
def TemporalFilter.Bounded (now : Datetime) (f : TemporalFilter) : Prop :=
  match f.operator with
  | .before => (upper now f).isSome
  | .after => (lower now f).isSome
  | .between => (lower now f).isSome ∧ (upper now f).isSome
  | _ => False

/-- The operators that keep nothing where their bound is missing. -/
def TemporalFilter.strict (f : TemporalFilter) : Prop :=
  f.operator = .before ∨ f.operator = .after

instance (f : TemporalFilter) : Decidable f.strict :=
  inferInstanceAs (Decidable (f.operator = .before ∨ f.operator = .after))

def secondsInside (totalSeconds : ℤ → ℚ) (now : Datetime) (f : TemporalFilter) (t : ℤ) : Bool :=
  match f.operator with
  | .before => (upper now f).all (fun e => totalSeconds t < totalSeconds e)
  | .after => (lower now f).all (fun s => totalSeconds s < totalSeconds t)
  | .between => (lower now f).all (fun s => totalSeconds s ≤ totalSeconds t) &&
      (upper now f).all (fun e => totalSeconds t ≤ totalSeconds e)
  | _ => true

theorem filter_eq_filter_iff {α : Type} {p q : α → Bool} {xs : List α} :
    xs.filter p = xs.filter q ↔ ∀ x ∈ xs, p x = q x := by
  refine ⟨fun h x hx => ?_, List.filter_congr⟩
  have hmem : x ∈ xs.filter p ↔ x ∈ xs.filter q := by rw [h]
  simp only [List.mem_filter, hx, true_and] at hmem
  exact Bool.eq_iff_iff.mpr hmem

theorem keepBy_eq_some {test : Chunk → Option Bool} {xs ys : List Scored} :
    keepBy test xs = some ys ↔
      (∀ x ∈ xs, (test x.1).isSome) ∧ ys = xs.filter (fun x => test x.1 = some true) := by
  induction xs generalizing ys with
  | nil => exact ⟨fun h => ⟨by simp, (Option.some.inj h).symm⟩, fun h => congrArg some h.2.symm⟩
  | cons x xs ih =>
    unfold keepBy
    rcases ht : test x.1 with _ | keep
    · simp [ht]
    · simp only [Option.map_eq_some_iff, ih]
      constructor
      · rintro ⟨zs, ⟨hall, rfl⟩, rfl⟩
        refine ⟨fun y hy => ?_, ?_⟩
        · rcases List.mem_cons.mp hy with rfl | hy
          · rw [ht]
            rfl
          · exact hall y hy
        · cases keep
          · simp [ht]
          · simp [ht]
      · rintro ⟨hall, rfl⟩
        refine ⟨_, ⟨fun y hy => hall y (List.mem_cons_of_mem _ hy), rfl⟩, ?_⟩
        cases keep
        · simp [ht]
        · simp [ht]

theorem keepBy_const (keep : Bool) (xs : List Scored) :
    keepBy (fun _ => some keep) xs = some (xs.filter (fun _ => keep)) := by
  refine keepBy_eq_some.mpr ⟨fun _ _ => rfl, ?_⟩
  cases keep <;> rfl

theorem matches_of_bounded (h : f.Bounded now) (timestamp : Option Datetime) :
    f.matches now timestamp = (normalizeTz timestamp).map (f.denotes now) := by
  unfold TemporalFilter.Bounded at h
  unfold TemporalFilter.matches TemporalFilter.denotes
  cases hop : f.operator with
  | before =>
    simp only [hop] at h
    obtain ⟨e, he⟩ := Option.isSome_iff_exists.mp h
    simp [he]
  | after =>
    simp only [hop] at h
    obtain ⟨s, hs⟩ := Option.isSome_iff_exists.mp h
    simp [hs]
  | between =>
    simp only [hop] at h
    obtain ⟨s, hs⟩ := Option.isSome_iff_exists.mp h.1
    obtain ⟨e, he⟩ := Option.isSome_iff_exists.mp h.2
    simp [hs, he]
  | during => simp [hop] at h
  | overlaps => simp [hop] at h

theorem matches_of_unbounded (h : ¬f.Bounded now) (timestamp : Option Datetime) :
    f.matches now timestamp = some (decide (¬f.strict)) := by
  unfold TemporalFilter.Bounded at h
  unfold TemporalFilter.matches
  split
  · next hop =>
    simp only [hop, Option.not_isSome_iff_eq_none] at h
    simp [h, TemporalFilter.strict, hop]
  · next hop =>
    simp only [hop, Option.not_isSome_iff_eq_none] at h
    simp [h, TemporalFilter.strict, hop]
  · next hop =>
    simp only [hop, not_and_or, Option.not_isSome_iff_eq_none] at h
    rcases h with h | h
    · simp [h, TemporalFilter.strict, hop]
    · cases lower now f <;> simp [h, TemporalFilter.strict, hop]
  · next hb ha hw => exact congrArg some (decide_eq_true (not_or.mpr ⟨hb, ha⟩)).symm

theorem denotes_of_strict (hs : f.strict) (h : ¬f.Bounded now) (t : ℤ) : f.denotes now t = true := by
  unfold TemporalFilter.Bounded at h
  unfold TemporalFilter.denotes
  rcases hs with hop | hop
  · simp only [hop, Option.not_isSome_iff_eq_none] at h
    simp [hop, h]
  · simp only [hop, Option.not_isSome_iff_eq_none] at h
    simp [hop, h]

def moment (x : Scored) : ℤ := (normalizeTz (effectiveTimestamp x.1)).getD 0

theorem timestamps_timed (h : ∀ x ∈ items, (effectiveTimestamp x.1).isSome) :
    timestamps totalSeconds items = some (items.map (totalSeconds ∘ moment)) := by
  induction items with
  | nil => rfl
  | cons x xs ih =>
    obtain ⟨d, hd⟩ := Option.isSome_iff_exists.mp (h x List.mem_cons_self)
    have ih' := ih (fun y hy => h y (List.mem_cons_of_mem _ hy))
    unfold timestamps at ih' ⊢
    rw [List.mapM_cons, ih']
    simp [dtToEpoch, moment, normalizeTz, hd]

theorem timestamps_untimed {x : Scored} (hx : x ∈ items) (h : effectiveTimestamp x.1 = none) :
    timestamps totalSeconds items = none := by
  induction items with
  | nil => cases hx
  | cons y xs ih =>
    unfold timestamps at ih ⊢
    rw [List.mapM_cons]
    rcases List.mem_cons.mp hx with rfl | hx
    · simp [dtToEpoch, normalizeTz, h]
    · rw [ih hx]
      cases dtToEpoch totalSeconds (effectiveTimestamp y.1) <;> rfl

theorem zip_mask {α : Type} (xs : List α) (p : α → Bool) :
    ((xs.zip (xs.map p)).filter Prod.snd).map Prod.fst = xs.filter p := by
  induction xs with
  | nil => rfl
  | cons x xs ih =>
    rw [List.map_cons, List.zip_cons_cons, List.filter_cons, List.filter_cons]
    cases p x
    · exact ih
    · exact congrArg (x::·) ih

theorem batch_seconds (t : ℤ) :
    batchTemporalFilter [totalSeconds t] f.operator.value
      (dtToEpoch totalSeconds (getEffectiveTimes now f).1)
      (dtToEpoch totalSeconds (getEffectiveTimes now f).2) =
    [secondsInside totalSeconds now f t] := by
  unfold batchTemporalFilter secondsInside dtToEpoch
  change [_] = [_]
  cases hop : f.operator with
  | before => cases hu : upper now f <;> simp_all [TemporalOperator.value, upper]
  | after => cases hl : lower now f <;> simp_all [TemporalOperator.value, lower]
  | between =>
    cases hl : lower now f <;> cases hu : upper now f <;>
      simp_all [TemporalOperator.value, lower, upper]
  | during => simp [TemporalOperator.value]
  | overlaps => simp [TemporalOperator.value]

theorem mask_eq (ts : List ℤ) :
    batchTemporalFilter (ts.map totalSeconds) f.operator.value
      (dtToEpoch totalSeconds (getEffectiveTimes now f).1)
      (dtToEpoch totalSeconds (getEffectiveTimes now f).2) =
    ts.map (secondsInside totalSeconds now f) := by
  rw [batchTemporalFilter, List.map_map]
  refine List.map_congr_left (fun t _ => ?_)
  exact (List.cons.inj (batch_seconds t)).1

theorem batch_timed (hitems : items ≠ [])
    (h : ∀ x ∈ items, (effectiveTimestamp x.1).isSome) :
    batchFilterChunks totalSeconds batchTemporalFilter now f items =
      some (items.filter (fun x => secondsInside totalSeconds now f (moment x))) := by
  have hmask := @mask_eq totalSeconds now f (items.map moment)
  rw [List.map_map, List.map_map] at hmask
  unfold batchFilterChunks
  rw [if_neg hitems, timestamps_timed h]
  exact (congrArg (fun mask => some (((items.zip mask).filter Prod.snd).map Prod.fst))
    hmask).trans (congrArg some (zip_mask _ _))

theorem batch_untimed {x : Scored} (hx : x ∈ items) (h : effectiveTimestamp x.1 = none) :
    batchFilterChunks totalSeconds batchTemporalFilter now f items =
      keepBy (fun c => f.matches now c.createdAt) items := by
  unfold batchFilterChunks
  rw [if_neg (List.ne_nil_of_mem hx), timestamps_untimed hx h]

theorem rust_batch : batchFilterChunks totalSeconds Rust.batchTemporalFilter now f items =
    batchFilterChunks totalSeconds batchTemporalFilter now f items := by
  have h : Rust.batchTemporalFilter = batchTemporalFilter := by
    funext ts op s e
    exact Rust.batch_eq ts op s e
  rw [h]

theorem inside_timed {x : Scored} (h : (effectiveTimestamp x.1).isSome) :
    inside now f x = f.denotes now (moment x) := by
  obtain ⟨d, hd⟩ := Option.isSome_iff_exists.mp h
  simp [inside, moment, normalizeTz, hd]

theorem inside_untimed {x : Scored} (h : effectiveTimestamp x.1 = none) :
    inside now f x = false := by
  simp [inside, normalizeTz, h]

theorem oneByOne_bounded (hb : f.Bounded now) :
    oneByOne now f items = some (items.filter (inside now f)) ↔
      ∀ x ∈ items, (effectiveTimestamp x.1).isSome := by
  unfold oneByOne
  rw [keepBy_eq_some]
  simp only [matches_of_bounded hb, Option.isSome_map, normalizeTz]
  refine and_iff_left (List.filter_congr (fun x _ => ?_))
  rcases hx : effectiveTimestamp x.1 with _ | d
  · simp [inside, normalizeTz, hx]
  · simp [inside, normalizeTz, hx]

theorem oneByOne_unbounded (hb : ¬f.Bounded now) :
    oneByOne now f items = some (items.filter (inside now f)) ↔
      ∀ x ∈ items, decide (¬f.strict) = inside now f x := by
  unfold oneByOne
  simp only [matches_of_unbounded hb]
  rw [keepBy_const, Option.some.injEq, filter_eq_filter_iff]

theorem agrees_timed (hitems : items ≠ [])
    (h : ∀ x ∈ items, (effectiveTimestamp x.1).isSome) :
    Agrees totalSeconds now f items ↔ (f.strict → f.Bounded now) ∧
      ∀ x ∈ items, (f.Bounded now ∨ f.denotes now (moment x) = true) ∧
        secondsInside totalSeconds now f (moment x) = f.denotes now (moment x) := by
  have hbatch : batchFilterChunks totalSeconds batchTemporalFilter now f items =
      some (items.filter (inside now f)) ↔
      ∀ x ∈ items, secondsInside totalSeconds now f (moment x) = f.denotes now (moment x) := by
    rw [batch_timed hitems h, Option.some.injEq, filter_eq_filter_iff]
    exact forall₂_congr (fun x hx => by rw [inside_timed (h x hx)])
  unfold Agrees
  rw [rust_batch, hbatch]
  by_cases hb : f.Bounded now
  · rw [oneByOne_bounded hb]
    simp only [hb, true_or, true_and, implies_true]
    exact ⟨fun hs => hs.1, fun hs => ⟨hs, hs, h⟩⟩
  · rw [oneByOne_unbounded hb]
    simp only [hb, false_or, imp_false]
    constructor
    · rintro ⟨hs, -, hone⟩
      obtain ⟨x, hx⟩ := List.exists_mem_of_ne_nil items hitems
      have hstrict : ¬f.strict := by
        intro hstrict
        have hx' := hone x hx
        rw [inside_timed (h x hx), denotes_of_strict hstrict hb] at hx'
        exact of_decide_eq_true hx' hstrict
      refine ⟨hstrict, fun y hy => ⟨?_, hs y hy⟩⟩
      rw [← inside_timed (h y hy), ← hone y hy]
      exact decide_eq_true hstrict
    · rintro ⟨hstrict, hall⟩
      refine ⟨fun x hx => (hall x hx).2, fun x hx => (hall x hx).2, fun x hx => ?_⟩
      rw [inside_timed (h x hx), (hall x hx).1]
      exact decide_eq_true hstrict

theorem agrees_untimed {x : Scored} (hx : x ∈ items) (h : effectiveTimestamp x.1 = none) :
    Agrees totalSeconds now f items ↔
      (∀ y ∈ items, effectiveTimestamp y.1 = none) ∧ f.strict ∧ ¬f.Bounded now := by
  unfold Agrees
  rw [rust_batch, batch_untimed hx h]
  by_cases hb : f.Bounded now
  · rw [oneByOne_bounded hb]
    refine iff_of_false (fun hs => ?_) (fun hs => hs.2.2 hb)
    have hx' := hs.2.2 x hx
    rw [h] at hx'
    cases hx'
  · rw [oneByOne_unbounded hb]
    simp only [matches_of_unbounded hb]
    rw [keepBy_const, Option.some.injEq, filter_eq_filter_iff]
    constructor
    · rintro ⟨-, -, hone⟩
      have hstrict : f.strict := by
        by_contra hstrict
        have hx' := hone x hx
        rw [inside_untimed h, decide_eq_true hstrict] at hx'
        cases hx'
      refine ⟨fun y hy => ?_, hstrict, hb⟩
      by_contra hy'
      have hin := hone y hy
      rw [inside_timed (Option.ne_none_iff_isSome.mp hy'), denotes_of_strict hstrict hb] at hin
      exact of_decide_eq_true hin hstrict
    · rintro ⟨hnone, hstrict, -⟩
      have hall : ∀ y ∈ items, decide (¬f.strict) = inside now f y := by
        intro y hy
        rw [inside_untimed (hnone y hy)]
        exact decide_eq_false (not_not.mpr hstrict)
      exact ⟨hall, hall, hall⟩

/-- Both batches, the per-item test and the interval agree exactly if every item
has a timestamp, the bounds that the operator compares with are there or leave
nothing out, and the seconds stand to each other as the times do. Apart from
that they agree on no items, and where a missing bound and missing timestamps
leave nothing over. -/
theorem agrees_iff : Agrees totalSeconds now f items ↔
    items = [] ∨
    ((∀ x ∈ items, (effectiveTimestamp x.1).isSome) ∧ (f.strict → f.Bounded now) ∧
      ∀ x ∈ items, (f.Bounded now ∨ f.denotes now (moment x) = true) ∧
        secondsInside totalSeconds now f (moment x) = f.denotes now (moment x)) ∨
    ((∀ x ∈ items, effectiveTimestamp x.1 = none) ∧ f.strict ∧ ¬f.Bounded now) := by
  by_cases hitems : items = []
  · subst hitems
    exact iff_of_true ⟨rfl, rfl, rfl⟩ (.inl rfl)
  · by_cases htimed : ∀ x ∈ items, (effectiveTimestamp x.1).isSome
    · rw [agrees_timed hitems htimed]
      constructor
      · exact fun h => .inr (.inl ⟨htimed, h⟩)
      · rintro (h | ⟨-, h⟩ | ⟨h, -⟩)
        · exact absurd h hitems
        · exact h
        · obtain ⟨x, hx⟩ := List.exists_mem_of_ne_nil items hitems
          have hx' := htimed x hx
          rw [h x hx] at hx'
          cases hx'
    · simp only [not_forall, exists_prop] at htimed
      obtain ⟨x, hx, hnone⟩ := htimed
      rw [agrees_untimed hx (Option.not_isSome_iff_eq_none.mp hnone)]
      constructor
      · exact fun h => .inr (.inr h)
      · rintro (h | ⟨h, -⟩ | h)
        · exact absurd h hitems
        · exact absurd (h x hx) hnone
        · exact h

end Agreement

namespace Open

def chunk : Chunk := ⟨1,none,some ⟨1700000000000000,some 0⟩⟩

def seconds (t : ℤ) : ℚ := t/1000000

def now : Datetime := ⟨1700000100000000,some 0⟩

/-- `TemporalFilter()`: the operator is `after`, and there is no start. -/
def unbounded : TemporalFilter := .init .after none none none none none none

def lastDay : TemporalFilter := .init .after none none none none (some 1) none

/-- The batch keeps the item that the per-item test rejects. -/
theorem unbounded_disagrees : ¬Agrees seconds now unbounded [(chunk,1)] := by
  rintro ⟨-, hbatch, hone⟩
  have hkept : batchFilterChunks seconds batchTemporalFilter now unbounded [(chunk,1)] =
    some [(chunk,1)] := by decide +kernel
  have hdropped : oneByOne now unbounded [(chunk,1)] = some [] := by decide +kernel
  rw [hkept] at hbatch
  rw [hdropped, ← hbatch] at hone
  cases hone

/-- A missing timestamp turns the batch to the other test, which raises. -/
example : batchFilterChunks seconds batchTemporalFilter now lastDay
    [(chunk,1),(⟨2,none,none⟩,1)] = none := by decide +kernel

end Open

end Uru.Query.Temporal
