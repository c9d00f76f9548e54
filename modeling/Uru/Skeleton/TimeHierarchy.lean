import Mathlib.Data.List.Infix
import Mathlib.Tactic
import Uru.Filter.Calendar
import Uru.Lib.Blocks
import Uru.Lib.Machine

/-!
# The hierarchy of time nodes

A day node is created for the date that the clock of a timestamp shows, and its
week, month, quarter and year with it, where they are not there yet. The day
keeps the offset of the timestamp; the levels above are intervals in UTC. A
week hangs under the month of its Monday. The covering node of a range is
looked for from the years down.
-/

set_option autoImplicit false

namespace Uru.Skeleton.TimeHierarchy
open Uru.Lib Uru.Filter

inductive Granularity
  | year
  | quarter
  | month
  | week
  | day
deriving DecidableEq

/-- Times are microseconds since the first of January of the year 1 in UTC. -/
structure TimeNode where
  id : ℕ
  namespaceId : ℕ
  granularity : Granularity
  startTime : ℤ
  endTime : ℤ
  parentId : Option ℕ
deriving DecidableEq

structure Date where
  year : ℕ
  month : ℕ
  day : ℕ

def Date.number (d : Date) : ℕ := dayNumber d.year d.month d.day

def dateOf (n : ℕ) : Date := ⟨(ofDays n).1,(ofDays n).2.1,(ofDays n).2.2⟩

/-- The microseconds of a day. -/
def dayMicros : ℤ := 86400000000

def midnight (n : ℕ) : ℤ := n*dayMicros

def getNode (rows : List TimeNode) (namespaceId : ℕ) (granularity : Granularity)
    (startTime : ℤ) : Option TimeNode :=
  rows.find? (fun row => row.namespaceId = namespaceId ∧ row.granularity = granularity ∧
    row.startTime = startTime)

/-- The ids are fresh. -/
def createNode (rows : List TimeNode) (namespaceId : ℕ) (granularity : Granularity)
    (startTime endTime : ℤ) (parentId : Option ℕ) : TimeNode × List TimeNode :=
  let node : TimeNode := ⟨rows.length,namespaceId,granularity,startTime,endTime,parentId⟩
  (node,rows++[node])

def ensureYearNode (rows : List TimeNode) (namespaceId : ℕ) (dt : Date) :
    TimeNode × List TimeNode :=
  let yearStart := midnight (dayNumber dt.year 1 1)
  let year_end := midnight (dayNumber (dt.year+1) 1 1)
  match getNode rows namespaceId .year yearStart with
  | some existing => (existing,rows)
  | none => createNode rows namespaceId .year yearStart year_end none

def ensureQuarterNode (rows : List TimeNode) (namespaceId : ℕ) (dt : Date) :
    TimeNode × List TimeNode :=
  let quarter := (dt.month-1)/3+1
  let quarterStartMonth := (quarter-1)*3+1
  let quarterStart := midnight (dayNumber dt.year quarterStartMonth 1)
  let quarterEnd := if quarter = 4 then midnight (dayNumber (dt.year+1) 1 1)
    else midnight (dayNumber dt.year (quarterStartMonth+3) 1)
  match getNode rows namespaceId .quarter quarterStart with
  | some existing => (existing,rows)
  | none =>
    let year := ensureYearNode rows namespaceId dt
    createNode year.2 namespaceId .quarter quarterStart quarterEnd (some year.1.id)

def ensureMonthNode (rows : List TimeNode) (namespaceId : ℕ) (dt : Date) :
    TimeNode × List TimeNode :=
  let monthStart := midnight (dayNumber dt.year dt.month 1)
  let lastDay := daysInMonth dt.year dt.month
  let monthEnd := monthStart+lastDay*dayMicros
  match getNode rows namespaceId .month monthStart with
  | some existing => (existing,rows)
  | none =>
    let quarter := ensureQuarterNode rows namespaceId dt
    createNode quarter.2 namespaceId .month monthStart monthEnd (some quarter.1.id)

/-- The number of the Monday of the week of a day; the first of January of the
year 1 is a Monday. -/
def monday (n : ℕ) : ℕ := n-n%7

def ensureWeekNode (rows : List TimeNode) (namespaceId : ℕ) (dt : Date) :
    TimeNode × List TimeNode :=
  let weekStart := midnight (monday dt.number)
  let weekEnd := weekStart+7*dayMicros
  match getNode rows namespaceId .week weekStart with
  | some existing => (existing,rows)
  | none =>
    let month := ensureMonthNode rows namespaceId (dateOf (monday dt.number))
    createNode month.2 namespaceId .week weekStart weekEnd (some month.1.id)

/-- A timestamp whose year has a successor. -/
structure Stamp where
  value : DateTime
  representable : value.clock.civil.year+1 ≤ 9999

def Stamp.date (dt : Stamp) : Date :=
  ⟨dt.value.clock.civil.year,dt.value.clock.civil.month,dt.value.clock.civil.day⟩

/-- How far the clock is ahead of UTC; a naive timestamp is read as UTC. -/
def Stamp.ahead (dt : Stamp) : ℤ := dt.value.offset.elim 0 Offset.micros

def Stamp.instant (dt : Stamp) : ℤ := dt.value.clock.civil.toMicros-dt.ahead

def Stamp.dayStart (dt : Stamp) : ℤ := midnight dt.date.number-dt.ahead

def getOrCreateDayNode (rows : List TimeNode) (namespaceId : ℕ) (dt : Stamp) :
    TimeNode × List TimeNode :=
  let dayStart := dt.dayStart
  let dayEnd := dayStart+dayMicros
  match getNode rows namespaceId .day dayStart with
  | some existing => (existing,rows)
  | none =>
    let week := ensureWeekNode rows namespaceId dt.date
    let month := ensureMonthNode week.2 namespaceId dt.date
    let quarter := ensureQuarterNode month.2 namespaceId dt.date
    let year := ensureYearNode quarter.2 namespaceId dt.date
    createNode year.2 namespaceId .day dayStart dayEnd (some week.1.id)

def covers (namespaceId : ℕ) (start stop : ℤ) (row : TimeNode) : Bool :=
  row.namespaceId = namespaceId ∧ row.startTime ≤ start ∧ row.endTime ≥ stop

def granularities : List Granularity := [.year,.quarter,.month,.week,.day]

def getCoveringNode (rows : List TimeNode) (namespaceId : ℕ) (start stop : ℤ) :
    Option TimeNode :=
  granularities.findSome? (fun granularity =>
    rows.find? (fun row => row.granularity = granularity ∧ covers namespaceId start stop row = true))

def Date.Valid (d : Date) : Prop :=
  1 ≤ d.year ∧ (1 ≤ d.month ∧ d.month ≤ 12) ∧ (1 ≤ d.day ∧ d.day ≤ daysInMonth d.year d.month)

theorem monthDay_pos (y k : ℕ) {m : ℕ} (hm : 1 ≤ m) (d : ℕ) :
    m ≤ (monthDay y k m d).1 ∧ (monthDay y k m d).1 ≤ m+k ∧ 1 ≤ (monthDay y k m d).2 ∧
      ((monthDay y k m d).2 ≤ daysInMonth y (monthDay y k m d).1 ∨
        (monthDay y k m d).1 = m+k) := by
  induction k generalizing m d with
  | zero => simp [monthDay]
  | succ k ih =>
    rw [monthDay]
    split_ifs with h
    · exact ⟨le_rfl, by simp, by simp, .inl h⟩
    · obtain ⟨hle, hge, hpos, hlast⟩ := ih (show 1 ≤ m+1 by omega) (d-daysInMonth y m)
      exact ⟨by omega, by omega, hpos, hlast.imp id (by omega)⟩

theorem ofDays_year (n : ℕ) : n < daysBeforeYear ((ofDays n).1+1) := by
  unfold ofDays
  simp only
  generalize hb : min (n%146097/36524) 3 = b
  generalize hc : (n%146097-36524*b)/1461 = c
  generalize he : min ((n%146097-36524*b)%1461/365) 3 = e
  have hb3 : b ≤ 3 := by omega
  have hc24 : c ≤ 24 := by omega
  have he3 : e ≤ 3 := by omega
  rw [daysBeforeYear_succ _ (by omega), daysBeforeYear_digits _ _ _ _ hb3 hc24 he3]
  split_ifs with hleap
  · omega
  · have hlast : ¬ (e = 3 ∧ (c < 24 ∨ b = 3)) := by
      rintro ⟨rfl, hcb⟩
      apply hleap
      rw [isLeap_iff]
      refine ⟨by omega, ?_⟩
      rcases hcb with hlt | rfl
      · left
        omega
      · by_cases h24 : c = 24
        · right
          omega
        · left
          omega
    omega

theorem year_end (y : ℕ) (hy : 1 ≤ y) :
    daysBeforeYear y+daysBeforeMonth y 13 = daysBeforeYear (y+1) := by
  rw [daysBeforeYear_succ y hy, daysBeforeMonth_year]

theorem dateOf_valid (n : ℕ) : (dateOf n).Valid := by
  have hnum := ofDays_number n
  have hyear := ofDays_year n
  have hy : 1 ≤ (ofDays n).1 := by simp [ofDays]
  obtain ⟨d, hmd⟩ : ∃ d, (ofDays n).2 = monthDay (ofDays n).1 11 1 d := ⟨_, rfl⟩
  have hpos := monthDay_pos (ofDays n).1 11 le_rfl d
  rw [← hmd] at hpos
  refine ⟨hy, ⟨hpos.1, hpos.2.1⟩, hpos.2.2.1, ?_⟩
  rcases hpos.2.2.2 with hle | hlast
  · exact hle
  · -- after November the recursion stops, and the year bounds the day
    have hmonth := daysBeforeMonth_succ (ofDays n).1 (ofDays n).2.1 hpos.1
    have hend := year_end (ofDays n).1 hy
    have hstop : (ofDays n).2.1+1 = 13 := by omega
    rw [hstop] at hmonth
    simp only [dayNumber, dateOf] at hnum ⊢
    omega

theorem dateOf_number (n : ℕ) : (dateOf n).number = n := ofDays_number n

def monthFirst (i : ℕ) : ℕ := dayNumber (i/12+1) (i%12+1) 1

theorem monthFirst_succ (i : ℕ) :
    monthFirst (i+1) = monthFirst i+daysInMonth (i/12+1) (i%12+1) := by
  have hmonth := daysBeforeMonth_succ (i/12+1) (i%12+1) (by omega)
  by_cases h : i%12 = 11
  · have hend := year_end (i/12+1) (by omega)
    have hstop : i%12+1+1 = 13 := by omega
    have hyear : (i+1)/12 = i/12+1 := by omega
    have hjan : (i+1)%12 = 0 := by omega
    rw [hstop] at hmonth
    simp only [monthFirst, dayNumber, hyear, hjan]
    simp only [daysBeforeMonth, Nat.zero_add, Nat.sub_self, List.range_zero, List.map_nil,
      List.sum_nil] at hmonth hend ⊢
    omega
  · have hyear : (i+1)/12 = i/12 := by omega
    have hnext : (i+1)%12 = i%12+1 := by omega
    simp only [monthFirst, dayNumber, hyear, hnext]
    omega

theorem daysInMonth_pos (y m : ℕ) : 0 < daysInMonth y m := by
  unfold daysInMonth
  split_ifs <;> omega

theorem monthFirst_mono : StrictMono monthFirst := by
  apply strictMono_nat_of_lt_succ
  intro i
  rw [monthFirst_succ]
  have hpos := daysInMonth_pos (i/12+1) (i%12+1)
  omega

def Date.monthIndex (d : Date) : ℕ := 12*(d.year-1)+(d.month-1)

theorem monthFirst_index (d : Date) (hd : d.Valid) {m : ℕ} (hm : m < 12) :
    monthFirst (12*(d.year-1)+m) = dayNumber d.year (m+1) 1 := by
  have hyear : (12*(d.year-1)+m)/12+1 = d.year := by
    have := hd.1
    omega
  have hmonth : (12*(d.year-1)+m)%12 = m := by omega
  rw [monthFirst, hyear, hmonth]

theorem date_in_month (d : Date) (hd : d.Valid) :
    monthFirst d.monthIndex ≤ d.number ∧ d.number < monthFirst (d.monthIndex+1) ∧
      d.number = monthFirst d.monthIndex+(d.day-1) ∧
      monthFirst (d.monthIndex+1) = monthFirst d.monthIndex+daysInMonth d.year d.month := by
  obtain ⟨hy, hm, hday⟩ := hd
  have hfirst : monthFirst d.monthIndex = dayNumber d.year d.month 1 := by
    have h := monthFirst_index d ⟨hy, hm, hday⟩ (show d.month-1 < 12 by omega)
    rwa [Nat.sub_add_cancel hm.1] at h
  have hnext : monthFirst (d.monthIndex+1) =
      monthFirst d.monthIndex+daysInMonth d.year d.month := by
    have hyear : d.monthIndex/12+1 = d.year := by unfold Date.monthIndex; omega
    have hmonth : d.monthIndex%12+1 = d.month := by unfold Date.monthIndex; omega
    rw [monthFirst_succ, hyear, hmonth]
  have hnum : d.number = monthFirst d.monthIndex+(d.day-1) := by
    rw [hfirst]
    simp only [Date.number, dayNumber]
    omega
  exact ⟨by omega, by omega, hnum, hnext⟩

theorem midnight_mono : StrictMono midnight := by
  intro m n h
  unfold midnight dayMicros
  omega

/-- The marks between which the nodes of a granularity lie. -/
def marks : Granularity → ℕ → ℤ
  | .year | .quarter | .month => fun i => midnight (monthFirst i)
  | .week | .day => midnight

def size : Granularity → ℕ
  | .year => 12
  | .quarter => 3
  | .month => 1
  | .week => 7
  | .day => 1

def rank : Granularity → ℕ
  | .year => 0
  | .quarter => 1
  | .month => 2
  | .week => 3
  | .day => 4

theorem marks_mono (g : Granularity) : StrictMono (marks g) := by
  cases g with
  | year | quarter | month => exact midnight_mono.comp monthFirst_mono
  | week | day => exact midnight_mono

theorem size_pos (g : Granularity) : 0 < size g := by cases g <;> decide

structure Placed (g : Granularity) (j namespaceId : ℕ) (row : TimeNode) : Prop where
  namespace_eq : row.namespaceId = namespaceId
  granularity_eq : row.granularity = g
  start_eq : row.startTime = marks g (size g*j)
  end_eq : row.endTime = marks g (size g*(j+1))

/-- The place of a node and of its parent; `W` says how far the clock of a day
may be ahead of UTC. -/
inductive Shaped (W : ℤ → Prop) (rows : List TimeNode) (row : TimeNode) : Prop
  | year {j ns : ℕ} (h : Placed .year j ns row) (hroot : row.parentId = none)
  | quarter {j ns : ℕ} {parent : TimeNode} (h : Placed .quarter j ns row)
      (hmem : parent ∈ rows) (hlink : row.parentId = some parent.id)
      (hparent : Placed .year (j/4) ns parent)
  | month {j ns : ℕ} {parent : TimeNode} (h : Placed .month j ns row)
      (hmem : parent ∈ rows) (hlink : row.parentId = some parent.id)
      (hparent : Placed .quarter (j/3) ns parent)
  | week {j i ns : ℕ} {parent : TimeNode} (h : Placed .week j ns row)
      (hmem : parent ∈ rows) (hlink : row.parentId = some parent.id)
      (hparent : Placed .month i ns parent)
      (hmonday : parent.startTime ≤ row.startTime ∧ row.startTime < parent.endTime)
  | day {n : ℕ} {ahead : ℤ} {parent : TimeNode} (hahead : W ahead)
      (hday : row.granularity = .day) (hstart : row.startTime = midnight n-ahead)
      (hend : row.endTime = row.startTime+dayMicros)
      (hmem : parent ∈ rows) (hlink : row.parentId = some parent.id)
      (hparent : Placed .week (n/7) row.namespaceId parent)

def samePlace (a b : TimeNode) : Prop :=
  a.namespaceId = b.namespaceId ∧ a.granularity = b.granularity ∧ a.startTime = b.startTime

structure Tree (W : ℤ → Prop) (rows : List TimeNode) : Prop where
  ids : rows.map TimeNode.id = List.range rows.length
  unique : rows.Pairwise (fun a b => ¬ samePlace a b)
  shaped : ∀ row ∈ rows, Shaped W rows row

/-- The rows stay, and what is added has a rank of at most `m`. -/
def Grows (m : ℕ) (rows rows' : List TimeNode) : Prop :=
  rows ⊆ rows' ∧ ∀ row ∈ rows', row ∈ rows ∨ rank row.granularity ≤ m

variable {W : ℤ → Prop} {rows rows' rows'' : List TimeNode} {namespaceId : ℕ}

theorem Grows.refl (m : ℕ) (rows : List TimeNode) : Grows m rows rows :=
  ⟨List.Subset.refl rows, fun _ h => .inl h⟩

theorem Grows.trans {m n k : ℕ} (h : Grows m rows rows') (h' : Grows n rows' rows'')
    (hm : m ≤ k) (hn : n ≤ k) : Grows k rows rows'' := by
  refine ⟨fun row hr => h'.1 (h.1 hr), fun row hr => ?_⟩
  rcases h'.2 row hr with hold | hnew
  · exact (h.2 row hold).imp id (fun hle => hle.trans hm)
  · exact .inr (hnew.trans hn)

theorem Shaped.mono {row : TimeNode} (h : Shaped W rows row) (hsub : rows ⊆ rows') :
    Shaped W rows' row := by
  cases h with
  | year h hroot => exact .year h hroot
  | quarter h hmem hlink hparent => exact .quarter h (hsub hmem) hlink hparent
  | month h hmem hlink hparent => exact .month h (hsub hmem) hlink hparent
  | week h hmem hlink hparent hmonday => exact .week h (hsub hmem) hlink hparent hmonday
  | day hahead hday hstart hend hmem hlink hparent =>
    exact .day hahead hday hstart hend (hsub hmem) hlink hparent

theorem Shaped.placed {row : TimeNode} (h : Shaped W rows row) (hday : row.granularity ≠ .day) :
    ∃ j, Placed row.granularity j row.namespaceId row := by
  cases h with
  | year h hroot => exact ⟨_, by rw [h.granularity_eq, h.namespace_eq]; exact h⟩
  | quarter h => exact ⟨_, by rw [h.granularity_eq, h.namespace_eq]; exact h⟩
  | month h => exact ⟨_, by rw [h.granularity_eq, h.namespace_eq]; exact h⟩
  | week h => exact ⟨_, by rw [h.granularity_eq, h.namespace_eq]; exact h⟩
  | day _ h => exact absurd h hday

theorem getNode_some {g : Granularity} {start : ℤ} {node : TimeNode}
    (h : getNode rows namespaceId g start = some node) :
    node ∈ rows ∧ node.namespaceId = namespaceId ∧ node.granularity = g ∧
      node.startTime = start := by
  have hfound := List.find?_some h
  exact ⟨List.mem_of_find?_eq_some h, of_decide_eq_true hfound⟩

theorem getNode_none {g : Granularity} {start : ℤ}
    (h : getNode rows namespaceId g start = none) (row : TimeNode) (hr : row ∈ rows) :
    ¬ (row.namespaceId = namespaceId ∧ row.granularity = g ∧ row.startTime = start) := by
  have hnot := List.find?_eq_none.mp h row hr
  simpa using hnot

theorem Tree.create (ht : Tree W rows) {node : TimeNode} (hid : node.id = rows.length)
    (hs : Shaped W rows node) (hfresh : ∀ row ∈ rows, ¬ samePlace row node) :
    Tree W (rows++[node]) := by
  have hsub : rows ⊆ rows++[node] := List.subset_append_left rows [node]
  constructor
  · rw [List.map_append, ht.ids, List.length_append, List.length_singleton, List.range_succ]
    simp [hid]
  · rw [List.pairwise_append]
    exact ⟨ht.unique, List.pairwise_singleton _ _, by simpa using hfresh⟩
  · intro row hr
    rcases List.mem_append.mp hr with hold | hnew
    · exact (ht.shaped row hold).mono hsub
    · rw [List.mem_singleton.mp hnew]
      exact hs.mono hsub

theorem createNode_spec {m : ℕ} {g : Granularity} {start stop : ℤ} {parentId : Option ℕ}
    (ht : Tree W rows') (hg : Grows m rows rows') (hm : m < rank g)
    (hnone : getNode rows namespaceId g start = none)
    (hs : Shaped W rows' ⟨rows'.length,namespaceId,g,start,stop,parentId⟩) :
    Tree W (createNode rows' namespaceId g start stop parentId).2 ∧
      Grows (rank g) rows (createNode rows' namespaceId g start stop parentId).2 := by
  refine ⟨ht.create rfl hs (fun row hr hsame => ?_), fun row hr => ?_, fun row hr => ?_⟩
  · rcases hg.2 row hr with hold | hnew
    · exact getNode_none hnone row hold hsame
    · have heq : row.granularity = g := hsame.2.1
      rw [heq] at hnew
      omega
  · exact List.mem_append_left _ (hg.1 hr)
  · rcases List.mem_append.mp hr with hold | hlast
    · exact (hg.2 row hold).imp id (fun hle => hle.trans hm.le)
    · rw [List.mem_singleton.mp hlast]
      exact .inr le_rfl

/-- What ensuring a node does: the tree stays one, it grows by nodes that are
not finer, and the answer is the node of the place. -/
structure Ensures (W : ℤ → Prop) (rows : List TimeNode) (g : Granularity) (j namespaceId : ℕ)
    (out : TimeNode × List TimeNode) : Prop where
  tree : Tree W out.2
  grows : Grows (rank g) rows out.2
  mem : out.1 ∈ out.2
  placed : Placed g j namespaceId out.1

theorem ensures_existing (ht : Tree W rows) {g : Granularity} (hg : g ≠ .day) {j : ℕ} {start : ℤ}
    {node : TimeNode} (h : getNode rows namespaceId g start = some node)
    (hstart : start = marks g (size g*j)) : Ensures W rows g j namespaceId (node,rows) := by
  obtain ⟨hmem, hns, hgran, hst⟩ := getNode_some h
  obtain ⟨i, hi⟩ := (ht.shaped node hmem).placed (by rw [hgran]; exact hg)
  rw [hgran, hns] at hi
  have hij : i = j := block_inj (marks_mono g) (size_pos g) (by rw [← hi.start_eq, hst, hstart])
  exact ⟨ht, .refl _ _, hmem, hij ▸ hi⟩

theorem year_marks (d : Date) (hd : d.Valid) :
    midnight (dayNumber d.year 1 1) = marks .year (size .year*(d.monthIndex/12)) ∧
      midnight (dayNumber (d.year+1) 1 1) = marks .year (size .year*(d.monthIndex/12+1)) := by
  have hy := hd.1
  have hm := hd.2.1
  have hlow : 12*(d.monthIndex/12) = 12*(d.year-1)+0 := by unfold Date.monthIndex; omega
  have hhigh : 12*(d.monthIndex/12+1) = 12*d.year := by unfold Date.monthIndex; omega
  simp only [marks, size]
  refine ⟨?_, ?_⟩
  · rw [hlow, monthFirst_index d hd (by omega)]
  · simp only [hhigh, monthFirst, Nat.mul_div_cancel_left d.year (show 0 < 12 by omega),
      Nat.mul_mod_right, Nat.zero_add]

theorem quarter_marks (d : Date) (hd : d.Valid) :
    midnight (dayNumber d.year (((d.month-1)/3+1-1)*3+1) 1) =
        marks .quarter (size .quarter*(d.monthIndex/3)) ∧
      (if (d.month-1)/3+1 = 4 then midnight (dayNumber (d.year+1) 1 1)
        else midnight (dayNumber d.year (((d.month-1)/3+1-1)*3+1+3) 1)) =
        marks .quarter (size .quarter*(d.monthIndex/3+1)) := by
  have hy := hd.1
  have hm := hd.2.1
  have hlow : 3*(d.monthIndex/3) = 12*(d.year-1)+((d.month-1)/3+1-1)*3 := by
    unfold Date.monthIndex
    omega
  have hhigh : 3*(d.monthIndex/3+1) = 12*(d.year-1)+(((d.month-1)/3+1-1)*3+3) := by
    unfold Date.monthIndex
    omega
  refine ⟨?_, ?_⟩
  · simp only [marks, size]
    rw [hlow, monthFirst_index d hd (by omega)]
  · split_ifs with h4
    · rw [(year_marks d hd).2]
      simp only [marks, size]
      have hyear : 12*(d.monthIndex/12+1) = 3*(d.monthIndex/3+1) := by
        unfold Date.monthIndex at *
        omega
      rw [hyear]
    · simp only [marks, size]
      rw [hhigh, monthFirst_index d hd (by omega)]

theorem month_marks (d : Date) (hd : d.Valid) :
    midnight (dayNumber d.year d.month 1) = marks .month (size .month*d.monthIndex) ∧
      midnight (dayNumber d.year d.month 1)+daysInMonth d.year d.month*dayMicros =
        marks .month (size .month*(d.monthIndex+1)) := by
  have hm := hd.2.1
  have hfirst := monthFirst_index d hd (show d.month-1 < 12 by omega)
  rw [Nat.sub_add_cancel hm.1] at hfirst
  have hnext := (date_in_month d hd).2.2.2
  simp only [marks, size, Nat.one_mul]
  rw [hnext, ← hfirst]
  refine ⟨rfl, ?_⟩
  simp only [Date.monthIndex, midnight]
  push_cast
  ring

theorem ensureYearNode_spec (ht : Tree W rows) (namespaceId : ℕ) (d : Date)
    (hd : d.Valid) :
    Ensures W rows .year (d.monthIndex/12) namespaceId (ensureYearNode rows namespaceId d) := by
  obtain ⟨hstart, hend⟩ := year_marks d hd
  unfold ensureYearNode
  simp only
  cases hn : getNode rows namespaceId .year (midnight (dayNumber d.year 1 1)) with
  | some existing => exact ensures_existing ht (by decide) hn hstart
  | none =>
    have hplaced : Placed .year (d.monthIndex/12) namespaceId
        ⟨rows.length,namespaceId,.year,midnight (dayNumber d.year 1 1),
          midnight (dayNumber (d.year+1) 1 1),none⟩ := ⟨rfl, rfl, hstart, hend⟩
    refine ⟨ht.create rfl (.year hplaced rfl) (getNode_none hn), ⟨?_, ?_⟩, ?_, hplaced⟩
    · exact List.subset_append_left _ _
    · intro row hr
      refine (List.mem_append.mp hr).imp id (fun hlast => ?_)
      rw [List.mem_singleton.mp hlast]
    · exact List.mem_append_right _ (List.mem_singleton_self _)

/-- A node created under a parent that was ensured first. -/
theorem ensures_created {g g' : Granularity} {j i : ℕ} {start stop : ℤ}
    {parent : TimeNode × List TimeNode} (hparent : Ensures W rows g' i namespaceId parent)
    (hrank : rank g' < rank g) (hnone : getNode rows namespaceId g start = none)
    (hstart : start = marks g (size g*j)) (hend : stop = marks g (size g*(j+1)))
    (hs : ∀ row, Placed g j namespaceId row → row.parentId = some parent.1.id →
      Shaped W parent.2 row) :
    Ensures W rows g j namespaceId
      (createNode parent.2 namespaceId g start stop (some parent.1.id)) := by
  have hplaced : Placed g j namespaceId
      ⟨parent.2.length,namespaceId,g,start,stop,some parent.1.id⟩ := ⟨rfl, rfl, hstart, hend⟩
  obtain ⟨htree, hgrows⟩ := createNode_spec hparent.tree hparent.grows hrank hnone
    (hs _ hplaced rfl)
  exact ⟨htree, hgrows, List.mem_append_right _ (List.mem_singleton_self _), hplaced⟩

theorem ensureQuarterNode_spec (ht : Tree W rows) (namespaceId : ℕ) (d : Date)
    (hd : d.Valid) :
    Ensures W rows .quarter (d.monthIndex/3) namespaceId
      (ensureQuarterNode rows namespaceId d) := by
  obtain ⟨hstart, hend⟩ := quarter_marks d hd
  unfold ensureQuarterNode
  simp only
  cases hn : getNode rows namespaceId .quarter
      (midnight (dayNumber d.year (((d.month-1)/3+1-1)*3+1) 1)) with
  | some existing => exact ensures_existing ht (by decide) hn hstart
  | none =>
    have hyear : Ensures W rows .year (d.monthIndex/3/4) namespaceId
        (ensureYearNode rows namespaceId d) := by
      rw [Nat.div_div_eq_div_mul]
      exact ensureYearNode_spec ht namespaceId d hd
    exact ensures_created hyear (by decide) hn hstart hend
      (fun row hrow hlink => .quarter hrow hyear.mem hlink hyear.placed)

theorem ensureMonthNode_spec (ht : Tree W rows) (namespaceId : ℕ) (d : Date)
    (hd : d.Valid) :
    Ensures W rows .month d.monthIndex namespaceId (ensureMonthNode rows namespaceId d) := by
  obtain ⟨hstart, hend⟩ := month_marks d hd
  unfold ensureMonthNode
  simp only
  cases hn : getNode rows namespaceId .month (midnight (dayNumber d.year d.month 1)) with
  | some existing => exact ensures_existing ht (by decide) hn hstart
  | none =>
    have hquarter := ensureQuarterNode_spec ht namespaceId d hd
    exact ensures_created hquarter (by decide) hn hstart hend
      (fun row hrow hlink => .month hrow hquarter.mem hlink hquarter.placed)

theorem monday_eq (n : ℕ) : monday n = 7*(n/7) := by
  unfold monday
  omega

theorem week_marks (n : ℕ) : midnight (monday n) = marks .week (size .week*(n/7)) ∧
    midnight (monday n)+7*dayMicros = marks .week (size .week*(n/7+1)) := by
  rw [monday_eq]
  refine ⟨rfl, ?_⟩
  simp only [marks, size, midnight]
  push_cast
  ring

theorem ensureWeekNode_spec (ht : Tree W rows) (namespaceId : ℕ) (d : Date) :
    Ensures W rows .week (d.number/7) namespaceId (ensureWeekNode rows namespaceId d) := by
  obtain ⟨hstart, hend⟩ := week_marks d.number
  unfold ensureWeekNode
  simp only
  cases hn : getNode rows namespaceId .week (midnight (monday d.number)) with
  | some existing => exact ensures_existing ht (by decide) hn hstart
  | none =>
    have hvalid := dateOf_valid (monday d.number)
    have hmonth := ensureMonthNode_spec ht namespaceId _ hvalid
    refine ensures_created hmonth (by decide) hn hstart hend
      (fun row hrow hlink => .week hrow hmonth.mem hlink hmonth.placed ?_)
    obtain ⟨hlow, hhigh, -⟩ := date_in_month _ hvalid
    rw [dateOf_number] at hlow hhigh
    rw [hmonth.placed.start_eq, hmonth.placed.end_eq, hrow.start_eq, ← hstart]
    simp only [marks, size, Nat.one_mul]
    exact ⟨midnight_mono.monotone hlow, midnight_mono hhigh⟩

theorem Stamp.valid (dt : Stamp) : dt.date.Valid := by
  obtain ⟨hy, hm, hd, -⟩ := dt.value.clock.valid
  exact ⟨hy.1, hm, hd⟩

theorem day_node_spec (ht : Tree W rows) (namespaceId : ℕ) (dt : Stamp) (hW : W dt.ahead) :
    Tree W (getOrCreateDayNode rows namespaceId dt).2 ∧
      (getOrCreateDayNode rows namespaceId dt).1 ∈
        (getOrCreateDayNode rows namespaceId dt).2 ∧
      (getOrCreateDayNode rows namespaceId dt).1.namespaceId = namespaceId ∧
      (getOrCreateDayNode rows namespaceId dt).1.granularity = .day ∧
      (getOrCreateDayNode rows namespaceId dt).1.startTime = dt.dayStart := by
  unfold getOrCreateDayNode
  simp only
  cases hn : getNode rows namespaceId .day dt.dayStart with
  | some existing =>
    obtain ⟨hmem, hns, hgran, hstart⟩ := getNode_some hn
    exact ⟨ht, hmem, hns, hgran, hstart⟩
  | none =>
    have hweek := ensureWeekNode_spec ht namespaceId dt.date
    have hmonth := ensureMonthNode_spec hweek.tree namespaceId _ dt.valid
    have hquarter := ensureQuarterNode_spec hmonth.tree namespaceId _ dt.valid
    have hyear := ensureYearNode_spec hquarter.tree namespaceId _ dt.valid
    have hgrows : Grows 3 rows _ := ((hweek.grows.trans hmonth.grows le_rfl (by decide)).trans
      hquarter.grows le_rfl (by decide)).trans hyear.grows le_rfl (by decide)
    have hsub := hyear.grows.1 (hquarter.grows.1 (hmonth.grows.1 hweek.mem))
    refine ⟨(createNode_spec hyear.tree hgrows (by decide) hn ?_).1, ?_, rfl, rfl, rfl⟩
    · exact .day hW rfl rfl rfl hsub rfl hweek.placed
    · exact List.mem_append_right _ (List.mem_singleton_self _)

theorem Tree.parent_eq (ht : Tree W rows) {a b : TimeNode} (ha : a ∈ rows) (hb : b ∈ rows)
    (h : a.id = b.id) : a = b := by
  have hnodup : (rows.map TimeNode.id).Nodup := by
    rw [ht.ids]
    exact List.nodup_range
  exact List.inj_on_of_nodup_map hnodup ha hb h

def within (row parent : TimeNode) : Prop :=
  parent.startTime ≤ row.startTime ∧ row.endTime ≤ parent.endTime

instance (row parent : TimeNode) : Decidable (within row parent) := by
  unfold within
  infer_instance

def apart (a b : TimeNode) : Prop := a.endTime ≤ b.startTime ∨ b.endTime ≤ a.startTime

def above : Granularity → Option Granularity
  | .year => none
  | .quarter => some .year
  | .month => some .quarter
  | .week => some .month
  | .day => some .week

/-- The tree above its days: one node for each place, a parent for each node
that is not a year, quarters within years and months within quarters, each
week begun in its month, and no overlap. -/
structure Hierarchy (rows : List TimeNode) : Prop where
  one : rows.Pairwise (fun a b => ¬ samePlace a b)
  rooted : ∀ row ∈ rows, ∀ g, above row.granularity = some g → ∃ parent ∈ rows,
    row.parentId = some parent.id ∧ parent.namespaceId = row.namespaceId ∧
      parent.granularity = g
  nested : ∀ row ∈ rows, ∀ parent ∈ rows, row.parentId = some parent.id →
    row.granularity = .quarter ∨ row.granularity = .month → within row parent
  begun : ∀ row ∈ rows, ∀ parent ∈ rows, row.parentId = some parent.id →
    row.granularity = .week →
      parent.startTime ≤ row.startTime ∧ row.startTime < parent.endTime
  separate : rows.Pairwise (fun a b => a.namespaceId = b.namespaceId →
    a.granularity = b.granularity → a.granularity ≠ .day → apart a b)

/-- The days lie within their weeks and do not overlap. -/
structure Days (rows : List TimeNode) : Prop where
  nested : ∀ row ∈ rows, ∀ parent ∈ rows, row.parentId = some parent.id →
    row.granularity = .day → within row parent
  separate : rows.Pairwise (fun a b => a.namespaceId = b.namespaceId →
    a.granularity = b.granularity → a.granularity = .day → apart a b)

theorem placed_apart {g : Granularity} {i j n m : ℕ} {a b : TimeNode} (ha : Placed g i n a)
    (hb : Placed g j m b) (hne : a.startTime ≠ b.startTime) : apart a b := by
  have hij : i ≠ j := by
    rintro rfl
    exact hne (ha.start_eq.trans hb.start_eq.symm)
  unfold apart
  rw [ha.start_eq, ha.end_eq, hb.start_eq, hb.end_eq]
  exact block_apart (marks_mono g).monotone (size g) hij

theorem placed_within {g g' : Granularity} {j d n m : ℕ} {row parent : TimeNode}
    (hrow : Placed g j n row) (hparent : Placed g' (j/d) m parent) (hmarks : marks g' = marks g)
    (hsize : size g' = size g*d) (hd : 0 < d) : within row parent := by
  unfold within
  rw [hrow.start_eq, hrow.end_eq, hparent.start_eq, hparent.end_eq, hmarks, hsize]
  exact block_within (marks_mono g).monotone (size g) j hd

theorem Tree.rooted (ht : Tree W rows) {row : TimeNode} (hr : row ∈ rows) {g : Granularity}
    (hg : above row.granularity = some g) : ∃ parent ∈ rows, row.parentId = some parent.id ∧
      parent.namespaceId = row.namespaceId ∧ parent.granularity = g := by
  cases ht.shaped row hr with
  | year h hroot =>
    rw [h.granularity_eq] at hg
    cases hg
  | quarter h hmem hlink hp | month h hmem hlink hp | week h hmem hlink hp =>
    rw [h.granularity_eq] at hg
    exact ⟨_, hmem, hlink, hp.namespace_eq.trans h.namespace_eq.symm,
      hp.granularity_eq.trans (Option.some.inj hg)⟩
  | day _ hday _ _ hmem hlink hp =>
    rw [hday] at hg
    exact ⟨_, hmem, hlink, hp.namespace_eq, hp.granularity_eq.trans (Option.some.inj hg)⟩

theorem Tree.nested (ht : Tree W rows) {row parent : TimeNode} (hr : row ∈ rows)
    (hp : parent ∈ rows) (hlink : row.parentId = some parent.id)
    (hg : row.granularity = .quarter ∨ row.granularity = .month) : within row parent := by
  cases ht.shaped row hr with
  | year h => simp [h.granularity_eq] at hg
  | week h => simp [h.granularity_eq] at hg
  | day _ h => simp [h] at hg
  | @quarter j ns p h hmem hlink' hplaced =>
    rw [hlink'] at hlink
    rw [← ht.parent_eq hmem hp (Option.some.inj hlink)]
    exact placed_within h hplaced rfl rfl (by decide)
  | @month j ns p h hmem hlink' hplaced =>
    rw [hlink'] at hlink
    rw [← ht.parent_eq hmem hp (Option.some.inj hlink)]
    exact placed_within h hplaced rfl rfl (by decide)

theorem Tree.begun (ht : Tree W rows) {row parent : TimeNode} (hr : row ∈ rows)
    (hp : parent ∈ rows) (hlink : row.parentId = some parent.id)
    (hg : row.granularity = .week) :
    parent.startTime ≤ row.startTime ∧ row.startTime < parent.endTime := by
  cases ht.shaped row hr with
  | year h | quarter h | month h => simp [h.granularity_eq] at hg
  | day _ h => simp [h] at hg
  | week h hmem hlink' hplaced hmonday =>
    rw [hlink'] at hlink
    rw [← ht.parent_eq hmem hp (Option.some.inj hlink)]
    exact hmonday

theorem Tree.hierarchy (ht : Tree W rows) : Hierarchy rows := by
  refine ⟨ht.unique, fun row hr g => ht.rooted hr, fun row hr p hp => ht.nested hr hp,
    fun row hr p hp => ht.begun hr hp, ?_⟩
  refine ht.unique.imp_of_mem (fun {a b} ha hb hsame hns hg hday => ?_)
  obtain ⟨i, hi⟩ := (ht.shaped a ha).placed hday
  obtain ⟨j, hj⟩ := (ht.shaped b hb).placed (hg ▸ hday)
  rw [← hg] at hj
  exact placed_apart hi hj (fun he => hsame ⟨hns, hg, he⟩)

/-- With the clocks at UTC a day is a block of its own. -/
theorem day_placed {row : TimeNode} (hs : Shaped (fun ahead => ahead = 0) rows row)
    (hday : row.granularity = .day) : ∃ n, Placed .day n row.namespaceId row ∧ ∃ parent ∈ rows,
      row.parentId = some parent.id ∧ Placed .week (n/7) row.namespaceId parent := by
  cases hs with
  | year h | quarter h | month h | week h => simp [h.granularity_eq] at hday
  | @day n ahead parent hahead _ hstart hend hmem hlink hparent =>
    have hzero : row.startTime = midnight n := by rw [hstart, hahead, sub_zero]
    refine ⟨n, ⟨rfl, hday, ?_, ?_⟩, parent, hmem, hlink, hparent⟩
    · simpa [marks, size] using hzero
    · rw [hend, hzero]
      simp only [marks, size, midnight]
      push_cast
      ring

theorem Tree.days (ht : Tree (fun ahead => ahead = 0) rows) : Days rows := by
  constructor
  · intro row hr parent hp hlink hday
    obtain ⟨n, hrow, p, hmem, hlink', hplaced⟩ := day_placed (ht.shaped row hr) hday
    rw [hlink'] at hlink
    rw [← ht.parent_eq hmem hp (Option.some.inj hlink)]
    exact placed_within hrow hplaced rfl rfl (by decide)
  · refine ht.unique.imp_of_mem (fun {a b} ha hb hsame hns hg hday => ?_)
    obtain ⟨i, hi, -⟩ := day_placed (ht.shaped a ha) hday
    obtain ⟨j, hj, -⟩ := day_placed (ht.shaped b hb) (hg ▸ hday)
    exact placed_apart hi hj (fun he => hsame ⟨hns, hg, he⟩)

def step (rows : List TimeNode) (call : ℕ × Stamp) : Option (List TimeNode) :=
  some (getOrCreateDayNode rows call.1 call.2).2

theorem tree_nil : Tree W [] := ⟨rfl, .nil, fun _ h => nomatch h⟩

theorem step_tree (rows : List TimeNode) (call : ℕ × Stamp) (rows' : List TimeNode)
    (ht : Tree W rows) (hW : W call.2.ahead) (h : step rows call = some rows') : Tree W rows' := by
  rw [← Option.some.inj h]
  exact (day_node_spec ht call.1 call.2 hW).1

def answers (rows : List TimeNode) (call : ℕ × Stamp) : Prop :=
  let node := (getOrCreateDayNode rows call.1 call.2).1
  node.namespaceId = call.1 ∧ node.granularity = .day ∧
    node.startTime ≤ call.2.instant ∧ call.2.instant < node.endTime

theorem Stamp.instant_in_day (dt : Stamp) :
    dt.dayStart ≤ dt.instant ∧ dt.instant < dt.dayStart+dayMicros := by
  obtain ⟨-, -, -, hh, hmi, hs, hf⟩ := dt.value.clock.valid
  unfold Stamp.instant Stamp.dayStart midnight dayMicros
  rw [toMicros_eq]
  simp only [Stamp.date, Date.number]
  omega

theorem tree_answers (rows : List TimeNode) (call : ℕ × Stamp) (ht : Tree (fun _ => True) rows) :
    answers rows call := by
  obtain ⟨htree, hmem, hns, hday, hstart⟩ := day_node_spec ht call.1 call.2 trivial
  have hin := call.2.instant_in_day
  refine ⟨hns, hday, hstart ▸ hin.1, ?_⟩
  cases htree.shaped _ hmem with
  | year h | quarter h | month h | week h =>
    rw [h.granularity_eq] at hday
    cases hday
  | day _ _ _ hend =>
    rw [hend, hstart]
    exact hin.2

theorem getCoveringNode_some {start stop : ℤ}
    (h : ∃ row ∈ rows, covers namespaceId start stop row = true) :
    ∃ row ∈ rows, getCoveringNode rows namespaceId start stop = some row ∧
      covers namespaceId start stop row = true := by
  obtain ⟨row, hr, hcover⟩ := h
  have hfind : (getCoveringNode rows namespaceId start stop).isSome = true := by
    rw [getCoveringNode, List.isSome_findSome?]
    refine List.any_eq_true.mpr ⟨row.granularity, ?_, ?_⟩
    · cases row.granularity <;> decide
    · rw [List.find?_isSome]
      exact ⟨row, hr, by simpa using hcover⟩
  obtain ⟨found, hfound⟩ := Option.isSome_iff_exists.mp hfind
  obtain ⟨g, -, hg⟩ := List.exists_of_findSome?_eq_some hfound
  have hp := List.find?_some hg
  simp only [decide_eq_true_eq] at hp
  exact ⟨found, List.mem_of_find?_eq_some hg, hfound, hp.2⟩

/-- Over every run of calls the hierarchy holds above the days; with every
clock at UTC the days fit into it. Each call answers the day that its
timestamp is in, and a range that some node covers gets a node that covers it. -/
theorem hierarchy_of_calls (calls : List (ℕ × Stamp)) :
    Machine.Always step Hierarchy [] calls ∧
      ((∀ call ∈ calls, call.2.ahead = 0) → Machine.Always step Days [] calls) ∧
      Machine.Meets step answers [] calls ∧
      ∀ (rows : List TimeNode) (namespaceId : ℕ) (start stop : ℤ),
        (∃ row ∈ rows, covers namespaceId start stop row = true) →
          ∃ row ∈ rows, getCoveringNode rows namespaceId start stop = some row ∧
            covers namespaceId start stop row = true := by
  have hall : Machine.Meets step (fun _ _ => True) [] calls := Machine.meets_trivial calls []
  refine ⟨?_, fun hutc => ?_, ?_, fun _ _ _ _ => getCoveringNode_some⟩
  · exact Machine.always_of_invariant (step_tree (W := fun _ => True))
      (fun _ ht => ht.hierarchy) calls [] tree_nil hall
  · have hmeets : Machine.Meets step (fun _ call => call.2.ahead = 0) [] calls :=
      Machine.meets_of_forall calls [] hutc
    exact Machine.always_of_invariant (step_tree (W := fun ahead => ahead = 0))
      (fun _ ht => ht.days) calls [] tree_nil hmeets
  · exact Machine.meets_of_invariant (step_tree (W := fun _ => True))
      (fun rows call ht _ => tree_answers rows call ht) calls [] tree_nil hall

namespace CrossingWeek

def stamp : Stamp where
  value := (UtcTime.mk ⟨2024,1,31,12,0,0,0⟩ (by decide)).aware
  representable := by decide

theorem not_within : ¬ Machine.Always step (fun rows => ∀ row ∈ rows, ∀ parent ∈ rows,
    row.parentId = some parent.id → within row parent) [] [(0,stamp)] := by
  intro h
  have hlast := Machine.always_last _ _ h (t := (getOrCreateDayNode [] 0 stamp).2) rfl
  revert hlast
  decide

end CrossingWeek

end Uru.Skeleton.TimeHierarchy
