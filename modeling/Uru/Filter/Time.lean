import Mathlib.Data.List.Lex
import Mathlib.Data.List.TakeWhile
import Mathlib.Tactic
import Uru.Lib.Json

/-!
# Python text and datetimes

A Python string is a list of code points, surrogates included, ordered code
point by code point. A datetime is its calendar fields with an optional offset
from UTC; without an offset it is naive. `isoformat` writes the fields with a
fixed number of digits, so that for datetimes in UTC the order of the texts is
the order of the datetimes. `fromisoformat` reads the formats that Python 3.13
reads, and `astimezone` fails where the result leaves the years 1 to 9999.
-/

set_option autoImplicit false

namespace Uru.Filter

open Uru.Lib

abbrev CodePoint := Letter

abbrev PyStr := List CodePoint

def point (c : Char) : CodePoint := letter c

def py (s : String) : PyStr := s.toList.map point

structure Civil where
  year : ℕ
  month : ℕ
  day : ℕ
  hour : ℕ
  minute : ℕ
  second : ℕ
  micro : ℕ
deriving DecidableEq

def isLeap (y : ℕ) : Bool := y%4 = 0 ∧ (y%100 ≠ 0 ∨ y%400 = 0)

def daysInMonth (y m : ℕ) : ℕ :=
  if m = 2 then (if isLeap y then 29 else 28)
  else if m = 4 ∨ m = 6 ∨ m = 9 ∨ m = 11 then 30 else 31

def Civil.Valid (c : Civil) : Prop :=
  (1 ≤ c.year ∧ c.year ≤ 9999) ∧ (1 ≤ c.month ∧ c.month ≤ 12) ∧
    (1 ≤ c.day ∧ c.day ≤ daysInMonth c.year c.month) ∧
    c.hour < 24 ∧ c.minute < 60 ∧ c.second < 60 ∧ c.micro < 1000000

instance (c : Civil) : Decidable c.Valid := by unfold Civil.Valid; infer_instance

structure UtcTime where
  civil : Civil
  valid : civil.Valid
deriving DecidableEq

structure Offset where
  micros : ℤ
  small : micros.natAbs < 86400000000
deriving DecidableEq

def Offset.zero : Offset := ⟨0, by decide⟩

/-- The fields as the clock of the place shows them, and how far that clock is
ahead of UTC, if known. -/
structure DateTime where
  clock : UtcTime
  offset : Option Offset
deriving DecidableEq

def UtcTime.aware (u : UtcTime) : DateTime := ⟨u, some Offset.zero⟩

def Civil.fields (c : Civil) : List ℕ :=
  [c.year,c.month,c.day,c.hour,c.minute,c.second,c.micro]

def UtcTime.fields (u : UtcTime) : List ℕ := u.civil.fields

theorem UtcTime.fields_inj {u v : UtcTime} (h : u.fields = v.fields) : u = v := by
  rcases u with ⟨⟨_, _, _, _, _, _, _⟩, _⟩
  rcases v with ⟨⟨_, _, _, _, _, _, _⟩, _⟩
  simp only [UtcTime.fields, Civil.fields, List.cons.injEq, and_true] at h
  obtain ⟨rfl, rfl, rfl, rfl, rfl, rfl, rfl⟩ := h
  rfl

def daysBeforeYear (y : ℕ) : ℕ := 365*(y-1)+(y-1)/4-(y-1)/100+(y-1)/400

def daysBeforeMonth (y m : ℕ) : ℕ := ((List.range (m-1)).map (fun k => daysInMonth y (k+1))).sum

/-- Microseconds since the first of January of the year 1. -/
def Civil.toMicros (c : Civil) : ℤ :=
  (((daysBeforeYear c.year+daysBeforeMonth c.year c.month+(c.day-1))*24+c.hour)*60+c.minute:ℕ)*60000000
    +c.second*1000000+c.micro

def monthDay (y : ℕ) : ℕ → ℕ → ℕ → ℕ × ℕ
  | 0, m, d => (m,d+1)
  | n+1, m, d => if d < daysInMonth y m then (m,d+1) else monthDay y n (m+1) (d-daysInMonth y m)

/-- The date of a day counted from zero at the first of January of the year 1. -/
def ofDays (n : ℕ) : ℕ × ℕ × ℕ :=
  let n400 := n/146097
  let n := n%146097
  let n100 := min (n/36524) 3
  let n := n-36524*n100
  let n4 := n/1461
  let n := n%1461
  let n1 := min (n/365) 3
  let n := n-365*n1
  let y := n400*400+n100*100+n4*4+n1+1
  let md := monthDay y 11 1 n
  (y,md.1,md.2)

def Civil.ofMicros (t : ℕ) : Civil :=
  let d := ofDays (t/86400000000)
  let s := t%86400000000
  { year := d.1, month := d.2.1, day := d.2.2, hour := s/3600000000,
    minute := s/60000000%60, second := s/1000000%60, micro := s%1000000 }

/-- `astimezone(UTC)`, or reading a naive datetime as UTC; `none` where Python
raises because the result has no year between 1 and 9999. -/
def DateTime.toUtc (d : DateTime) : Option UtcTime :=
  match d.offset with
  | none => some d.clock
  | some o =>
    if o.micros = 0 then some d.clock
    else
      let t := d.clock.civil.toMicros-o.micros
      if h : 0 ≤ t ∧ (Civil.ofMicros t.toNat).Valid then some ⟨Civil.ofMicros t.toNat, h.2⟩
      else none

@[simp] theorem UtcTime.aware_toUtc (u : UtcTime) : u.aware.toUtc = some u := rfl

def digit (n : ℕ) : CodePoint := ⟨48+n%10, by omega⟩

def pad : ℕ → ℕ → PyStr
  | 0, _ => []
  | k+1, n => pad k (n/10)++[digit n]

def fraction (n : ℕ) : PyStr := if n = 0 then [] else point '.' ::pad 6 n

def Civil.isoformat (c : Civil) : PyStr :=
  pad 4 c.year++point '-' ::(pad 2 c.month++point '-' ::(pad 2 c.day++point 'T' ::
    (pad 2 c.hour++point ':' ::(pad 2 c.minute++point ':' ::(pad 2 c.second++fraction c.micro)))))

def Offset.isoformat (o : Offset) : PyStr :=
  let n := o.micros.natAbs
  let s := n/1000000
  (if o.micros < 0 then point '-' else point '+')::(pad 2 (s/3600)++point ':' ::(pad 2 (s/60%60)++
    (if n%60000000 = 0 then [] else point ':' ::(pad 2 (s%60)++fraction (n%1000000)))))

def DateTime.isoformat (d : DateTime) : PyStr :=
  d.clock.civil.isoformat++(d.offset.elim [] Offset.isoformat)

def UtcTime.isoformat (u : UtcTime) : PyStr := u.aware.isoformat

def isDigit (c : CodePoint) : Bool := 48 ≤ c.val ∧ c.val ≤ 57

def readDigits (k : ℕ) (s : PyStr) : Option (ℕ × PyStr) :=
  if (s.take k).length = k ∧ (s.take k).all isDigit then
    some ((s.take k).foldl (fun n c => 10*n+(c.val-48)) 0,s.drop k)
  else none

def separatorAt (s : PyStr) : Option ℕ :=
  let at' (n : ℕ) : Char → Bool := fun c => s[n]? = some (point c)
  if s.length = 7 then some 7
  else if at' 4 '-' then
    if at' 5 'W' then
      if s.length < 8 then none
      else if at' 8 '-' then
        if s.length = 9 then none
        else if s[10]?.any isDigit then some 8 else some 10
      else some 8
    else some 10
  else if at' 4 'W' then
    let n := 7+((s.drop 7).takeWhile isDigit).length
    if n < 9 then some n else if n%2 = 0 then some 7 else some 8
  else some 8

def isoWeekDate (y w d : ℕ) : Option (ℕ × ℕ × ℕ) :=
  let first := daysBeforeYear y
  let weekday := first%7
  if 1 ≤ y ∧ 1 ≤ w ∧ 1 ≤ d ∧ d ≤ 7 ∧
      (w ≤ 52 ∨ w = 53 ∧ (weekday = 3 ∨ weekday = 2 ∧ isLeap y)) then
    let monday := if 3 < weekday then first+7-weekday else first-weekday
    some (ofDays (monday+7*(w-1)+(d-1)))
  else none

def readDate (s : PyStr) : Option (ℕ × ℕ × ℕ) := do
  let (y,t) ← readDigits 4 s
  let dashed := t.head? = some (point '-')
  let t := if dashed then t.tail else t
  let skip (t : PyStr) : Option PyStr :=
    if dashed then (if t.head? = some (point '-') then some t.tail else none) else some t
  if t.head? = some (point 'W') then
    let (w,t) ← readDigits 2 t.tail
    if t = [] then isoWeekDate y w 1
    else
      let (d,_) ← readDigits 1 (← skip t)
      isoWeekDate y w d
  else
    let (m,t) ← readDigits 2 t
    let (d,t) ← readDigits 2 (← skip t)
    if t = [] then some (y,m,d) else none

structure Clock where
  hour : ℕ
  minute : ℕ
  second : ℕ
  micro : ℕ
  rest : PyStr

def readFraction (h m s : ℕ) (t : PyStr) : Option Clock := do
  let k := min t.length 6
  let (n,t) ← readDigits k t
  some ⟨h, m, s, n*10^(6-k), t.dropWhile isDigit⟩

def readClock (s : PyStr) : Option Clock := do
  let (h,t) ← readDigits 2 s
  if t.length ≤ 1 then return ⟨h, 0, 0, 0, t⟩
  let colons := t.head? = some (point ':')
  if ¬ colons ∧ (t.head? = some (point '.') ∨ t.head? = some (point ',')) then none
  let (m,t) ← readDigits 2 (if colons then t.tail else t)
  if t.length ≤ 1 then return ⟨h, m, 0, 0, t⟩
  if colons ∧ t.head? ≠ some (point ':') then none
  if t.head? = some (point '.') ∨ t.head? = some (point ',') then none
  let (s,t) ← readDigits 2 (if colons then t.tail else t)
  if t.length ≤ 1 then return ⟨h, m, s, 0, t⟩
  if t.head? = some (point '.') ∨ t.head? = some (point ',') then readFraction h m s t.tail
  else if colons then none
  else readFraction h m s t

def offsetOf (sign : ℤ) (c : Clock) : Option Offset :=
  let n : ℤ := sign*((c.hour*3600+c.minute*60+c.second:ℕ)*1000000+c.micro)
  if h : n.natAbs < 86400000000 then some ⟨n, h⟩ else none

def isZone (c : CodePoint) : Bool := c = point '+' ∨ c = point '-' ∨ c = point 'Z'

def readTime (s : PyStr) : Option (Clock × Option Offset) := do
  let c ← readClock (s.takeWhile (fun c => !isZone c))
  match s.dropWhile (fun c => !isZone c) with
  | [] => if c.rest = [] then some (c,none) else none
  | z::t =>
    if z = point 'Z' then (if t = [] then some (c,some Offset.zero) else none)
    else
      let o ← readClock t
      if o.rest = [] then (offsetOf (if z = point '-' then -1 else 1) o).map (fun o => (c,some o))
      else none

/-- `datetime.fromisoformat`; `none` where Python raises `ValueError`. -/
def fromisoformat (s : PyStr) : Option DateTime := do
  if s.length < 7 then none
  let n ← separatorAt s
  let (y,m,d) ← readDate (s.take n)
  let (c,o) ← if s.length ≤ n+1 then some ((⟨0, 0, 0, 0, []⟩ : Clock),none) else readTime (s.drop (n+1))
  let civil : Civil := ⟨y, m, d, c.hour, c.minute, c.second, c.micro⟩
  if h : civil.Valid then some ⟨⟨civil, h⟩, o⟩ else none

theorem digit_inj {m n : ℕ} (hm : m < 10) (hn : n < 10) : digit m = digit n ↔ m = n := by
  simp only [digit, Fin.mk.injEq]
  omega

@[simp] theorem pad_length (k n : ℕ) : (pad k n).length = k := by
  induction k generalizing n with
  | zero => rfl
  | succ k ih => simp [pad, ih]

/-- Texts that start with equally many characters are compared on these first. -/
theorem append_lt_append {a b x y : PyStr} (h : a.length = b.length) :
    a++x < b++y ↔ a < b ∨ a = b ∧ x < y := by
  induction a generalizing b with
  | nil =>
    obtain rfl : b = [] := List.length_eq_zero_iff.mp h.symm
    simp
  | cons c a ih =>
    cases b with
    | nil => simp at h
    | cons d b =>
      have hab : a.length = b.length := by simpa using h
      simp only [List.cons_append, List.cons_lt_cons_iff, ih hab, List.cons.injEq]
      tauto

theorem append_eq_append {a b x y : PyStr} (h : a.length = b.length) :
    a++x = b++y ↔ a = b ∧ x = y :=
  ⟨fun he => List.append_inj he h, fun he => by rw [he.1, he.2]⟩

theorem pad_inj {k m n : ℕ} (hm : m < 10^k) (hn : n < 10^k) : pad k m = pad k n ↔ m = n := by
  induction k generalizing m n with
  | zero =>
    obtain rfl : m = 0 := by simpa using hm
    obtain rfl : n = 0 := by simpa using hn
    simp
  | succ k ih =>
    have hm' : m/10 < 10^k := by omega
    have hn' : n/10 < 10^k := by omega
    rw [pad, pad, append_eq_append (by simp), ih hm' hn']
    simp only [digit, List.cons.injEq, Fin.mk.injEq, and_true]
    omega

theorem pad_lt {k m n : ℕ} (hm : m < 10^k) (hn : n < 10^k) : pad k m < pad k n ↔ m < n := by
  induction k generalizing m n with
  | zero =>
    obtain rfl : m = 0 := by simpa using hm
    obtain rfl : n = 0 := by simpa using hn
    simp
  | succ k ih =>
    have hm' : m/10 < 10^k := by omega
    have hn' : n/10 < 10^k := by omega
    rw [pad, pad, append_lt_append (by simp), ih hm' hn', pad_inj hm' hn']
    simp only [List.cons_lt_cons_iff, digit, Fin.mk_lt_mk, List.lt_irrefl, and_false, or_false]
    omega

theorem cons_lt_cons_self (c : CodePoint) (x y : PyStr) : c::x < c::y ↔ x < y := by
  simp

theorem pad_append_lt {k m n : ℕ} (hm : m < 10^k) (hn : n < 10^k) (x y : PyStr) :
    pad k m++x < pad k n++y ↔ m < n ∨ m = n ∧ x < y := by
  rw [append_lt_append (by simp), pad_lt hm hn, pad_inj hm hn]

/-- The fraction is left out when it is zero. The text stays in order, because
the plus sign of the offset comes before the point. -/
theorem fraction_lt {m n : ℕ} (hm : m < 1000000) (hn : n < 1000000) (x : PyStr) :
    fraction m++point '+' ::x < fraction n++point '+' ::x ↔ m < n := by
  unfold fraction
  have hp : point '+' < point '.' := by decide
  by_cases hm0 : m = 0
  · by_cases hn0 : n = 0
    · simp [hm0, hn0]
    · simp only [if_pos hm0, if_neg hn0, List.nil_append, List.cons_append, List.cons_lt_cons_iff, hp,
        true_or, true_iff]
      omega
  · by_cases hn0 : n = 0
    · have hq : ¬ (point '.' < point '+') := by decide
      have he : point '.' ≠ point '+' := by decide
      simp only [if_neg hm0, if_pos hn0, List.nil_append, List.cons_append, List.cons_lt_cons_iff, hq,
        he, false_and, or_false, false_iff]
      omega
    · simp only [if_neg hm0, if_neg hn0, List.cons_append, cons_lt_cons_self,
        pad_append_lt (k := 6) (by omega : m < 10^6) (by omega : n < 10^6), List.lt_irrefl, and_false,
        or_false]

theorem daysInMonth_le (y m : ℕ) : daysInMonth y m ≤ 31 := by
  unfold daysInMonth
  split_ifs <;> omega

/-- On datetimes in UTC, the texts of `isoformat` are in the order of the
datetimes. -/
theorem isoformat_lt (u v : UtcTime) : u.isoformat < v.isoformat ↔ u.fields < v.fields := by
  have hu := u.valid
  have hv := v.valid
  simp only [Civil.Valid] at hu hv
  obtain ⟨hy, hmo, hd, hh, hmi, hs, hf⟩ := hu
  obtain ⟨hy', hmo', hd', hh', hmi', hs', hf'⟩ := hv
  have hdu := daysInMonth_le u.civil.year u.civil.month
  have hdv := daysInMonth_le v.civil.year v.civil.month
  have hoff : Offset.zero.isoformat = point '+' ::py "00:00" := by decide
  simp only [UtcTime.isoformat, UtcTime.aware, DateTime.isoformat, Civil.isoformat, Option.elim,
    hoff, UtcTime.fields, Civil.fields, List.append_assoc, List.cons_append]
  rw [pad_append_lt (by omega) (by omega), cons_lt_cons_self, pad_append_lt (by omega) (by omega),
    cons_lt_cons_self, pad_append_lt (by omega) (by omega), cons_lt_cons_self,
    pad_append_lt (by omega) (by omega), cons_lt_cons_self, pad_append_lt (by omega) (by omega),
    cons_lt_cons_self, pad_append_lt (by omega) (by omega), fraction_lt hf hf']
  simp only [List.cons_lt_cons_iff, List.lt_irrefl, and_false, or_false]

theorem isoformat_inj {u v : UtcTime} (h : u.isoformat = v.isoformat) : u = v := by
  apply UtcTime.fields_inj
  rcases lt_trichotomy u.fields v.fields with hl | he | hg
  · exact absurd ((isoformat_lt u v).mpr hl) (by rw [h]; exact List.lt_irrefl _)
  · exact he
  · exact absurd ((isoformat_lt v u).mpr hg) (by rw [h]; exact List.lt_irrefl _)

theorem fraction_inj {m n : ℕ} (hm : m < 1000000) (hn : n < 1000000) {x y : PyStr}
    (hx : x.head? ≠ some (point '.')) (hy : y.head? ≠ some (point '.'))
    (h : fraction m++x = fraction n++y) : m = n ∧ x = y := by
  unfold fraction at h
  by_cases hm0 : m = 0
  · by_cases hn0 : n = 0
    · rw [if_pos hm0, if_pos hn0] at h
      exact ⟨by omega, h⟩
    · rw [if_pos hm0, if_neg hn0] at h
      exact absurd (congrArg List.head? h) hx
  · by_cases hn0 : n = 0
    · rw [if_neg hm0, if_pos hn0] at h
      exact absurd (congrArg List.head? h).symm hy
    · rw [if_neg hm0, if_neg hn0, List.cons_append, List.cons_append, List.cons_inj_right,
        append_eq_append (by simp), pad_inj (by omega) (by omega)] at h
      exact h

def Offset.seconds (n : ℕ) : PyStr :=
  if n%60000000 = 0 then [] else point ':' ::(pad 2 (n/1000000%60)++fraction (n%1000000))

theorem offset_text (o : Offset) : o.isoformat =
    (if o.micros < 0 then point '-' else point '+')::(pad 2 (o.micros.natAbs/1000000/3600)++
      point ':' ::(pad 2 (o.micros.natAbs/1000000/60%60)++Offset.seconds o.micros.natAbs)) := rfl

theorem seconds_inj {m n : ℕ} (h : Offset.seconds m = Offset.seconds n) :
    m%60000000 = n%60000000 := by
  unfold Offset.seconds at h
  by_cases hm : m%60000000 = 0
  · by_cases hn : n%60000000 = 0
    · rw [hm, hn]
    · rw [if_pos hm, if_neg hn] at h
      cases h
  · by_cases hn : n%60000000 = 0
    · rw [if_neg hm, if_pos hn] at h
      cases h
    · rw [if_neg hm, if_neg hn, List.cons_inj_right, append_eq_append (by simp),
        pad_inj (by omega) (by omega)] at h
      have hf : fraction (m%1000000)++[] = fraction (n%1000000)++[] := by rw [h.2]
      have hmicro := (fraction_inj (by omega) (by omega) (by simp) (by simp) hf).1
      omega

theorem offset_inj {o p : Offset} (h : o.isoformat = p.isoformat) : o = p := by
  have ho := o.small
  have hp := p.small
  have hrest := List.tail_eq_of_cons_eq h
  rw [append_eq_append (by simp), List.cons_inj_right, append_eq_append (by simp),
    pad_inj (by omega) (by omega), pad_inj (by omega) (by omega)] at hrest
  obtain ⟨hh, hm, hs⟩ := hrest
  have hsec := seconds_inj hs
  have hsign : o.micros < 0 ↔ p.micros < 0 := by
    have hhead := List.head_eq_of_cons_eq h
    have hne : point '-' ≠ point '+' := by decide
    by_cases hon : o.micros < 0
    · by_cases hpn : p.micros < 0
      · exact ⟨fun _ => hpn, fun _ => hon⟩
      · rw [if_pos hon, if_neg hpn] at hhead
        exact absurd hhead hne
    · by_cases hpn : p.micros < 0
      · rw [if_neg hon, if_pos hpn] at hhead
        exact absurd hhead.symm hne
      · exact ⟨fun hn => absurd hn hon, fun hn => absurd hn hpn⟩
  have habs : o.micros = p.micros := by omega
  rcases o with ⟨m, _⟩
  cases habs
  rfl

theorem offset_head (o : Option Offset) : (o.elim [] Offset.isoformat).head? ≠ some (point '.') := by
  cases o with
  | none => exact fun h => nomatch h
  | some o =>
    simp only [Option.elim, Offset.isoformat, List.head?_cons]
    split_ifs <;> decide

/-- Datetimes with the same text have the same fields and the same offset. -/
theorem DateTime.isoformat_inj {d e : DateTime} (h : d.isoformat = e.isoformat) : d = e := by
  rcases d with ⟨⟨⟨y, mo, da, ho, mi, se, us⟩, hv⟩, o⟩
  rcases e with ⟨⟨⟨y', mo', da', ho', mi', se', us'⟩, hv'⟩, o'⟩
  simp only [Civil.Valid] at hv hv'
  have hdm := daysInMonth_le y mo
  have hdm' := daysInMonth_le y' mo'
  simp only [DateTime.isoformat, Civil.isoformat, List.append_assoc, List.cons_append] at h
  rw [append_eq_append (by simp), List.cons_inj_right, append_eq_append (by simp),
    List.cons_inj_right, append_eq_append (by simp), List.cons_inj_right,
    append_eq_append (by simp), List.cons_inj_right, append_eq_append (by simp),
    List.cons_inj_right, append_eq_append (by simp), pad_inj (by omega) (by omega),
    pad_inj (by omega) (by omega), pad_inj (by omega) (by omega), pad_inj (by omega) (by omega),
    pad_inj (by omega) (by omega), pad_inj (by omega) (by omega)] at h
  obtain ⟨rfl, rfl, rfl, rfl, rfl, rfl, h⟩ := h
  obtain ⟨rfl, hoff⟩ := fraction_inj (by omega) (by omega) (offset_head o) (offset_head o') h
  cases o with
  | none =>
    cases o' with
    | none => rfl
    | some p => cases hoff
  | some o =>
    cases o' with
    | none => cases hoff
    | some p => rw [offset_inj hoff]
/-- Only a datetime with offset zero has the text of a datetime in UTC. -/
theorem isoformat_utc {d : DateTime} {t : UtcTime} (h : d.isoformat = t.isoformat) :
    d = t.aware :=
  DateTime.isoformat_inj h

end Uru.Filter
