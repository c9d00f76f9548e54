import Uru.Filter.Time

/-!
# Fields and instants

The microseconds since the first of January of the year 1 order the datetimes
as their fields do, and `astimezone(UTC)` keeps the instant: the fields that it
reads off a number of microseconds have that number again. Naive datetimes
are read as UTC.
-/

set_option autoImplicit false

namespace Uru.Filter

theorem isLeap_iff (y : ℕ) : isLeap y = true ↔ 4 ∣ y ∧ (¬ 100 ∣ y ∨ 400 ∣ y) := by
  simp only [isLeap, decide_eq_true_eq, Nat.dvd_iff_mod_eq_zero, ne_eq]

theorem daysBeforeYear_succ (y : ℕ) (hy : 1 ≤ y) :
    daysBeforeYear (y+1) = daysBeforeYear y+(if isLeap y then 366 else 365) := by
  obtain ⟨k, rfl⟩ := Nat.exists_eq_add_of_le' hy
  have hle : k/100 ≤ k/4 := Nat.div_le_div_left (by omega) (by omega)
  have h400 : 400 ∣ k+1 → 100 ∣ k+1 := fun h => Nat.dvd_trans (by decide) h
  have h100 : 100 ∣ k+1 → 4 ∣ k+1 := fun h => Nat.dvd_trans (by decide) h
  simp only [daysBeforeYear, Nat.add_sub_cancel, Nat.succ_div, isLeap_iff]
  generalize k/4 = a at *
  generalize k/100 = b at *
  generalize k/400 = c at *
  by_cases p : 4 ∣ k+1
  · by_cases q : 100 ∣ k+1
    · by_cases r : 400 ∣ k+1
      · simp only [p, q, r, not_true_eq_false, or_true, and_self, if_true]
        omega
      · simp only [p, q, r, not_true_eq_false, or_false, and_false, if_true, if_false]
        omega
    · have r : ¬ 400 ∣ k+1 := fun h => q (h400 h)
      simp only [p, q, r, not_false_eq_true, true_or, and_self, if_true, if_false]
      omega
  · have q : ¬ 100 ∣ k+1 := fun h => p (h100 h)
    have r : ¬ 400 ∣ k+1 := fun h => q (h400 h)
    simp only [p, q, r, false_and, if_false]
    omega

theorem daysBeforeYear_mono {y z : ℕ} (hy : 1 ≤ y) (h : y ≤ z) :
    daysBeforeYear y ≤ daysBeforeYear z := by
  induction z, h using Nat.le_induction with
  | base => exact le_rfl
  | succ z hyz ih =>
    rw [daysBeforeYear_succ z (hy.trans hyz)]
    omega

theorem daysBeforeMonth_succ (y m : ℕ) (hm : 1 ≤ m) :
    daysBeforeMonth y (m+1) = daysBeforeMonth y m+daysInMonth y m := by
  obtain ⟨k, rfl⟩ := Nat.exists_eq_add_of_le' hm
  simp [daysBeforeMonth, List.range_succ]

theorem daysBeforeMonth_mono (y : ℕ) {m n : ℕ} (hm : 1 ≤ m) (h : m ≤ n) :
    daysBeforeMonth y m ≤ daysBeforeMonth y n := by
  induction n, h using Nat.le_induction with
  | base => exact le_rfl
  | succ n hmn ih =>
    rw [daysBeforeMonth_succ y n (hm.trans hmn)]
    omega

theorem daysBeforeMonth_year (y : ℕ) :
    daysBeforeMonth y 13 = if isLeap y then 366 else 365 := by
  simp only [daysBeforeMonth, daysInMonth]
  split_ifs with h
  · simp [List.range_succ]
  · simp [List.range_succ]

/-- The number of a day, from the first of January of the year 1. -/
def dayNumber (y m d : ℕ) : ℕ := daysBeforeYear y+daysBeforeMonth y m+(d-1)

theorem month_days_lt {y m d : ℕ} (hm : 1 ≤ m) (hd : 1 ≤ d) (hdm : d ≤ daysInMonth y m) :
    daysBeforeMonth y m+(d-1) < daysBeforeMonth y (m+1) := by
  rw [daysBeforeMonth_succ y m hm]
  omega

theorem dayNumber_lt_year {y m d : ℕ} (hy : 1 ≤ y) (hm : 1 ≤ m ∧ m ≤ 12)
    (hd : 1 ≤ d ∧ d ≤ daysInMonth y m) : dayNumber y m d < daysBeforeYear (y+1) := by
  have hlt := month_days_lt hm.1 hd.1 hd.2
  have hle := daysBeforeMonth_mono y (show 1 ≤ m+1 by omega) (show m+1 ≤ 13 by omega)
  rw [daysBeforeMonth_year] at hle
  rw [daysBeforeYear_succ y hy, dayNumber]
  omega

/-- Later dates have larger numbers. -/
theorem dayNumber_lt {y m d y' m' d' : ℕ} (hy : 1 ≤ y) (hm : 1 ≤ m ∧ m ≤ 12)
    (hd : 1 ≤ d ∧ d ≤ daysInMonth y m)
    (h : y < y' ∨ y = y' ∧ (m < m' ∨ m = m' ∧ d < d')) : dayNumber y m d < dayNumber y' m' d' := by
  rcases h with hlt | ⟨rfl, hlt | ⟨rfl, hlt⟩⟩
  · have hyear := dayNumber_lt_year hy hm hd
    have hle := daysBeforeYear_mono (show 1 ≤ y+1 by omega) (show y+1 ≤ y' by omega)
    have hself : daysBeforeYear y' ≤ dayNumber y' m' d' := by unfold dayNumber; omega
    omega
  · have hmonth := month_days_lt hm.1 hd.1 hd.2
    have hle := daysBeforeMonth_mono y (show 1 ≤ m+1 by omega) (show m+1 ≤ m' by omega)
    unfold dayNumber
    omega
  · unfold dayNumber
    omega

theorem monthDay_number (y n : ℕ) {m : ℕ} (hm : 1 ≤ m) (d : ℕ) :
    daysBeforeMonth y (monthDay y n m d).1+((monthDay y n m d).2-1) = daysBeforeMonth y m+d := by
  induction n generalizing m d with
  | zero => simp [monthDay]
  | succ n ih =>
    rw [monthDay]
    by_cases h : d < daysInMonth y m
    · rw [if_pos h]
      simp
    · rw [if_neg h, ih (by omega), daysBeforeMonth_succ y m hm]
      omega

theorem daysBeforeYear_digits (a b c e : ℕ) (hb : b ≤ 3) (hc : c ≤ 24) (he : e ≤ 3) :
    daysBeforeYear (a*400+b*100+c*4+e+1) = 146097*a+36524*b+1461*c+365*e := by
  have h4 : (a*400+b*100+c*4+e)/4 = 100*a+25*b+c := by omega
  have h100 : (a*400+b*100+c*4+e)/100 = 4*a+b := by omega
  have h400 : (a*400+b*100+c*4+e)/400 = a := by omega
  rw [daysBeforeYear, Nat.add_sub_cancel, h4, h100, h400]
  omega

/-- The date that `ofDays` reads off a number of days has that number. -/
theorem ofDays_number (n : ℕ) : dayNumber (ofDays n).1 (ofDays n).2.1 (ofDays n).2.2 = n := by
  unfold ofDays
  simp only
  have hb : min (n%146097/36524) 3 ≤ 3 := min_le_right _ _
  have hc : (n%146097-36524*min (n%146097/36524) 3)/1461 ≤ 24 := by omega
  have he : min ((n%146097-36524*min (n%146097/36524) 3)%1461/365) 3 ≤ 3 := min_le_right _ _
  rw [dayNumber, Nat.add_assoc, monthDay_number _ _ le_rfl, daysBeforeYear_digits _ _ _ _ hb hc he]
  simp only [daysBeforeMonth, Nat.sub_self, List.range_zero, List.map_nil, List.sum_nil]
  omega

theorem toMicros_eq (c : Civil) : c.toMicros =
    (dayNumber c.year c.month c.day*86400000000+c.hour*3600000000+c.minute*60000000+
      c.second*1000000+c.micro : ℕ) := by
  simp only [Civil.toMicros, dayNumber]
  push_cast
  ring

theorem toMicros_ofMicros (t : ℕ) : (Civil.ofMicros t).toMicros = t := by
  rw [toMicros_eq]
  simp only [Civil.ofMicros, ofDays_number]
  congr 1
  omega

def DateTime.micros (d : DateTime) : ℤ := d.clock.civil.toMicros-d.offset.elim 0 Offset.micros

def hasUtc (d : DateTime) : Prop := ∃ u, d.toUtc = some u

/-- `astimezone(UTC)` keeps the instant. -/
theorem toUtc_micros {d : DateTime} {u : UtcTime} (h : d.toUtc = some u) :
    u.civil.toMicros = d.micros := by
  unfold DateTime.toUtc at h
  unfold DateTime.micros
  rcases ho : d.offset with _ | o
  · simp only [ho, Option.some.injEq] at h
    rw [← h]
    simp
  · simp only [ho] at h
    split_ifs at h with hz ht
    · rw [← Option.some.inj h]
      simp [hz]
    · rw [← Option.some.inj h, toMicros_ofMicros]
      simpa using ht.1

theorem toMicros_lt_of_fields {u v : UtcTime} (h : u.fields < v.fields) :
    u.civil.toMicros < v.civil.toMicros := by
  have hu := u.valid
  have hv := v.valid
  simp only [Civil.Valid] at hu hv
  obtain ⟨hy, hmo, hd, hh, hmi, hs, hf⟩ := hu
  obtain ⟨hy', hmo', hd', hh', hmi', hs', hf'⟩ := hv
  simp only [UtcTime.fields, Civil.fields, List.cons_lt_cons_iff, List.lt_irrefl, and_false,
    or_false] at h
  rw [toMicros_eq, toMicros_eq, Nat.cast_lt]
  by_cases hday : u.civil.year = v.civil.year ∧ u.civil.month = v.civil.month ∧
      u.civil.day = v.civil.day
  · obtain ⟨hey, hem, hed⟩ := hday
    rw [hey, hem, hed]
    omega
  · have hlt : dayNumber u.civil.year u.civil.month u.civil.day <
        dayNumber v.civil.year v.civil.month v.civil.day := dayNumber_lt hy.1 hmo hd (by omega)
    omega

/-- The order of the fields is the order of the instants. -/
theorem fields_lt_iff (u v : UtcTime) : u.fields < v.fields ↔ u.civil.toMicros < v.civil.toMicros := by
  constructor
  · exact toMicros_lt_of_fields
  · intro h
    rcases lt_trichotomy u.fields v.fields with hl | he | hg
    · exact hl
    · rw [UtcTime.fields_inj he] at h
      exact absurd h (lt_irrefl _)
    · exact absurd (toMicros_lt_of_fields hg) (not_lt.mpr h.le)

theorem micros_inj {u v : UtcTime} (h : u.civil.toMicros = v.civil.toMicros) : u = v := by
  apply UtcTime.fields_inj
  rcases lt_trichotomy u.fields v.fields with hl | he | hg
  · exact absurd h (toMicros_lt_of_fields hl).ne
  · exact he
  · exact absurd h.symm (toMicros_lt_of_fields hg).ne

end Uru.Filter
