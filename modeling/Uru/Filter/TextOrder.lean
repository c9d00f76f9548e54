import Uru.Filter.Calendar

/-!
# The order of ISO texts

`isoformat` writes the fields of the local clock first and the offset last.
Text order is therefore the order of the clocks, and the offset decides
between equal clocks only: a naive text comes first, then the offsets east of
UTC and at UTC, then those west of it, the nearer ones first. Texts and
instants agree on a pair of datetimes exactly when the pair is in step.
-/

set_option autoImplicit false

namespace Uru.Filter

def BelowPoint (x : PyStr) : Prop := ∀ c ∈ x.head?, c < point '.'

theorem belowPoint_lt {x y : PyStr} (h : BelowPoint x) : x < point '.' ::y := by
  cases x with
  | nil => simp
  | cons c x => exact List.cons_lt_cons_iff.mpr (.inl (h c rfl))

theorem fraction_append_lt {m n : ℕ} (hm : m < 1000000) (hn : n < 1000000) {x y : PyStr}
    (hx : BelowPoint x) (hy : BelowPoint y) :
    fraction m++x < fraction n++y ↔ m < n ∨ m = n ∧ x < y := by
  unfold fraction
  by_cases hm0 : m = 0
  · by_cases hn0 : n = 0
    · simp [hm0, hn0]
    · rw [if_pos hm0, if_neg hn0, List.nil_append, List.cons_append]
      exact ⟨fun _ => .inl (by omega), fun _ => belowPoint_lt hx⟩
  · by_cases hn0 : n = 0
    · rw [if_neg hm0, if_pos hn0, List.nil_append, List.cons_append]
      exact ⟨fun h => absurd (belowPoint_lt hy) (lt_asymm h), fun h => by omega⟩
    · rw [if_neg hm0, if_neg hn0, List.cons_append, List.cons_append, cons_lt_cons_self,
        pad_append_lt (k := 6) (by omega) (by omega)]

theorem belowPoint_nil : BelowPoint [] := fun c hc => by cases hc

theorem seconds_lt (m n : ℕ) :
    Offset.seconds m < Offset.seconds n ↔ m%60000000 < n%60000000 := by
  unfold Offset.seconds
  by_cases hm : m%60000000 = 0
  · by_cases hn : n%60000000 = 0
    · simp [hm, hn]
    · rw [if_pos hm, if_neg hn]
      exact ⟨fun _ => by omega, fun _ => by simp⟩
  · by_cases hn : n%60000000 = 0
    · rw [if_neg hm, if_pos hn]
      exact ⟨fun h => by simp at h, fun h => by omega⟩
    · have hf := fraction_append_lt (m := m%1000000) (n := n%1000000) (by omega) (by omega)
        belowPoint_nil belowPoint_nil
      simp only [List.append_nil, List.lt_irrefl, and_false, or_false] at hf
      rw [if_neg hm, if_neg hn, cons_lt_cons_self, pad_append_lt (by omega) (by omega), hf]
      omega

def Offset.west (o : Offset) : Prop := o.micros < 0

theorem magnitude_lt {m n : ℕ} (hm : m < 86400000000) (hn : n < 86400000000) :
    pad 2 (m/1000000/3600)++point ':' ::(pad 2 (m/1000000/60%60)++Offset.seconds m) <
      pad 2 (n/1000000/3600)++point ':' ::(pad 2 (n/1000000/60%60)++Offset.seconds n) ↔ m < n := by
  rw [pad_append_lt (by omega) (by omega), cons_lt_cons_self, pad_append_lt (by omega) (by omega),
    seconds_lt]
  omega

/-- The text of an offset: east before west, then by the distance from UTC. -/
theorem offset_lt (o p : Offset) : o.isoformat < p.isoformat ↔
    ¬ o.west ∧ p.west ∨ (o.west ↔ p.west) ∧ o.micros.natAbs < p.micros.natAbs := by
  have ho := o.small
  have hp := p.small
  have hlt : point '+' < point '-' := by decide
  have hgt : ¬ (point '-' < point '+') := by decide
  have hne : point '-' ≠ point '+' := by decide
  rw [offset_text, offset_text, List.cons_lt_cons_iff, magnitude_lt (by omega) (by omega)]
  unfold Offset.west
  by_cases hon : o.micros < 0
  · by_cases hpn : p.micros < 0
    · simp [hon, hpn]
    · simp [hon, hpn, hgt, hne]
  · by_cases hpn : p.micros < 0
    · simp [hon, hpn, hlt]
    · simp [hon, hpn]

def DateTime.suffix (d : DateTime) : PyStr := d.offset.elim [] Offset.isoformat

theorem suffix_below (d : DateTime) : BelowPoint d.suffix := by
  unfold DateTime.suffix
  rcases d.offset with _ | o
  · exact belowPoint_nil
  · intro c hc
    rw [Option.elim, offset_text, List.head?_cons, Option.mem_some_iff] at hc
    rw [← hc]
    split_ifs <;> decide

theorem isoformat_lt_iff (d e : DateTime) : d.isoformat < e.isoformat ↔
    d.clock.fields < e.clock.fields ∨ d.clock = e.clock ∧ d.suffix < e.suffix := by
  have hu := d.clock.valid
  have hv := e.clock.valid
  simp only [Civil.Valid] at hu hv
  obtain ⟨hy, hmo, hd, hh, hmi, hs, hf⟩ := hu
  obtain ⟨hy', hmo', hd', hh', hmi', hs', hf'⟩ := hv
  have hdu := daysInMonth_le d.clock.civil.year d.clock.civil.month
  have hdv := daysInMonth_le e.clock.civil.year e.clock.civil.month
  have heq : d.clock = e.clock ↔ d.clock.fields = e.clock.fields :=
    ⟨fun h => by rw [h], UtcTime.fields_inj⟩
  rw [heq]
  have htext (f : DateTime) : f.isoformat = f.clock.civil.isoformat++f.suffix := rfl
  simp only [htext, Civil.isoformat, UtcTime.fields, Civil.fields, List.append_assoc,
    List.cons_append]
  rw [pad_append_lt (by omega) (by omega), cons_lt_cons_self, pad_append_lt (by omega) (by omega),
    cons_lt_cons_self, pad_append_lt (by omega) (by omega), cons_lt_cons_self,
    pad_append_lt (by omega) (by omega), cons_lt_cons_self, pad_append_lt (by omega) (by omega),
    cons_lt_cons_self, pad_append_lt (by omega) (by omega),
    fraction_append_lt hf hf' (suffix_below d) (suffix_below e)]
  simp only [List.cons_lt_cons_iff, List.lt_irrefl, and_false, or_false, List.cons.injEq, and_true,
    and_or_left, or_assoc, and_assoc]

def DateTime.west (d : DateTime) : Prop := ∃ o, d.offset = some o ∧ o.west

/-- The local clocks of the pair are in the order of the instants, and where
they show the same the offsets are equal or one of them is behind UTC. -/
def InStep (d e : DateTime) : Prop :=
  (d.clock.fields < e.clock.fields → d.micros < e.micros) ∧
    (e.clock.fields < d.clock.fields → e.micros < d.micros) ∧
    (d.clock = e.clock → d.offset = e.offset ∨ d.west ∨ e.west)

theorem west_iff {d : DateTime} {o : Offset} (h : d.offset = some o) : d.west ↔ o.west :=
  ⟨fun ⟨p, hp, hw⟩ => by rwa [Option.some.inj (h.symm.trans hp)], fun hw => ⟨o, h, hw⟩⟩

theorem not_west_naive {d : DateTime} (h : d.offset = none) : ¬ d.west := by
  rintro ⟨o, ho, -⟩
  rw [h] at ho
  cases ho

/-- Datetimes on the same clock: the text puts the one with the offset further
east first, or the naive one, and among those behind UTC the nearer one. -/
theorem offset_order (o p : Offset) (t : ℤ) :
    ((o.isoformat < p.isoformat ↔ t-o.micros < t-p.micros) ∧
      (p.isoformat < o.isoformat ↔ t-p.micros < t-o.micros)) ↔ o = p ∨ o.west ∨ p.west := by
  have heq : o = p ↔ o.micros = p.micros := by
    rcases o with ⟨m, _⟩
    rcases p with ⟨n, _⟩
    simp
  rw [offset_lt, offset_lt, heq]
  unfold Offset.west
  by_cases hon : o.micros < 0
  · by_cases hpn : p.micros < 0
    · simp only [hon, hpn, not_true_eq_false, false_and, iff_true, true_and, false_or, or_true,
        or_self]
      omega
    · have hlt : p.micros > o.micros := by omega
      simp [hon, hpn, hlt, hlt.le]
  · by_cases hpn : p.micros < 0
    · have hlt : o.micros > p.micros := by omega
      simp [hon, hpn, hlt, hlt.le]
    · simp only [hon, hpn, not_false_eq_true, and_false, iff_self, true_and, false_or, or_false]
      omega

theorem naive_order (o : Offset) (t : ℤ) :
    ((([] : PyStr) < o.isoformat ↔ t < t-o.micros) ∧ (o.isoformat < [] ↔ t-o.micros < t)) ↔
      o.west := by
  have hpos : ([] : PyStr) < o.isoformat := by rw [offset_text]; simp
  have hneg : ¬ o.isoformat < [] := List.not_lt_nil _
  simp only [hpos, hneg, true_iff, false_iff, Offset.west]
  omega

/-- Datetimes on the same clock: the text puts the naive one first, then the
offset east of UTC, and of two offsets on one side the nearer one. -/
theorem suffix_agrees_iff {d e : DateTime} (hc : d.clock = e.clock) :
    ((d.suffix < e.suffix ↔ d.micros < e.micros) ∧ (e.suffix < d.suffix ↔ e.micros < d.micros)) ↔
      (d.offset = e.offset ∨ d.west ∨ e.west) := by
  unfold DateTime.suffix DateTime.micros
  rw [hc]
  rcases hd : d.offset with _ | o
  · rcases he : e.offset with _ | p
    · simp
    · simp only [Option.elim, west_iff he, not_west_naive hd, false_or, reduceCtorEq, sub_zero]
      exact naive_order p _
  · rcases he : e.offset with _ | p
    · simp only [Option.elim, west_iff hd, not_west_naive he, or_false, reduceCtorEq, false_or, sub_zero]
      rw [and_comm]
      exact naive_order o _
    · simp only [Option.elim, west_iff hd, west_iff he, Option.some.injEq]
      exact offset_order o p _

/-- Texts and instants give the same order exactly on the pairs in step. -/
theorem text_agrees_iff (d e : DateTime) :
    ((d.isoformat < e.isoformat ↔ d.micros < e.micros) ∧
      (e.isoformat < d.isoformat ↔ e.micros < d.micros)) ↔ InStep d e := by
  rw [isoformat_lt_iff, isoformat_lt_iff, InStep]
  rcases lt_trichotomy d.clock.fields e.clock.fields with hl | he | hg
  · have hne : d.clock ≠ e.clock := fun h => absurd hl (by rw [h]; exact lt_irrefl _)
    simp only [hl, lt_asymm hl, hne, hne.symm, false_and, or_false, true_iff, false_iff, forall_const,
      false_implies, and_true, not_lt]
    exact ⟨fun h => h.1, fun h => ⟨h, h.le⟩⟩
  · have hc := UtcTime.fields_inj he
    rw [← suffix_agrees_iff hc]
    simp only [hc, lt_irrefl, false_or, true_and, false_implies, forall_const]
  · have hne : d.clock ≠ e.clock := fun h => absurd hg (by rw [h]; exact lt_irrefl _)
    simp only [hg, lt_asymm hg, hne, hne.symm, false_and, or_false, true_iff, false_iff, forall_const,
      false_implies, and_true, true_and, not_lt]
    exact ⟨fun h => h.2, fun h => ⟨h.le, h⟩⟩

end Uru.Filter
